import Mathlib

/-!
# Open addressing with linear probing

A table of `m` slots is a function from positions to optional keys. The search for a
key starts at its home position and walks on by one, modulo `m`, until it meets the
key or a free slot, for at most a given number of steps.

What makes the walk complete is `Chained`: every stored key can be reached from its
home without crossing a free slot, and no key is stored twice. A table that never
frees a slot keeps it, since a key is only ever written where its own walk ended.

## Main results

- `Chained.search_hit`: a stored key is found wherever it stands.
- `search_free`: the walk of an absent key ends at a free slot of its own run.
- `Chained.claim`: writing the key there keeps the table chained.
-/

namespace N00b.Probing

variable {κ : Type}

/-- The position `d` steps after `h`. -/
def pos (m h d : ℕ) : ℕ := (h + d) % m

/-- How a walk ends. -/
inductive Outcome where
  /-- The key stands in slot `i`. -/
  | hit (i : ℕ)
  /-- The key is in no slot before the free slot `i`. -/
  | free (i : ℕ)
  /-- The steps ran out. -/
  | exhausted
  deriving DecidableEq, Repr

/-- Every stored key is reached from its home over slots in use, and has one slot. -/
structure Chained (m : ℕ) (home : κ → ℕ) (slot : ℕ → Option κ) : Prop where
  reach : ∀ {i k}, i < m → slot i = some k →
    ∃ d < m, pos m (home k) d = i ∧ ∀ e < d, (slot (pos m (home k) e)).isSome
  unique : ∀ {i j k}, i < m → j < m → slot i = some k → slot j = some k → i = j

/-- The number of slots in use. -/
def occupied (m : ℕ) (slot : ℕ → Option κ) : ℕ :=
  ((Finset.range m).filter fun i => (slot i).isSome).card

/-! ## Positions -/

theorem pos_lt {m : ℕ} (hm : 0 < m) (h d : ℕ) : pos m h d < m :=
  Nat.mod_lt _ hm

@[simp] theorem pos_zero (m h : ℕ) : pos m h 0 = h % m := rfl

@[simp] theorem pos_succ (m h d : ℕ) : (pos m h d + 1) % m = pos m h (d + 1) := by
  simp [pos, Nat.add_assoc]

theorem pos_inj {m h d e : ℕ} (hd : d < m) (he : e < m) (hp : pos m h d = pos m h e) :
    d = e := by
  have hmod : d ≡ e [MOD m] := Nat.ModEq.add_left_cancel' h hp
  exact Nat.ModEq.eq_of_lt_of_lt hmod hd he

/-! ## Slots in use -/

variable {slot : ℕ → Option κ}

theorem occupied_eq_zero {m : ℕ} (h : ∀ i < m, slot i = none) :
    occupied m slot = 0 := by
  simp only [occupied, Finset.card_eq_zero, Finset.filter_eq_empty_iff, Finset.mem_range]
  intro i hi
  simp [h i hi]

theorem run_le_occupied {m h n : ℕ} (hn : n ≤ m)
    (hrun : ∀ e < n, (slot (pos m h e)).isSome) : n ≤ occupied m slot := by
  have hmaps : ∀ e ∈ Finset.range n,
      pos m h e ∈ (Finset.range m).filter fun i => (slot i).isSome := by
    intro e he
    rw [Finset.mem_range] at he
    have hlt : pos m h e < m := pos_lt (by omega) h e
    simp [hlt, hrun e he]
  have hinj : Set.InjOn (pos m h) (Finset.range n : Set ℕ) := by
    intro d hd e he hp
    simp only [Finset.coe_range, Set.mem_Iio] at hd he
    exact pos_inj (by omega) (by omega) hp
  have hcard := Finset.card_le_card_of_injOn (pos m h) hmaps hinj
  simpa [occupied] using hcard

theorem occupied_update {m i : ℕ} (k : κ) (hi : i < m)
    (hfree : slot i = none) :
    occupied m (Function.update slot i (some k)) = occupied m slot + 1 := by
  have hset : ((Finset.range m).filter fun j => (Function.update slot i (some k) j).isSome)
      = insert i ((Finset.range m).filter fun j => (slot j).isSome) := by
    ext j
    by_cases hj : j = i
    · subst hj
      simp [hi]
    · simp [hj]
  rw [occupied, hset, Finset.card_insert_of_notMem (by simp [hfree])]
  rfl

/-! ## The walk -/

section search

variable [DecidableEq κ]

/-- Walk from position `i` for at most `n` steps. -/
def search (m : ℕ) (slot : ℕ → Option κ) (k : κ) : ℕ → ℕ → Outcome
  | 0, _ => .exhausted
  | n + 1, i =>
    match slot i with
    | none => .free i
    | some k' => if k' = k then .hit i else search m slot k n ((i + 1) % m)

variable {m : ℕ} {home : κ → ℕ} {slot : ℕ → Option κ} {k : κ}

theorem search_here {n i : ℕ} (h : slot i = some k) : search m slot k (n + 1) i = .hit i := by
  simp [search, h]

theorem search_stop {n i : ℕ} (h : slot i = none) : search m slot k (n + 1) i = .free i := by
  simp [search, h]

theorem search_next {n i : ℕ} {k' : κ} (h : slot i = some k') (hne : k' ≠ k) :
    search m slot k (n + 1) i = search m slot k n ((i + 1) % m) := by
  simp [search, h, hne]

theorem search_skip (h : ℕ) {d n : ℕ} (hdn : d ≤ n)
    (hother : ∀ e < d, ∃ k', slot (pos m h e) = some k' ∧ k' ≠ k) :
    search m slot k n (h % m) = search m slot k (n - d) (pos m h d) := by
  induction d with
  | zero => simp
  | succ d ih =>
    rw [ih (by omega) fun e he => hother e (by omega)]
    obtain ⟨k', hk', hne⟩ := hother d (by omega)
    obtain ⟨r, hr⟩ : ∃ r, n - d = r + 1 := ⟨n - d - 1, by omega⟩
    rw [hr, show n - (d + 1) = r by omega, search_next hk' hne, pos_succ]

/-- **A stored key is found.** -/
theorem Chained.search_hit (hc : Chained m home slot) {i n : ℕ} (hi : i < m)
    (hk : slot i = some k) (hn : occupied m slot ≤ n) :
    search m slot k n (home k % m) = .hit i := by
  obtain ⟨d, hd, hpos, hrun⟩ := hc.reach hi hk
  have hlast : ∀ e < d + 1, (slot (pos m (home k) e)).isSome := by
    intro e he
    rcases Nat.lt_succ_iff_lt_or_eq.mp he with he | rfl
    · exact hrun e he
    · simp [hpos, hk]
  have hdn : d + 1 ≤ n := (run_le_occupied hd hlast).trans hn
  have hother : ∀ e < d, ∃ k', slot (pos m (home k) e) = some k' ∧ k' ≠ k := by
    intro e he
    obtain ⟨k', hk'⟩ := Option.isSome_iff_exists.mp (hrun e he)
    refine ⟨k', hk', ?_⟩
    rintro rfl
    have hsame : pos m (home k') e = i := hc.unique (pos_lt (by omega) _ _) hi hk' hk
    have hed : e = d := pos_inj (by omega) hd (hsame.trans hpos.symm)
    omega
  rw [search_skip (home k) (by omega : d ≤ n) hother, hpos,
    show n - d = n - d - 1 + 1 by omega]
  exact search_here hk

/-- **The walk of an absent key ends at a free slot**, all slots before it in use. -/
theorem search_free {n : ℕ} (h : ℕ) (hnm : n ≤ m) (hn : occupied m slot < n)
    (habs : ∀ i < m, slot i ≠ some k) :
    ∃ d < m, slot (pos m h d) = none ∧ (∀ e < d, (slot (pos m h e)).isSome) ∧
      search m slot k n (h % m) = .free (pos m h d) := by
  have hex : ∃ d, d < n ∧ slot (pos m h d) = none := by
    by_contra hno
    push Not at hno
    have hfull : n ≤ occupied m slot := by
      refine run_le_occupied (h := h) hnm fun e he => ?_
      exact Option.isSome_iff_ne_none.mpr (hno e he)
    omega
  classical
  have hspec := Nat.find_spec hex
  have hmin : ∀ e < Nat.find hex, (slot (pos m h e)).isSome := by
    intro e he
    have hnot := Nat.find_min hex he
    by_contra hnone
    exact hnot ⟨by omega, by simpa using hnone⟩
  generalize Nat.find hex = d at hspec hmin
  obtain ⟨hd, hfree⟩ := hspec
  refine ⟨d, by omega, hfree, hmin, ?_⟩
  have hother : ∀ e < d, ∃ k', slot (pos m h e) = some k' ∧ k' ≠ k := by
    intro e he
    obtain ⟨k', hk'⟩ := Option.isSome_iff_exists.mp (hmin e he)
    refine ⟨k', hk', ?_⟩
    rintro rfl
    exact habs _ (pos_lt (by omega) h e) hk'
  rw [search_skip h (by omega : d ≤ n) hother, show n - d = n - d - 1 + 1 by omega]
  exact search_stop hfree

end search

/-! ## Keeping the table chained -/

theorem chained_empty {m : ℕ} {home : κ → ℕ} {slot : ℕ → Option κ}
    (h : ∀ i < m, slot i = none) : Chained m home slot where
  reach hi hk := by simp [h _ hi] at hk
  unique hi _ hk := by simp [h _ hi] at hk

/-- **Writing an absent key at the end of its own walk keeps the table chained.** -/
theorem Chained.claim {m : ℕ} {home : κ → ℕ} {slot : ℕ → Option κ} {k : κ} {d : ℕ}
    (hc : Chained m home slot) (hd : d < m) (hrun : ∀ e < d, (slot (pos m (home k) e)).isSome)
    (habs : ∀ i < m, slot i ≠ some k) :
    Chained m home (Function.update slot (pos m (home k) d) (some k)) := by
  have hmono : ∀ j, (slot j).isSome →
      (Function.update slot (pos m (home k) d) (some k) j).isSome := by
    intro j hj
    by_cases hji : j = pos m (home k) d
    · simp [hji]
    · simpa [Function.update_of_ne hji] using hj
  constructor
  · intro i k' hi hk'
    by_cases hid : i = pos m (home k) d
    · subst hid
      simp only [Function.update_self, Option.some.injEq] at hk'
      subst hk'
      exact ⟨d, hd, rfl, fun e he => hmono _ (hrun e he)⟩
    · rw [Function.update_of_ne hid] at hk'
      obtain ⟨d', hd', hpos, hrun'⟩ := hc.reach hi hk'
      exact ⟨d', hd', hpos, fun e he => hmono _ (hrun' e he)⟩
  · intro i j k' hi hj hik hjk
    by_cases hid : i = pos m (home k) d <;> by_cases hjd : j = pos m (home k) d
    · rw [hid, hjd]
    · rw [hid, Function.update_self] at hik
      rw [Function.update_of_ne hjd, ← hik] at hjk
      exact absurd hjk (habs j hj)
    · rw [hjd, Function.update_self] at hjk
      rw [Function.update_of_ne hid, ← hjk] at hik
      exact absurd hik (habs i hi)
    · rw [Function.update_of_ne hid] at hik
      rw [Function.update_of_ne hjd] at hjk
      exact hc.unique hi hj hik hjk

end N00b.Probing
