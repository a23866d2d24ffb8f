import N00b.Lib.Probing

/-!
# Neighborhood maps

A cache for the walks of a chained table. For every position the map of the position marks some of
the first `width` distances from there. A key that stands at one of them is marked at its home, and
up to a marked distance no slot is free. Then a walk can look at the marked slots only, and go on
from the last of them: what it skips is in use, by other keys.

A distance that is too large is marked modulo the width. This marks a distance where the key does
not stand, but one that the walk has passed.

## Main results

- `Neighborhood.search_past`: the walk goes on from a marked distance.
- `Neighborhood.mark`, `Neighborhood.claim`: marking distances, and writing a key.
-/

namespace N00b.Probing

variable {κ : Type} {m width : ℕ} {home : κ → ℕ} {slot : ℕ → Option κ} {near : ℕ → ℕ → Prop}

/-- The marked distances of every position are a cache for the walks from there. -/
structure Neighborhood (m width : ℕ) (home : κ → ℕ) (slot : ℕ → Option κ)
    (near : ℕ → ℕ → Prop) : Prop where
  complete : ∀ {k d}, d < m → d < width → slot (pos m (home k) d) = some k →
    near (home k % m) d
  dense : ∀ {h p}, near h p → ∀ e ≤ p, (slot (pos m h e)).isSome

@[simp] theorem pos_mod (m h d : ℕ) : pos m (h % m) d = pos m h d := by
  simp [pos]

theorem Neighborhood.marked_lt (hN : Neighborhood m width home slot near) {h p : ℕ}
    (hroom : occupied m slot < m) (hp : near h p) : p + 1 ≤ occupied m slot := by
  by_contra hlarge
  have hrun : ∀ e < occupied m slot + 1, (slot (pos m h e)).isSome :=
    fun e he => hN.dense hp e (by omega)
  have hle := run_le_occupied (by omega) hrun
  omega

/-- **A walk that has looked at the marked slots goes on from the last of them.** -/
theorem Neighborhood.search_past [DecidableEq κ] (hN : Neighborhood m width home slot near) {k : κ}
    {n q : ℕ} (hroom : occupied m slot < m) (hn : occupied m slot ≤ n) (hq : q ≤ width)
    (hlast : q = 0 ∨ ∃ p, q = p + 1 ∧ near (home k % m) p)
    (hno : ∀ p, near (home k % m) p → slot (pos m (home k) p) ≠ some k) :
    q ≤ n ∧ search m slot k n (home k % m) = search m slot k (n - q) (pos m (home k) q) := by
  rcases hlast with rfl | ⟨p, rfl, hp⟩
  · exact ⟨Nat.zero_le n, by simp⟩
  · have hle := hN.marked_lt hroom hp
    refine ⟨hle.trans hn, search_skip (home k) (hle.trans hn) fun e he => ?_⟩
    have hin : (slot (pos m (home k) e)).isSome := by
      have hsome := hN.dense hp e (by omega)
      rwa [pos_mod] at hsome
    obtain ⟨k', hk'⟩ := Option.isSome_iff_exists.mp hin
    refine ⟨k', hk', ?_⟩
    rintro rfl
    -- the key would be marked, and found
    exact hno e (hN.complete (by omega) (by omega) hk') hk'

theorem neighborhood_empty (hslot : ∀ i, slot i = none) (hnear : ∀ h p, ¬ near h p) :
    Neighborhood m width home slot near where
  complete _ _ hk := by simp [hslot] at hk
  dense hp := absurd hp (hnear _ _)

/-- **A distance is marked that a walk has passed**, or one below it. -/
theorem Neighborhood.mark (hN : Neighborhood m width home slot near) {h i : ℕ}
    (hrun : ∀ e ≤ i, (slot (pos m h e)).isSome) {near' : ℕ → ℕ → Prop}
    (hnear : ∀ h' p, near' h' p ↔ near h' p ∨ h' = h ∧ p = i % width) :
    Neighborhood m width home slot near' where
  complete hd hw hk := (hnear _ _).mpr (.inl (hN.complete hd hw hk))
  dense {h' p} hp e he := by
    rcases (hnear h' p).mp hp with hp | ⟨rfl, rfl⟩
    · exact hN.dense hp e he
    · exact hrun e (he.trans (Nat.mod_le i width))

theorem isSome_update {i j : ℕ} {k : κ} (h : (slot i).isSome) :
    (Function.update slot j (some k) i).isSome := by
  by_cases hij : i = j
  · simp [hij]
  · simpa [Function.update_of_ne hij] using h

/-- **A key is written at the end of its walk, and its distance is marked.** -/
theorem Neighborhood.claim (hN : Neighborhood m width home slot near) {k : κ} {d : ℕ} (hd : d < m)
    (hrun : ∀ e < d, (slot (pos m (home k) e)).isSome) {near' : ℕ → ℕ → Prop}
    (hnear : ∀ h p, near' h p ↔ near h p ∨ h = home k % m ∧ p = d % width) :
    Neighborhood m width home (Function.update slot (pos m (home k) d) (some k)) near' := by
  constructor
  · intro k' d' hd' hw hk'
    rw [hnear]
    by_cases hpos : pos m (home k') d' = pos m (home k) d
    · rw [hpos, Function.update_self, Option.some.injEq] at hk'
      subst hk'
      obtain rfl := pos_inj hd' hd hpos
      exact .inr ⟨rfl, (Nat.mod_eq_of_lt hw).symm⟩
    · rw [Function.update_of_ne hpos] at hk'
      exact .inl (hN.complete hd' hw hk')
  · intro h p hp e he
    rcases (hnear h p).mp hp with hp | ⟨rfl, rfl⟩
    · exact isSome_update (hN.dense hp e he)
    · rw [pos_mod]
      rcases Nat.lt_or_eq_of_le (he.trans (Nat.mod_le d width)) with hlt | rfl
      · exact isSome_update (hrun e hlt)
      · simp

/-- **A key is written at a distance that no map reaches**, and nothing is marked. -/
theorem Neighborhood.claim_far (hN : Neighborhood m width home slot near) {k : κ} {d : ℕ}
    (hd : d < m) (hfar : width ≤ d) :
    Neighborhood m width home (Function.update slot (pos m (home k) d) (some k)) near where
  complete {k' d'} hd' hw hk' := by
    by_cases hpos : pos m (home k') d' = pos m (home k) d
    · rw [hpos, Function.update_self, Option.some.injEq] at hk'
      subst hk'
      obtain rfl := pos_inj hd' hd hpos
      omega
    · rw [Function.update_of_ne hpos] at hk'
      exact hN.complete hd' hw hk'
  dense hp e he := isSome_update (hN.dense hp e he)

end N00b.Probing
