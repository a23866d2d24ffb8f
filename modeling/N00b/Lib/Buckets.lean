import N00b.Lib.Probing

/-!
# Tables of buckets

A table of buckets, each with at most one key, whose keys are found by linear probing. What the
table holds is a function from keys to buckets, and the two ways to write a bucket, under the key it
has or at the end of the walk of an absent key, update that function at one key.

## Main results

- `Buckets.search_hit`, `Buckets.search_free`: what the walk finds.
- `Buckets.replace`, `Buckets.insert`: what a write does.
- `Buckets.entries_spec`: the entries of a table.
- `foldl_insert`: writing a list of keys one after another.
-/

namespace N00b.Probing

variable {κ β : Type}

/-- The keys of the buckets. -/
def slots (key : β → Option κ) (L : List β) (i : ℕ) : Option κ := L[i]?.bind key

/-- A table of `m` buckets, with its keys where the walk finds them. -/
structure Buckets (key : β → Option κ) (home : κ → ℕ) (m : ℕ) (L : List β) : Prop where
  length : L.length = m
  chained : Chained m home (slots key L)

variable {key : β → Option κ} {home : κ → ℕ} {m : ℕ} {L : List β} {k : κ} {b : β}

/-! ## Keys -/

theorem slots_eq_some {i : ℕ} : slots key L i = some k ↔ ∃ b, L[i]? = some b ∧ key b = some k := by
  simp [slots, Option.bind_eq_some_iff]

theorem slots_set {i : ℕ} (hi : i < L.length) :
    slots key (L.set i b) = Function.update (slots key L) i (key b) := by
  funext j
  by_cases hj : j = i
  · subst hj
    simp [slots, hi]
  · simp [slots, Function.update_of_ne hj, Ne.symm hj]

theorem Buckets.lt (hL : Buckets key home m L) {i : ℕ} (h : slots key L i = some k) : i < m := by
  obtain ⟨b, hb, _⟩ := slots_eq_some.mp h
  obtain ⟨hi, _⟩ := List.getElem?_eq_some_iff.mp hb
  rw [← hL.length]
  exact hi

theorem Buckets.unique (hL : Buckets key home m L) {i j : ℕ} (hi : slots key L i = some k)
    (hj : slots key L j = some k) : i = j :=
  hL.chained.unique (hL.lt hi) (hL.lt hj) hi hj

/-! ## The bucket of a key -/

section bucketOf

variable [DecidableEq κ]

def bucketOf (key : β → Option κ) (L : List β) (k : κ) : Option β :=
  L.find? fun b => decide (key b = some k)

theorem exists_slot (h : bucketOf key L k = some b) :
    ∃ i : ℕ, L[i]? = some b ∧ key b = some k := by
  have hk : key b = some k := by simpa using List.find?_some h
  obtain ⟨i, hi⟩ := List.mem_iff_getElem?.mp (List.mem_of_find?_eq_some h)
  exact ⟨i, hi, hk⟩

theorem bucketOf_eq_none : bucketOf key L k = none ↔ ∀ i, slots key L i ≠ some k := by
  simp only [bucketOf, List.find?_eq_none, decide_eq_true_eq]
  constructor
  · intro h i hs
    obtain ⟨b, hb, hk⟩ := slots_eq_some.mp hs
    exact h b (List.mem_of_getElem? hb) hk
  · intro h b hb hk
    obtain ⟨i, hi⟩ := List.mem_iff_getElem?.mp hb
    exact h i (slots_eq_some.mpr ⟨b, hi, hk⟩)

theorem Buckets.bucketOf_eq (hL : Buckets key home m L) {i : ℕ} (hi : L[i]? = some b)
    (hk : key b = some k) : bucketOf key L k = some b := by
  have hs : slots key L i = some k := slots_eq_some.mpr ⟨b, hi, hk⟩
  cases hb : bucketOf key L k with
  | none => exact absurd hs (bucketOf_eq_none.mp hb i)
  | some b' =>
    obtain ⟨j, hj, hk'⟩ := exists_slot hb
    obtain rfl : i = j := hL.unique hs (slots_eq_some.mpr ⟨b', hj, hk'⟩)
    rw [hi] at hj
    exact hj.symm

theorem Buckets.bucketOf_iff (hL : Buckets key home m L) :
    bucketOf key L k = some b ↔ b ∈ L ∧ key b = some k := by
  constructor
  · intro h
    obtain ⟨i, hi, hk⟩ := exists_slot h
    exact ⟨List.mem_of_getElem? hi, hk⟩
  · rintro ⟨hb, hk⟩
    obtain ⟨i, hi⟩ := List.mem_iff_getElem?.mp hb
    exact hL.bucketOf_eq hi hk

/-! ### Empty tables -/

theorem bucketOf_replicate {e : β} (he : key e = none) (n : ℕ) (k : κ) :
    bucketOf key (List.replicate n e) k = none := by
  simp only [bucketOf, List.find?_eq_none, decide_eq_true_eq]
  intro b hb hk
  rw [List.eq_of_mem_replicate hb, he] at hk
  cases hk

omit [DecidableEq κ] in
theorem slots_replicate {e : β} (he : key e = none) (n i : ℕ) :
    slots key (List.replicate n e) i = none := by
  rw [slots, List.getElem?_replicate]
  split
  · exact he
  · rfl

omit [DecidableEq κ] in
theorem buckets_replicate (home : κ → ℕ) {e : β} (he : key e = none) (m : ℕ) :
    Buckets key home m (List.replicate m e) :=
  ⟨List.length_replicate, chained_empty fun i _ => slots_replicate he m i⟩

omit [DecidableEq κ] in
theorem occupied_replicate {e : β} (he : key e = none) (m n : ℕ) :
    occupied m (slots key (List.replicate n e)) = 0 :=
  occupied_eq_zero fun i _ => slots_replicate he n i

/-! ### Walks and writes -/

/-- **The walk finds the bucket of a key.** -/
theorem Buckets.search_hit (hL : Buckets key home m L) (h : bucketOf key L k = some b) :
    ∃ i < m, L[i]? = some b ∧ key b = some k ∧ ∀ n, occupied m (slots key L) ≤ n →
      search m (slots key L) k n (home k % m) = .hit i := by
  obtain ⟨i, hi, hk⟩ := exists_slot h
  have hs : slots key L i = some k := slots_eq_some.mpr ⟨b, hi, hk⟩
  exact ⟨i, hL.lt hs, hi, hk, fun n hn => hL.chained.search_hit (hL.lt hs) hs hn⟩

theorem Buckets.bucketOf_set (hL : Buckets key home m L) {i : ℕ}
    (hset : Buckets key home m (L.set i b)) (hi : i < m) (hk : key b = some k)
    (hold : slots key L i = none ∨ slots key L i = some k) (k' : κ) :
    bucketOf key (L.set i b) k' = if k' = k then some b else bucketOf key L k' := by
  have hlen : i < L.length := by rw [hL.length]; exact hi
  have hself : (L.set i b)[i]? = some b := by simp [hlen]
  split
  · rename_i hsame
    rw [hsame]
    exact hset.bucketOf_eq hself hk
  · rename_i hother
    cases hb : bucketOf key L k' with
    | none =>
      rw [bucketOf_eq_none] at hb ⊢
      intro j
      rw [slots_set hlen]
      by_cases hji : j = i
      · rw [hji, Function.update_self, hk]
        exact fun heq => hother (Option.some.inj heq).symm
      · rw [Function.update_of_ne hji]
        exact hb j
    | some b' =>
      obtain ⟨j, hj, hk'⟩ := exists_slot hb
      have hji : i ≠ j := by
        rintro rfl
        rw [slots_eq_some.mpr ⟨b', hj, hk'⟩] at hold
        rcases hold with hold | hold
        · cases hold
        · exact hother (Option.some.inj hold)
      refine hset.bucketOf_eq (i := j) ?_ hk'
      rw [List.getElem?_set_ne hji, hj]

/-- **A bucket is written under the key it has.** -/
theorem Buckets.replace (hL : Buckets key home m L) {i : ℕ} (hi : slots key L i = some k)
    (hk : key b = some k) :
    Buckets key home m (L.set i b) ∧ slots key (L.set i b) = slots key L ∧
      ∀ k', bucketOf key (L.set i b) k' = if k' = k then some b else bucketOf key L k' := by
  have him := hL.lt hi
  have hsame : slots key (L.set i b) = slots key L := by
    rw [slots_set (by rw [hL.length]; exact him), hk, ← hi, Function.update_eq_self]
  have hset : Buckets key home m (L.set i b) :=
    ⟨by rw [List.length_set, hL.length], by rw [hsame]; exact hL.chained⟩
  exact ⟨hset, hsame, hL.bucketOf_set hset him hk (.inr hi)⟩

/-- **An absent key is written at the end of its walk.** -/
theorem Buckets.insert (hL : Buckets key home m L) (habs : bucketOf key L k = none) {d : ℕ}
    (hd : d < m) (hrun : ∀ e < d, (slots key L (pos m (home k) e)).isSome)
    (hfree : slots key L (pos m (home k) d) = none) (hk : key b = some k) :
    Buckets key home m (L.set (pos m (home k) d) b) ∧
      occupied m (slots key (L.set (pos m (home k) d) b)) = occupied m (slots key L) + 1 ∧
      ∀ k', bucketOf key (L.set (pos m (home k) d) b) k' =
        if k' = k then some b else bucketOf key L k' := by
  have hlt : pos m (home k) d < m := pos_lt (by omega) _ _
  have hno : ∀ i < m, slots key L i ≠ some k := fun i _ => bucketOf_eq_none.mp habs i
  have hslots : slots key (L.set (pos m (home k) d) b) =
      Function.update (slots key L) (pos m (home k) d) (some k) := by
    rw [slots_set (by rw [hL.length]; exact hlt), hk]
  have hset : Buckets key home m (L.set (pos m (home k) d) b) :=
    ⟨by rw [List.length_set, hL.length], by rw [hslots]; exact hL.chained.claim hd hrun hno⟩
  refine ⟨hset, ?_, hL.bucketOf_set hset hlt hk (.inl hfree)⟩
  rw [hslots, occupied_update k hlt hfree]

/-- **The walk of an absent key ends where it can be written.** -/
theorem Buckets.search_free (_ : Buckets key home m L) (habs : bucketOf key L k = none) {n : ℕ}
    (hn : occupied m (slots key L) < n) (hnm : n ≤ m) :
    ∃ d < m, slots key L (pos m (home k) d) = none ∧
      (∀ e < d, (slots key L (pos m (home k) e)).isSome) ∧
      search m (slots key L) k n (home k % m) = .free (pos m (home k) d) :=
  Probing.search_free (home k) hnm hn fun i _ => bucketOf_eq_none.mp habs i

/-- **The entries of a table**, when every entry shows its key: each key has at most one, the one
its bucket has. -/
theorem Buckets.entries_spec (hL : Buckets key home m L) {γ : Type} (f : β → Option γ) (g : γ → κ)
    (hfg : ∀ b ∈ L, ∀ c, f b = some c → key b = some (g c)) :
    ((L.filterMap f).map g).Nodup ∧
      ∀ c, c ∈ L.filterMap f ↔ (bucketOf key L (g c)).bind f = some c := by
  constructor
  · rw [List.Nodup, List.pairwise_map, List.pairwise_filterMap, List.pairwise_iff_getElem]
    intro i j hi hj hij c hc c' hc' hsame
    have hkc : slots key L i = some (g c) :=
      slots_eq_some.mpr ⟨_, List.getElem?_eq_getElem hi, hfg _ (List.getElem_mem hi) _ hc⟩
    have hkc' : slots key L j = some (g c) := by
      rw [hsame]
      exact slots_eq_some.mpr ⟨_, List.getElem?_eq_getElem hj, hfg _ (List.getElem_mem hj) _ hc'⟩
    exact absurd (hL.unique hkc hkc') (by omega)
  · intro c
    rw [List.mem_filterMap, Option.bind_eq_some_iff]
    constructor
    · rintro ⟨b, hb, hf⟩
      exact ⟨b, hL.bucketOf_iff.mpr ⟨hb, hfg b hb c hf⟩, hf⟩
    · rintro ⟨b, hb, hf⟩
      exact ⟨b, (hL.bucketOf_iff.mp hb).1, hf⟩

end bucketOf

/-! ## Writing many keys -/

/-- **Keys written one after another** into a store with room: what the store holds afterwards does
not depend on their order. -/
theorem foldl_insert [DecidableEq κ] {σ ν γ : Type} (Inv : σ → Prop) (count : σ → ℕ)
    (look : σ → κ → Option ν) (write : σ → γ → σ) (entry : γ → Option (κ × ν)) (cap : ℕ)
    (cs : List γ) (hskip : ∀ c ∈ cs, entry c = none → ∀ s, write s c = s)
    (hwrite : ∀ c ∈ cs, ∀ k v, entry c = some (k, v) → ∀ s, Inv s → count s < cap →
      look s k = none → Inv (write s c) ∧ count (write s c) = count s + 1 ∧
        ∀ k', look (write s c) k' = if k' = k then some v else look s k')
    {s : σ} (hs : Inv s) (hnodup : ((cs.filterMap entry).map Prod.fst).Nodup)
    (hnew : ∀ e ∈ cs.filterMap entry, look s e.1 = none)
    (hroom : count s + (cs.filterMap entry).length ≤ cap) :
    Inv (cs.foldl write s) ∧ count (cs.foldl write s) = count s + (cs.filterMap entry).length ∧
      (∀ e ∈ cs.filterMap entry, look (cs.foldl write s) e.1 = some e.2) ∧
      ∀ k, k ∉ (cs.filterMap entry).map Prod.fst → look (cs.foldl write s) k = look s k := by
  induction cs generalizing s with
  | nil => exact ⟨hs, rfl, by simp, fun _ _ => rfl⟩
  | cons c cs ih =>
    rw [List.foldl_cons]
    have ih := @ih (fun c' hc' => hskip c' (List.mem_cons_of_mem _ hc'))
      fun c' hc' => hwrite c' (List.mem_cons_of_mem _ hc')
    cases hc : entry c with
    | none =>
      rw [List.filterMap_cons_none hc] at hnodup hnew hroom ⊢
      rw [hskip c List.mem_cons_self hc]
      exact ih hs hnodup hnew hroom
    | some e =>
      obtain ⟨k, v⟩ := e
      rw [List.filterMap_cons_some hc] at hnodup hnew hroom ⊢
      rw [List.map_cons, List.nodup_cons] at hnodup
      rw [List.length_cons] at hroom ⊢
      obtain ⟨hinv, hcount, hlook⟩ := hwrite c List.mem_cons_self k v hc s hs (by omega)
        (hnew (k, v) List.mem_cons_self)
      have hother : ∀ e ∈ cs.filterMap entry, e.1 ≠ k := by
        rintro e he rfl
        exact hnodup.1 (List.mem_map.mpr ⟨e, he, rfl⟩)
      have hnew' : ∀ e ∈ cs.filterMap entry, look (write s c) e.1 = none := by
        intro e he
        rw [hlook, if_neg (hother e he)]
        exact hnew e (List.mem_cons_of_mem _ he)
      obtain ⟨hinv', hcount', hin, hout⟩ := ih hinv hnodup.2 hnew' (by omega)
      refine ⟨hinv', by omega, fun e he => ?_, fun k' hk' => ?_⟩
      · rcases List.mem_cons.mp he with rfl | he
        · rw [hout k hnodup.1, hlook, if_pos rfl]
        · exact hin e he
      · rw [List.map_cons, List.mem_cons, not_or] at hk'
        rw [hout k' hk'.2, hlook, if_neg hk'.1]

end N00b.Probing
