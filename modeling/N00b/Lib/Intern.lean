import Mathlib

/-!
# Interning

An interning table gives each key an index when it first sees it and the same index from then on.
Here the table is the list of the keys in the order of their first occurrence: `grow pool keys` is
the table after a sequence of requests, and the answer to a request is the index of its key.

## Rules

* `idxOf_grow`: an index that was given stays.
* `length_grow_nil`: the table has one entry for each different key.
* `card_le_of_factors`: a sequence whose entries are determined by those of another has at most as
  many different entries.
-/

namespace N00b.Lib

variable {α β : Type} [DecidableEq α] [DecidableEq β]

/-- The table after one request. -/
def intern (pool : List α) (a : α) : List α :=
  if a ∈ pool then pool else pool ++ [a]

/-- The table after a sequence of requests. -/
def grow (pool : List α) (keys : List α) : List α :=
  keys.foldl intern pool

@[simp] theorem grow_nil (pool : List α) : grow pool [] = pool := rfl

@[simp] theorem grow_cons (pool : List α) (a : α) (keys : List α) :
    grow pool (a :: keys) = grow (intern pool a) keys := rfl

variable {pool : List α}

theorem intern_of_mem {a : α} (h : a ∈ pool) : intern pool a = pool :=
  if_pos h

theorem intern_of_notMem {a : α} (h : a ∉ pool) : intern pool a = pool ++ [a] :=
  if_neg h

theorem mem_intern {a b : α} : b ∈ intern pool a ↔ b ∈ pool ∨ b = a := by
  unfold intern
  split
  next h => exact ⟨Or.inl, fun hb => hb.elim id (fun hba => hba ▸ h)⟩
  next h => simp

theorem mem_grow {b : α} :
    ∀ {keys : List α}, b ∈ grow pool keys ↔ b ∈ pool ∨ b ∈ keys := by
  intro keys
  induction keys generalizing pool with
  | nil => simp
  | cons a keys ih => rw [grow_cons, ih, mem_intern, List.mem_cons, or_assoc]

theorem nodup_intern (h : pool.Nodup) (a : α) : (intern pool a).Nodup := by
  unfold intern
  split
  next => exact h
  next ha => exact List.nodup_append.mpr ⟨h, List.nodup_singleton a, by
    rintro b hb c hc rfl
    exact ha (List.mem_singleton.mp hc ▸ hb)⟩

theorem nodup_grow (h : pool.Nodup) (keys : List α) : (grow pool keys).Nodup := by
  induction keys generalizing pool with
  | nil => exact h
  | cons a keys ih => exact ih (nodup_intern h a)

theorem prefix_grow (pool keys : List α) : pool <+: grow pool keys := by
  induction keys generalizing pool with
  | nil => exact List.prefix_rfl
  | cons a keys ih =>
    refine List.IsPrefix.trans ?_ (ih (intern pool a))
    unfold intern
    split
    · exact List.prefix_rfl
    · exact List.prefix_append pool [a]

theorem idxOf_grow {a : α} (h : a ∈ pool) (keys : List α) :
    (grow pool keys).idxOf a = pool.idxOf a := by
  obtain ⟨tail, htail⟩ := prefix_grow pool keys
  rw [← htail, List.idxOf_append_of_mem h]

theorem length_grow_nil (keys : List α) : (grow [] keys).length = keys.toFinset.card := by
  have hnodup : (grow [] keys).Nodup := nodup_grow List.nodup_nil keys
  rw [← List.toFinset_card_of_nodup hnodup]
  congr 1
  ext b
  rw [List.mem_toFinset, List.mem_toFinset, mem_grow]
  simp

theorem card_le_of_factors {xs : List α} {ys : List β} (hlen : ys.length = xs.length)
    (h : ∀ i j (hi : i < xs.length) (hj : j < xs.length),
      xs[i] = xs[j] → ys[i] = ys[j]) :
    ys.toFinset.card ≤ xs.toFinset.card := by
  have hsub : ys.toFinset ⊆ (xs.toFinset.image fun a => (ys[xs.idxOf a]?)).biUnion
      fun o => o.toFinset := by
    intro b hb
    obtain ⟨i, hi, rfl⟩ := List.getElem_of_mem (List.mem_toFinset.mp hb)
    have hi' : i < xs.length := hlen ▸ hi
    have hidx : xs.idxOf xs[i] < xs.length := List.idxOf_lt_length_of_mem (List.getElem_mem hi')
    have heq : ys[xs.idxOf xs[i]] = ys[i] := h _ _ hidx hi' (List.getElem_idxOf hidx)
    refine Finset.mem_biUnion.mpr ⟨some ys[i], ?_, by simp⟩
    refine Finset.mem_image.mpr ⟨xs[i], List.mem_toFinset.mpr (List.getElem_mem hi'), ?_⟩
    rw [List.getElem?_eq_getElem (hlen ▸ hidx), heq]
  calc ys.toFinset.card
      ≤ _ := Finset.card_le_card hsub
    _ ≤ (xs.toFinset.image fun a => (ys[xs.idxOf a]?)).card * 1 := by
        refine Finset.card_biUnion_le_card_mul _ _ 1 fun o _ => ?_
        cases o <;> simp
    _ ≤ xs.toFinset.card := by
        rw [Nat.mul_one]
        exact Finset.card_image_le

end N00b.Lib
