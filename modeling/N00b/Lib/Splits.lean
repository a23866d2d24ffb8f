import Mathlib

/-!
# Splitting at a separator

A list that is cut at the leftmost occurrence of a separator, and what is behind it again.

## Main results

* `IsSplit.intercalate`: what is joined again is the list.
* `IsSplit.unique`: there is one way to split.
-/

namespace N00b.Lib

variable {α : Type*} {sep l : List α} {pieces pieces' : List (List α)}

/-- The pieces of a list between leftmost occurrences of a separator. -/
inductive IsSplit (sep : List α) : List α → List (List α) → Prop where
  | last {l : List α} (hnone : ∀ i, ¬ sep <+: l.drop i) : IsSplit sep l [l]
  | cut {piece rest : List α} {pieces : List (List α)}
      (hleft : ∀ i < piece.length, ¬ sep <+: (piece ++ (sep ++ rest)).drop i)
      (hrest : IsSplit sep rest pieces) : IsSplit sep (piece ++ (sep ++ rest)) (piece :: pieces)

theorem IsSplit.ne_nil (h : IsSplit sep l pieces) : pieces ≠ [] := by
  cases h with
  | last _ | cut _ _ => exact List.cons_ne_nil _ _

/-- **The pieces, joined again,** are the list. -/
theorem IsSplit.intercalate (h : IsSplit sep l pieces) : sep.intercalate pieces = l := by
  induction h with
  | last _ => exact List.intercalate_singleton
  | cut _ hrest ih =>
    rw [List.intercalate_cons_of_ne_nil hrest.ne_nil, ih, List.append_assoc]

theorem cut_inj {p q r s : List α} (h : p ++ (sep ++ r) = q ++ (sep ++ s))
    (hp : ∀ i < p.length, ¬ sep <+: (p ++ (sep ++ r)).drop i)
    (hq : ∀ i < q.length, ¬ sep <+: (q ++ (sep ++ s)).drop i) : p = q ∧ r = s := by
  have hlength : p.length = q.length := by
    by_contra hne
    rcases Nat.lt_or_gt_of_ne hne with hlt | hlt
    · refine hq p.length hlt ?_
      rw [← h, List.drop_left]
      exact List.prefix_append _ _
    · refine hp q.length hlt ?_
      rw [h, List.drop_left]
      exact List.prefix_append _ _
  obtain ⟨hpq, hrs⟩ := List.append_inj h hlength
  exact ⟨hpq, List.append_cancel_left hrs⟩

/-- **There is one way to split.** -/
theorem IsSplit.unique (h : IsSplit sep l pieces) (h' : IsSplit sep l pieces') :
    pieces = pieces' := by
  induction h generalizing pieces' with
  | last hnone =>
    cases h' with
    | last _ => rfl
    | @cut piece rest =>
      refine absurd ?_ (hnone piece.length)
      rw [List.drop_left]
      exact List.prefix_append _ _
  | @cut piece rest pieces hleft hrest ih =>
    generalize hl : piece ++ (sep ++ rest) = l at h'
    cases h' with
    | last hnone =>
      refine absurd ?_ (hnone piece.length)
      rw [← hl, List.drop_left]
      exact List.prefix_append _ _
    | cut hleft' hrest' =>
      obtain ⟨rfl, rfl⟩ := cut_inj hl hleft hleft'
      rw [ih hrest']

end N00b.Lib
