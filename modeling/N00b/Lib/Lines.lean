import Mathlib.Data.List.Basic

/-!
# Lists cut behind a terminator

`splitAfter t` cuts a list behind each `t`. What comes after the last `t` is the open part.

## Main results

* `splitAfter_append`: cutting a list that came in two parts.
* `splitAfter_unique`: there is one way to cut a list.
-/

namespace N00b.Lib

variable {α : Type}

/-- A part that `t` ends, and only at its end. -/
def EndsIn (t : α) (line : List α) : Prop := ∃ body, line = body ++ [t] ∧ t ∉ body

theorem EndsIn.cons {t x : α} {line : List α} (h : EndsIn t line) (hx : x ≠ t) :
    EndsIn t (x :: line) := by
  obtain ⟨body, rfl, hbody⟩ := h
  refine ⟨x :: body, rfl, ?_⟩
  rw [List.mem_cons, not_or]
  exact ⟨Ne.symm hx, hbody⟩

variable [DecidableEq α]

/-- Everything up to and with a `t`, and what is open at the end. -/
def splitAfter (t : α) : List α → List (List α) × List α
  | [] => ([], [])
  | x :: xs =>
    let r := splitAfter t xs
    if x = t then ([x] :: r.1, r.2)
    else
      match r.1 with
      | [] => ([], x :: r.2)
      | line :: lines => ((x :: line) :: lines, r.2)

variable (t : α)

theorem splitAfter_of_not_mem {xs : List α} (h : t ∉ xs) : splitAfter t xs = ([], xs) := by
  induction xs with
  | nil => rfl
  | cons x xs ih =>
    rw [List.mem_cons, not_or] at h
    simp only [splitAfter, ih h.2, if_neg (Ne.symm h.1)]

theorem splitAfter_line {body : List α} (h : t ∉ body) (xs : List α) :
    splitAfter t (body ++ t :: xs) =
      ((body ++ [t]) :: (splitAfter t xs).1, (splitAfter t xs).2) := by
  induction body with
  | nil => simp only [List.nil_append, splitAfter, if_true]
  | cons b body ih =>
    rw [List.mem_cons, not_or] at h
    simp only [List.cons_append, splitAfter, ih h.2, if_neg (Ne.symm h.1)]

theorem split_first (xs : List α) :
    t ∉ xs ∨ ∃ body rest, xs = body ++ t :: rest ∧ t ∉ body := by
  induction xs with
  | nil => exact Or.inl List.not_mem_nil
  | cons x xs ih =>
    by_cases hx : x = t
    · exact Or.inr ⟨[], xs, by rw [hx]; rfl, List.not_mem_nil⟩
    · rcases ih with hxs | ⟨body, rest, rfl, hbody⟩
      · left
        rw [List.mem_cons, not_or]
        exact ⟨Ne.symm hx, hxs⟩
      · right
        refine ⟨x :: body, rest, rfl, ?_⟩
        rw [List.mem_cons, not_or]
        exact ⟨Ne.symm hx, hbody⟩

theorem splitAfter_flatten (xs : List α) :
    (splitAfter t xs).1.flatten ++ (splitAfter t xs).2 = xs := by
  induction xs with
  | nil => rfl
  | cons x xs ih =>
    unfold splitAfter
    dsimp only
    split
    · rw [List.flatten_cons, List.append_assoc, ih]
      rfl
    · cases hlines : (splitAfter t xs).1 with
      | nil | cons line lines =>
        rw [hlines] at ih
        exact congrArg (x :: ·) ih

theorem not_mem_splitAfter (xs : List α) : t ∉ (splitAfter t xs).2 := by
  induction xs with
  | nil => exact List.not_mem_nil
  | cons x xs ih =>
    unfold splitAfter
    dsimp only
    split
    · exact ih
    next hx =>
      cases hlines : (splitAfter t xs).1 with
      | nil =>
        rw [List.mem_cons, not_or]
        exact ⟨Ne.symm hx, ih⟩
      | cons line lines => exact ih

/-- **There is one way to cut a list.** -/
theorem splitAfter_unique {lines : List (List α)} {pending : List α}
    (hlines : ∀ line ∈ lines, EndsIn t line) (hpending : t ∉ pending) :
    splitAfter t (lines.flatten ++ pending) = (lines, pending) := by
  induction lines with
  | nil => exact splitAfter_of_not_mem t hpending
  | cons line lines ih =>
    obtain ⟨body, rfl, hbody⟩ := hlines line List.mem_cons_self
    have hrest := ih fun line' h => hlines line' (List.mem_cons_of_mem _ h)
    rw [List.flatten_cons, List.append_assoc, List.append_assoc, List.singleton_append,
      splitAfter_line t hbody, hrest]

theorem splitAfter_endsIn (xs : List α) : ∀ line ∈ (splitAfter t xs).1, EndsIn t line := by
  induction xs with
  | nil => exact fun _ hmem => absurd hmem List.not_mem_nil
  | cons x xs ih =>
    unfold splitAfter
    dsimp only
    split
    next hx =>
      intro line hline
      rcases List.mem_cons.mp hline with rfl | hline
      · exact ⟨[], by rw [hx]; rfl, List.not_mem_nil⟩
      · exact ih line hline
    next hx =>
      cases hlines : (splitAfter t xs).1 with
      | nil => exact fun _ hmem => absurd hmem List.not_mem_nil
      | cons first lines =>
        rw [hlines] at ih
        intro line hline
        rcases List.mem_cons.mp hline with rfl | hline
        · exact (ih first List.mem_cons_self).cons hx
        · exact ih line (List.mem_cons_of_mem _ hline)

theorem open_eq_nil_iff {xs : List α} (h : xs ≠ []) :
    (splitAfter t xs).2 = [] ↔ xs.getLast? = some t := by
  have hcut := splitAfter_flatten t xs
  constructor
  · intro hopen
    rw [hopen, List.append_nil] at hcut
    rcases List.eq_nil_or_concat (splitAfter t xs).1 with hnil | ⟨lines, line, hlines⟩
    · rw [hnil] at hcut
      exact absurd hcut.symm h
    · rw [List.concat_eq_append] at hlines
      have hmem : line ∈ (splitAfter t xs).1 := by
        rw [hlines]
        exact List.mem_append_right _ (List.mem_singleton_self line)
      obtain ⟨body, rfl, -⟩ := splitAfter_endsIn t xs line hmem
      rw [← hcut, hlines, List.flatten_append, List.flatten_singleton, ← List.append_assoc]
      exact List.getLast?_concat
  · intro hlast
    by_contra hopen
    rw [← hcut, List.getLast?_append_of_ne_nil _ hopen] at hlast
    exact not_mem_splitAfter t xs (List.mem_of_getLast? hlast)

/-- **A list that came in two parts**: what was open is continued by the second part. -/
theorem splitAfter_append (xs ys : List α) :
    splitAfter t (xs ++ ys) =
      ((splitAfter t xs).1 ++ (splitAfter t ((splitAfter t xs).2 ++ ys)).1,
        (splitAfter t ((splitAfter t xs).2 ++ ys)).2) := by
  have hcut : xs ++ ys =
      ((splitAfter t xs).1 ++ (splitAfter t ((splitAfter t xs).2 ++ ys)).1).flatten ++
        (splitAfter t ((splitAfter t xs).2 ++ ys)).2 := by
    rw [List.flatten_append, List.append_assoc, splitAfter_flatten t (_ ++ ys), ← List.append_assoc,
      splitAfter_flatten]
  rw [hcut]
  refine splitAfter_unique t (fun line hline => ?_) (not_mem_splitAfter t _)
  rcases List.mem_append.mp hline with hline | hline
  · exact splitAfter_endsIn t _ line hline
  · exact splitAfter_endsIn t _ line hline

end N00b.Lib
