import Mathlib

/-!
# Runs

A text that is read by runs: as long as a predicate holds, and then what is behind.

## Main results

* `takeWhile_run`, `dropWhile_run`: a run that stops is read as a whole.
* `run_inj`: there is one way to split a run off.
-/

namespace N00b.Lib

variable {α : Type*} {p : α → Bool} {run run' rest rest' : List α}

/-- No run begins here. -/
def Stops (p : α → Bool) (l : List α) : Prop := ∀ a ∈ l.head?, p a = false

@[simp] theorem stops_nil : Stops p [] := nofun

@[simp] theorem stops_cons {a : α} : Stops p (a :: rest) ↔ p a = false := by
  simp [Stops]

theorem Stops.append (hrun : Stops p run) (hrest : Stops p rest) : Stops p (run ++ rest) := by
  cases run with
  | nil => exact hrest
  | cons a run => exact stops_cons.mpr (stops_cons.mp hrun)

theorem stops_append {l m : List α} (hne : l ≠ []) : Stops p (l ++ m) ↔ Stops p l := by
  cases l with
  | nil => exact absurd rfl hne
  | cons a l => simp

theorem stops_of_all {q : α → Prop} (hall : ∀ a ∈ run, q a) (hpq : ∀ a, q a → p a = false) :
    Stops p run := by
  cases run with
  | nil => exact stops_nil
  | cons a run => exact stops_cons.mpr (hpq a (hall a List.mem_cons_self))

theorem takeWhile_run (hrun : ∀ a ∈ run, p a = true) (hrest : Stops p rest) :
    (run ++ rest).takeWhile p = run := by
  rw [List.takeWhile_append_of_pos hrun]
  cases rest with
  | nil => simp
  | cons a rest => simp [stops_cons.mp hrest]

theorem dropWhile_run (hrun : ∀ a ∈ run, p a = true) (hrest : Stops p rest) :
    (run ++ rest).dropWhile p = rest := by
  rw [List.dropWhile_append_of_pos hrun]
  cases rest with
  | nil => rfl
  | cons a rest => simp [stops_cons.mp hrest]

/-- **There is one way to split a run off.** -/
theorem run_inj (hrun : ∀ a ∈ run, p a = true) (hrest : Stops p rest)
    (hrun' : ∀ a ∈ run', p a = true) (hrest' : Stops p rest') (h : run ++ rest = run' ++ rest') :
    run = run' ∧ rest = rest' := by
  constructor
  · rw [← takeWhile_run hrun hrest, h, takeWhile_run hrun' hrest']
  · rw [← dropWhile_run hrun hrest, h, dropWhile_run hrun' hrest']

end N00b.Lib
