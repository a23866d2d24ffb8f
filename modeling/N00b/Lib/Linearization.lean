import Mathlib

/-!
# Linearizable objects

An atomic object has one state, and each operation on it takes effect in one step between its call
and its return. Calls and returns are all that is seen of it. A system whose steps are steps of the
atomic object, or change nothing of it, shows histories of the atomic object only.

## Main results

* `Traced.history`: what a system that simulates an atomic object shows is a history of the object.
-/

namespace N00b.Lib

/-- What a thread shows. -/
inductive Event (τ Op Reply : Type) where
  | call (t : τ) (op : Op)
  | ret (t : τ) (r : Reply)
deriving DecidableEq, Repr

/-- Where a thread is with its operation. -/
inductive Phase (Op Reply : Type) where
  | idle
  | called (op : Op)
  | done (r : Reply)
deriving DecidableEq, Repr

/-- An object, and the threads that use it. -/
structure Atomic (α τ Op Reply : Type) where
  object : α
  phase : τ → Phase Op Reply

section

variable {α τ Op Reply σ ε : Type}

/-- What a system shows in the steps that meet the condition `ok`. -/
inductive Traced (step : σ → ε → Option σ) (ok : σ → Prop)
    (shown : σ → ε → Option (Event τ Op Reply)) (s : σ) :
    List (Event τ Op Reply) → σ → Prop where
  | refl : Traced step ok shown s [] s
  | tail {t u : σ} {events : List (Event τ Op Reply)} {e : ε} : Traced step ok shown s events t →
      ok t → step t e = some u → Traced step ok shown s (events ++ (shown t e).toList) u

/-- What is shown in the steps of a list, where all of them can be made. -/
def trace (step : σ → ε → Option σ) (ok : σ → Prop) [DecidablePred ok]
    (shown : σ → ε → Option (Event τ Op Reply)) (s : σ) :
    List ε → Option (List (Event τ Op Reply))
  | [] => some []
  | e :: rest =>
    if ok s then
      (step s e).bind fun u => (trace step ok shown u rest).map ((shown s e).toList ++ ·)
    else none

theorem traced_trace {step : σ → ε → Option σ} {ok : σ → Prop} [DecidablePred ok]
    {shown : σ → ε → Option (Event τ Op Reply)} {s t : σ} {old events : List (Event τ Op Reply)}
    {l : List ε} (hs : Traced step ok shown s old t)
    (h : trace step ok shown t l = some events) :
    ∃ u, Traced step ok shown s (old ++ events) u := by
  induction l generalizing t old events with
  | nil =>
    cases h
    exact ⟨t, by rwa [List.append_nil]⟩
  | cons e rest ih =>
    obtain ⟨hok, h⟩ := Option.ite_none_right_eq_some.mp h
    obtain ⟨u, hu, h⟩ := Option.bind_eq_some_iff.mp h
    obtain ⟨events', hrest, rfl⟩ := Option.map_eq_some_iff.mp h
    obtain ⟨v, hv⟩ := ih (hs.tail hok hu) hrest
    exact ⟨v, by rwa [List.append_assoc] at hv⟩

variable [DecidableEq τ]

/-- A thread goes on. -/
def Atomic.goto (a : Atomic α τ Op Reply) (t : τ) (phase : Phase Op Reply) :
    Atomic α τ Op Reply :=
  { a with phase := Function.update a.phase t phase }

theorem Atomic.goto_self (a : Atomic α τ Op Reply) (t : τ) : a.goto t (a.phase t) = a := by
  rw [Atomic.goto, Function.update_eq_self]

/-- The steps of an atomic object, and what they show. -/
inductive Atomic.Step (apply : α → Op → α × Reply) (a : Atomic α τ Op Reply) :
    Option (Event τ Op Reply) → Atomic α τ Op Reply → Prop where
  | call {t : τ} (op : Op) : a.phase t = .idle →
      Step apply a (some (.call t op)) (a.goto t (.called op))
  | effect {t : τ} {op : Op} : a.phase t = .called op →
      Step apply a none
        ({ a with object := (apply a.object op).1 }.goto t (.done (apply a.object op).2))
  | ret {t : τ} {r : Reply} : a.phase t = .done r → Step apply a (some (.ret t r)) (a.goto t .idle)

/-- What an atomic object shows. -/
inductive Atomic.History (apply : α → Op → α × Reply) (a : Atomic α τ Op Reply) :
    List (Event τ Op Reply) → Atomic α τ Op Reply → Prop where
  | refl : History apply a [] a
  | tail {b c : Atomic α τ Op Reply} {events : List (Event τ Op Reply)}
      {e : Option (Event τ Op Reply)} : History apply a events b → b.Step apply e c →
      History apply a (events ++ e.toList) c

/-- **The simulation rule.** -/
theorem Traced.history {step : σ → ε → Option σ} {ok : σ → Prop}
    {shown : σ → ε → Option (Event τ Op Reply)} {apply : α → Op → α × Reply}
    {R : σ → Atomic α τ Op Reply → Prop} {s t : σ} {a : Atomic α τ Op Reply}
    {events : List (Event τ Op Reply)} (h : Traced step ok shown s events t) (hs : R s a)
    (hstep : ∀ t e u b, R t b → ok t → step t e = some u →
      (shown t e = none ∧ R u b) ∨ ∃ c, b.Step apply (shown t e) c ∧ R u c) :
    ∃ b, a.History apply events b ∧ R t b := by
  induction h with
  | refl => exact ⟨a, .refl, hs⟩
  | tail _ hok hone ih =>
    obtain ⟨b, hb, hR⟩ := ih
    rcases hstep _ _ _ _ hR hok hone with ⟨hnone, hR'⟩ | ⟨c, hc, hR'⟩
    · rw [hnone]
      exact ⟨b, by simpa using hb, hR'⟩
    · exact ⟨c, hb.tail hc, hR'⟩

end

end N00b.Lib
