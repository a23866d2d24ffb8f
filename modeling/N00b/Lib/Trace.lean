import Mathlib

/-!
# Runs over a list of events

A system that reacts to events one after the other: `stateAt step s events j` is the state after the
first `j` of the events.

## Rules

* `stateAt_succ`: the state after one more event.
* `holds_from`: what holds at one point and is kept by the events from there on holds later.
* `Run.invariant`: what steps that meet a condition keep holds after every run of such steps.
-/

namespace N00b.Lib

variable {σ ε : Type}

/-- The state after the first `j` events. -/
def stateAt (step : σ → ε → σ) (s : σ) (events : List ε) (j : Nat) : σ :=
  (events.take j).foldl step s

@[simp] theorem stateAt_zero (step : σ → ε → σ) (s : σ) (events : List ε) :
    stateAt step s events 0 = s := rfl

theorem stateAt_succ (step : σ → ε → σ) (s : σ) {events : List ε} {j : Nat} {e : ε}
    (h : events[j]? = some e) :
    stateAt step s events (j + 1) = step (stateAt step s events j) e := by
  unfold stateAt
  rw [List.take_add_one, h, List.foldl_append]
  rfl

/-- **The invariant rule**, for an invariant that begins to hold at `i`. -/
theorem holds_from {step : σ → ε → σ} {s : σ} {events : List ε} {I : σ → Prop} {i j : Nat}
    (hij : i ≤ j) (hj : j ≤ events.length) (hi : I (stateAt step s events i))
    (hstep : ∀ m e, i ≤ m → m < j → events[m]? = some e → I (stateAt step s events m) →
      I (step (stateAt step s events m) e)) :
    I (stateAt step s events j) := by
  induction j, hij using Nat.le_induction with
  | base => exact hi
  | succ j hle ih =>
    have hlt : j < events.length := hj
    have he : events[j]? = some events[j] := List.getElem?_eq_getElem hlt
    rw [stateAt_succ step s he]
    refine hstep j _ hle (Nat.lt_succ_self j) he ?_
    exact ih (Nat.le_of_lt hlt) fun m e hm hmj => hstep m e hm (Nat.lt_succ_of_lt hmj)

/-! ## Runs of steps that meet a condition -/

/-- The states that steps lead to which are possible and meet the condition `ok`. -/
inductive Run (step : σ → ε → Option σ) (ok : σ → ε → Prop) (s : σ) : σ → Prop where
  | refl : Run step ok s s
  | tail {t u : σ} {e : ε} : Run step ok s t → ok t e → step t e = some u → Run step ok s u

/-- **The invariant rule** for such runs. -/
theorem Run.invariant {step : σ → ε → Option σ} {ok : σ → ε → Prop} {s t : σ} {I : σ → Prop}
    (h : Run step ok s t) (hs : I s)
    (hstep : ∀ t e u, I t → ok t e → step t e = some u → I u) : I t := by
  induction h with
  | refl => exact hs
  | tail _ hok hone ih => exact hstep _ _ _ ih hok hone

theorem Run.of_foldlM {step : σ → ε → Option σ} {ok : σ → ε → Prop} {s t : σ} {events : List ε}
    (hok : ∀ e ∈ events, ∀ t, ok t e) (h : events.foldlM step s = some t) : Run step ok s t := by
  induction events using List.reverseRecOn generalizing t with
  | nil =>
    cases h
    exact .refl
  | append_singleton events e ih =>
    rw [List.foldlM_append] at h
    obtain ⟨u, hrest, hone⟩ := Option.bind_eq_some_iff.mp h
    rw [List.foldlM_cons] at hone
    obtain ⟨v, hv, hnil⟩ := Option.bind_eq_some_iff.mp hone
    cases hnil
    have hrun := ih (fun e he => hok e (List.mem_append_left _ he)) hrest
    exact .tail hrun (hok e (List.mem_append_right _ (List.mem_singleton.mpr rfl)) _) hv

end N00b.Lib
