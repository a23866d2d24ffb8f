import Mathlib

/-!
# Running a machine inside a region

A deterministic machine makes one step at a time and may halt with a fault. `RunIn step inside s r`
says that the run from `s`, as long as it stays in the region `inside`, ends in `r`: it leaves the
region in a state, or it halts. A block of code is the region of the states whose program counter
lies in it.

## Rules

* `RunIn.unique`: a run has one end.
* `StepsIn.invariant`: what every step from the region keeps holds in all states that are reached.
* `StepsIn.leave`: steps from the region that end outside of it are a run.
* `RunIn.seq`, `RunIn.halt_mono`: a run through a part of a region is the beginning of the run
  through the region.
-/

namespace N00b.Lib

/-- What one step, or a whole run, gives. -/
inductive Next (σ ε : Type) where
  | ok (s : σ)
  | halt (fault : ε)

variable {σ ε : Type}

/-- The run from a state up to the first state outside the region. -/
inductive RunIn (step : σ → Next σ ε) (inside : σ → Prop) : σ → Next σ ε → Prop
  | leave {s : σ} (hout : ¬ inside s) : RunIn step inside s (.ok s)
  | halt {s : σ} {f : ε} (hin : inside s) (hstep : step s = .halt f) :
      RunIn step inside s (.halt f)
  | step {s s' : σ} {r : Next σ ε} (hin : inside s) (hstep : step s = .ok s')
      (hrun : RunIn step inside s' r) : RunIn step inside s r

namespace RunIn

variable {step : σ → Next σ ε} {inside part : σ → Prop} {s s' : σ} {r r' : Next σ ε} {f : ε}

theorem unique (h : RunIn step inside s r) (h' : RunIn step inside s r') : r = r' := by
  induction h with
  | leave hout =>
    cases h' with
    | leave => rfl
    | halt hin => exact absurd hin hout
    | step hin => exact absurd hin hout
  | halt hin hstep =>
    cases h' with
    | leave hout => exact absurd hin hout
    | halt _ hstep' => rw [hstep] at hstep'; rw [(Next.halt.inj hstep')]
    | step _ hstep' => rw [hstep] at hstep'; cases hstep'
  | step hin hstep _ ih =>
    cases h' with
    | leave hout => exact absurd hin hout
    | halt _ hstep' => rw [hstep] at hstep'; cases hstep'
    | step _ hstep' hrun' =>
      rw [hstep] at hstep'
      obtain rfl := Next.ok.inj hstep'
      exact ih hrun'

theorem seq (hpart : ∀ s, part s → inside s) (h : RunIn step part s (.ok s'))
    (h' : RunIn step inside s' r) : RunIn step inside s r := by
  generalize hend : Next.ok s' = e at h
  induction h with
  | leave => cases hend; exact h'
  | halt => cases hend
  | step hin hstep _ ih => exact .step (hpart _ hin) hstep (ih hend)

theorem halt_mono (hpart : ∀ s, part s → inside s) (h : RunIn step part s (.halt f)) :
    RunIn step inside s (.halt f) := by
  generalize hend : Next.halt f = e at h
  induction h with
  | leave => cases hend
  | halt hin hstep => cases hend; exact .halt (hpart _ hin) hstep
  | step hin hstep _ ih => exact .step (hpart _ hin) hstep (ih hend)

theorem widen (hpart : ∀ s, part s → inside s) (h : RunIn step part s r)
    (hout : ∀ s', r = .ok s' → ¬ inside s') : RunIn step inside s r := by
  cases r with
  | ok s' => exact h.seq hpart (.leave (hout s' rfl))
  | halt f => exact h.halt_mono hpart

theorem single (hin : inside s) (hstep : step s = .ok s') (hout : ¬ inside s') :
    RunIn step inside s (.ok s') :=
  .step hin hstep (.leave hout)

end RunIn

/-- The states that are reached by steps from states of the region. -/
inductive StepsIn (step : σ → Next σ ε) (inside : σ → Prop) (s : σ) : σ → Prop
  | refl : StepsIn step inside s s
  | tail {s' s'' : σ} (h : StepsIn step inside s s') (hin : inside s') (hstep : step s' = .ok s'') :
      StepsIn step inside s s''

namespace StepsIn

variable {step : σ → Next σ ε} {inside : σ → Prop} {s s' : σ}

theorem invariant (I : σ → Prop) (h : StepsIn step inside s s') (hinit : I s)
    (hkeep : ∀ s₁ s₂, inside s₁ → I s₁ → step s₁ = .ok s₂ → I s₂) : I s' := by
  induction h with
  | refl => exact hinit
  | tail _ hin hstep ih => exact hkeep _ _ hin ih hstep

theorem run {r : Next σ ε} (h : StepsIn step inside s s') (hrun : RunIn step inside s' r) :
    RunIn step inside s r := by
  induction h with
  | refl => exact hrun
  | tail _ hin hstep ih => exact ih (.step hin hstep hrun)

theorem leave (h : StepsIn step inside s s') (hout : ¬ inside s') :
    RunIn step inside s (.ok s') :=
  h.run (.leave hout)

end StepsIn

end N00b.Lib
