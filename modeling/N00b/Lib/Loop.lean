import N00b.Lib.Region

/-!
# Loops around a body

A machine that goes back and forth between the code of a loop and the code of its body. `Rounds` is
such a run together with the states in which the body was entered; `Entered` are these states up to
some point of a run that need not end.

## Rules

* `Rounds.run`: rounds are a run through both parts.
* `Rounds.unique`: a run enters the body in the same states every time.
* `rounds_of_turns`: a loop that counts, from what one turn and one pass of the body do.
* `Rounds.le_length`: a loop that is not done yet has another turn.
-/

namespace N00b.Lib

variable {σ ε : Type}

/-- The run from a state in the code of the loop, with the states in which the body is entered. -/
inductive Rounds (step : σ → Next σ ε) (own body : σ → Prop) : σ → List σ → Next σ ε → Prop
  | out {s s' : σ} (hrun : RunIn step own s (.ok s')) (hout : ¬ body s') :
      Rounds step own body s [] (.ok s')
  | halt {s : σ} {f : ε} (hrun : RunIn step own s (.halt f)) : Rounds step own body s [] (.halt f)
  | bodyHalt {s t : σ} {f : ε} (hrun : RunIn step own s (.ok t)) (hin : body t)
      (hbody : RunIn step body t (.halt f)) : Rounds step own body s [t] (.halt f)
  | round {s t u : σ} {ts : List σ} {r : Next σ ε} (hrun : RunIn step own s (.ok t))
      (hin : body t) (hbody : RunIn step body t (.ok u)) (hrest : Rounds step own body u ts r) :
      Rounds step own body s (t :: ts) r

/-- The states in which the body has been entered up to now, the last one first. -/
inductive Entered (step : σ → Next σ ε) (own body : σ → Prop) (s : σ) : List σ → Prop
  | first {t : σ} (hrun : RunIn step own s (.ok t)) (hin : body t) : Entered step own body s [t]
  | next {t u v : σ} {ts : List σ} (h : Entered step own body s (t :: ts))
      (hbody : RunIn step body t (.ok u)) (hrun : RunIn step own u (.ok v)) (hin : body v) :
      Entered step own body s (v :: t :: ts)

section

variable {step : σ → Next σ ε} {own body : σ → Prop} {s : σ}

theorem Entered.inside {t : σ} {ts : List σ} (h : Entered step own body s (t :: ts)) : body t := by
  cases h with
  | first _ hin => exact hin
  | next _ _ _ hin => exact hin

/-- **The body is entered in the same states every time, and the end is the same.** -/
theorem Rounds.unique {ts ts' : List σ} {r r' : Next σ ε} (h : Rounds step own body s ts r)
    (h' : Rounds step own body s ts' r') : ts = ts' ∧ r = r' := by
  induction h generalizing ts' with
  | out hrun hout =>
    cases h' with
    | out hrun' => exact ⟨rfl, hrun.unique hrun'⟩
    | halt hrun' => cases hrun.unique hrun'
    | bodyHalt hrun' hin | round hrun' hin =>
      cases hrun.unique hrun'
      exact absurd hin hout
  | halt hrun =>
    cases h' with
    | out hrun' => cases hrun.unique hrun'
    | halt hrun' => exact ⟨rfl, hrun.unique hrun'⟩
    | bodyHalt hrun' => cases hrun.unique hrun'
    | round hrun' => cases hrun.unique hrun'
  | bodyHalt hrun hin hbody =>
    cases h' with
    | out hrun' hout =>
      cases hrun.unique hrun'
      exact absurd hin hout
    | halt hrun' => cases hrun.unique hrun'
    | bodyHalt hrun' _ hbody' =>
      cases hrun.unique hrun'
      exact ⟨rfl, hbody.unique hbody'⟩
    | round hrun' _ hbody' =>
      cases hrun.unique hrun'
      cases hbody.unique hbody'
  | round hrun hin hbody _ ih =>
    cases h' with
    | out hrun' hout =>
      cases hrun.unique hrun'
      exact absurd hin hout
    | halt hrun' => cases hrun.unique hrun'
    | bodyHalt hrun' _ hbody' =>
      cases hrun.unique hrun'
      cases hbody.unique hbody'
    | round hrun' _ hbody' hrest' =>
      cases hrun.unique hrun'
      cases hbody.unique hbody'
      obtain ⟨rfl, rfl⟩ := ih hrest'
      exact ⟨rfl, rfl⟩

theorem Rounds.lead {s' : σ} {r : Next σ ε} (h : Rounds step own body s' [] r)
    (hlead : ∀ r, RunIn step own s' r → RunIn step own s r) : Rounds step own body s [] r := by
  cases h with
  | out hrun hout => exact .out (hlead _ hrun) hout
  | halt hrun => exact .halt (hlead _ hrun)

/-- **A loop that counts to `n`.** `I k` holds before turn `k` and `P k` when the body is entered in
it; the pass of the body is only asked for where the run really enters it. -/
theorem rounds_of_turns {n : Nat} {I P : Nat → σ → Prop} {Q : Next σ ε → Prop}
    (hturn : ∀ k u, k < n → I k u → ∃ t, RunIn step own u (.ok t) ∧ body t ∧ P k t)
    (hpass : ∀ k t ts, k < n → ts.length = k → Entered step own body s (t :: ts) → P k t →
      ∃ u, RunIn step body t (.ok u) ∧ I (k + 1) u)
    (hdone : ∀ u, I n u → ∃ r, Rounds step own body u [] r ∧ Q r) (hstart : I 0 s) :
    ∃ ts r, Rounds step own body s ts r ∧ ts.length = n ∧
      (∀ k t, ts[k]? = some t → P k t) ∧ Q r := by
  -- From turn `k` on, with what has been entered before.
  have hfrom : ∀ d k u, k + d = n → I k u →
      (k = 0 → u = s) →
      (∀ j, k = j + 1 → ∃ t ts, ts.length = j ∧ Entered step own body s (t :: ts) ∧
        RunIn step body t (.ok u)) →
      ∃ ts r, Rounds step own body u ts r ∧ ts.length = d ∧
        (∀ i t, ts[i]? = some t → P (k + i) t) ∧ Q r := by
    intro d
    induction d with
    | zero =>
      intro k u hk hI _ _
      obtain rfl : k = n := by omega
      obtain ⟨r, hrun, hQ⟩ := hdone u hI
      exact ⟨[], r, hrun, rfl, by simp, hQ⟩
    | succ d ih =>
      intro k u hk hI hfirst hbefore
      obtain ⟨t, hrun, hin, hP⟩ := hturn k u (by omega) hI
      obtain ⟨ts, hlen, hentered⟩ : ∃ ts : List σ, ts.length = k ∧
          Entered step own body s (t :: ts) := by
        cases k with
        | zero =>
          obtain rfl := hfirst rfl
          exact ⟨[], rfl, .first hrun hin⟩
        | succ j =>
          obtain ⟨t', ts, hlen, hent, hbody⟩ := hbefore j rfl
          exact ⟨t' :: ts, by simp [hlen], hent.next hbody hrun hin⟩
      obtain ⟨v, hbody, hI'⟩ := hpass k t ts (by omega) hlen hentered hP
      obtain ⟨ts', r, hrest, hlen', hall, hQ⟩ := ih (k + 1) v (by omega) hI' (by omega) (by
        intro j hj
        obtain rfl : k = j := by omega
        exact ⟨t, ts, hlen, hentered, hbody⟩)
      refine ⟨t :: ts', r, .round hrun hin hbody hrest, by simp [hlen'], ?_, hQ⟩
      intro i x hx
      cases i with
      | zero =>
        cases hx
        exact hP
      | succ i =>
        have hx' : P (k + 1 + i) x := hall i x (by simpa using hx)
        rwa [Nat.add_assoc, Nat.add_comm 1 i] at hx'
  obtain ⟨ts, r, hrounds, hlen, hall, hQ⟩ := hfrom n 0 s (by omega) hstart (fun _ => rfl)
    (fun j hj => by omega)
  exact ⟨ts, r, hrounds, hlen, fun k t ht => by simpa using hall k t ht, hQ⟩

/-- What a run does from a state that leads into the body. -/
theorem Rounds.turn {u t : σ} {ts : List σ} {r : Next σ ε} (h : Rounds step own body u ts r)
    (hrun : RunIn step own u (.ok t)) (hin : body t) {v : σ} (hbody : RunIn step body t (.ok v)) :
    ∃ ts', ts = t :: ts' ∧ Rounds step own body v ts' r := by
  cases h with
  | out hrun' hout =>
    cases hrun'.unique hrun
    exact absurd hin hout
  | halt hrun' => cases hrun'.unique hrun
  | bodyHalt hrun' _ hbody' =>
    cases hrun'.unique hrun
    cases hbody'.unique hbody
  | round hrun' _ hbody' hrest =>
    cases hrun'.unique hrun
    cases hbody'.unique hbody
    exact ⟨_, rfl, hrest⟩

/-- **A loop that does not end before turn `n`** enters its body as many times. -/
theorem Rounds.le_length {n : Nat} {I P : Nat → σ → Prop}
    (hturn : ∀ k u, k < n → I k u → ∃ t, RunIn step own u (.ok t) ∧ body t ∧ P k t)
    (hpass : ∀ k t ts, k < n → ts.length = k → Entered step own body s (t :: ts) → P k t →
      ∃ u, RunIn step body t (.ok u) ∧ I (k + 1) u) (hstart : I 0 s)
    {ts : List σ} {r : Next σ ε} (h : Rounds step own body s ts r) : n ≤ ts.length := by
  -- From turn `k` on, with what has been entered before.
  have hfrom : ∀ d k u ts' r, k + d = n → I k u → Rounds step own body u ts' r →
      (∀ t, RunIn step own u (.ok t) → body t →
        ∃ ts, ts.length = k ∧ Entered step own body s (t :: ts)) → d ≤ ts'.length := by
    intro d
    induction d with
    | zero => exact fun k u ts' r _ _ _ _ => Nat.zero_le _
    | succ d ih =>
      intro k u ts' r hk hI hrounds hentered
      obtain ⟨t, hrun, hin, hP⟩ := hturn k u (by omega) hI
      obtain ⟨ts, hlen, hent⟩ := hentered t hrun hin
      obtain ⟨v, hbody, hI'⟩ := hpass k t ts (by omega) hlen hent hP
      obtain ⟨ts'', rfl, hrest⟩ := hrounds.turn hrun hin hbody
      refine Nat.succ_le_succ (ih (k + 1) v ts'' r (by omega) hI' hrest fun t' hrun' hin' => ?_)
      exact ⟨t :: ts, by rw [List.length_cons, hlen], hent.next hbody hrun' hin'⟩
  exact hfrom n 0 s ts r (Nat.zero_add n) hstart h fun t hrun hin => ⟨[], rfl, .first hrun hin⟩

end

end N00b.Lib
