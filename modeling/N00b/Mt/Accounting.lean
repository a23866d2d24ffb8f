import N00b.Mt.Unlocking

/-!
# Accounting for mutexes

Runs of any number of threads that lock and unlock mutexes.

## Main results

* `Inv.step`: each undisturbed step of a debug build keeps the invariant.
-/

namespace N00b.Mt

open N00b.Lib

variable {M : Type} [DecidableEq M] {s s' : State M} {t u : ThreadId} {m : M} {th : Thread M}

/-! ## Runs -/

theorem Inv.step (h : Inv s) {e : ThreadId × Act M} (hok : Undisturbed s e)
    (hstep : s.step true e = some s') : Inv s' := by
  obtain ⟨t, act⟩ := e
  cases act with
  | lock m =>
    simp only [State.step] at hstep
    split at hstep
    next hpc =>
      cases hstep
      exact h.quiet (.lockStart m) (by rw [hpc]; rfl) rfl (setThread_self ..)
        (fun _ hu => setThread_of_ne _ _ hu) rfl (fun _ => ⟨rfl, rfl, rfl⟩) hok
          fun _ hp => by cases hp
    next => cases hstep
  | unlock m =>
    simp only [State.step] at hstep
    split at hstep
    next hidle =>
      cases hstep
      exact h.callUnlock hidle.1 hidle.2
    next => cases hstep
  | go =>
    have hasserting : ∀ m, TakesFutex s t m → ∀ u, (s.thread u).pc ≠ .assertFutex m := hok
    simp only [State.step] at hstep
    cases hpc : (s.thread t).pc with
    | idle | aborted =>
      rw [hpc] at hstep
      cases hstep
    | lockStart m | spin m i | waitFutex m | tryTake m | leaveWait m =>
      rw [hpc] at hstep
      exact h.goLock hasserting (hpc ▸ hstep)
    | acquire m =>
      rw [hpc] at hstep
      exact h.acquire hpc hstep
    | linkPrev m info topHeld =>
      rw [hpc] at hstep
      exact h.linkPrev hpc hstep
    | linkNext m info =>
      rw [hpc] at hstep
      exact h.linkNext hpc hstep
    | storeAcquired m info =>
      rw [hpc] at hstep
      exact h.storeAcquired hpc hstep
    | ensureOwnership m =>
      rw [hpc] at hstep
      exact h.ensureOwnership hpc hstep
    | unlockStart m =>
      rw [hpc] at hstep
      exact h.unlockStart hpc hstep
    | readPrev m info =>
      rw [hpc] at hstep
      exact h.readLinks none (.inl hpc) (hpc ▸ hstep)
    | readNext m info prev =>
      rw [hpc] at hstep
      exact h.readLinks prev (.inr hpc) (hpc ▸ hstep)
    | storePrevNext m info prev next =>
      rw [hpc] at hstep
      exact h.storeNeighbours (.inl hpc) (hpc ▸ hstep)
    | storeNextPrev m info prev next =>
      rw [hpc] at hstep
      exact h.storeNeighbours (.inr hpc) (hpc ▸ hstep)
    | clearPrev m info next =>
      rw [hpc] at hstep
      exact h.clearPrev hpc hstep
    | clearNext m info next =>
      rw [hpc] at hstep
      exact h.clearNext hpc hstep
    | storeReleased m info unlock =>
      rw [hpc] at hstep
      exact h.storeReleased hpc hstep
    | storeFutex m | assertFutex m | readWake m | returned m result =>
      rw [hpc] at hstep
      refine h.goUnlock (t := t) ?_
      rw [hpc]
      exact hstep

theorem inv_init : Inv (State.init M) := by
  have howns : ∀ (t : ThreadId) (m : M), ¬ ((State.init M).thread t).Owns m := by
    intro t m
    simp [State.init, Thread.Owns, Pc.ownsTarget]
  refine ⟨fun m t u ht => absurd ht (howns t m), fun m t ht => absurd ht (howns t m),
    fun m _ => ⟨rfl, rfl, rfl, rfl⟩, (fun t m hpc => by cases hpc), fun t => ?_⟩
  refine ⟨trivial, fun m => ?_, fun m hm => absurd hm (howns t m),
    fun m hm => absurd hm.owns (howns t m), fun m hm => absurd hm (howns t m), ?_⟩
  · simp [State.init, Thread.counted, Pc.pending]
  · exact ⟨(State.init M).links, [], rfl, List.nodup_nil,
      fun m => ⟨(fun hm => by cases hm), fun hm => absurd hm.owns (howns t m)⟩, trivial,
      fun m hm => by cases hm⟩

theorem Inv.accounted (h : Inv s) : Accounted s where
  exclusive := fun m t u ht hu => h.unique m t u (.inl ht) (.inl hu)
  owner := by
    intro m t ht
    refine h.owner_iff.mpr ⟨.inl ht, ?_⟩
    unfold Thread.counted
    omega
  nesting := by
    intro m t ht htarget
    have hcounted : (s.thread t).counted m = (s.thread t).depth m := by
      rw [Thread.counted, if_neg fun hpending => htarget hpending.2]
      rfl
    rw [(h.local' t).data m (.inl ht), hcounted, infoOf_pos t ht]
  noAbort := by
    intro t hpc
    have hpcOk := (h.local' t).pc
    rw [Thread.PcOk, hpc] at hpcOk
    exact hpcOk
  returns := by
    intro t m result hpc
    have hpcOk := (h.local' t).pc
    rwa [Thread.PcOk, hpc] at hpcOk
  list := by
    intro t hpc
    obtain ⟨lk, ms, hlist, hnodup, hmem, -, hlinks⟩ := (h.local' t).list
    refine ⟨ms, hlist.congr fun m hm => ?_, hnodup, fun m => ?_⟩
    · have hnow := hlinks m hm
      show SameLinks lk s.links m
      simpa [Thread.linksNow, hpc] using hnow
    · rw [hmem]
      exact (quiet_spec _ (by rw [hpc]; rfl) m).2.2.1

/-- **Exclusive locks are accounted for** in every run of a debug build in which locks are not
nested too deep and no mutex is taken before its last holder has asserted that it is free. -/
theorem accounted_of_run (h : Run (State.step true) Undisturbed (State.init M) s) : Accounted s :=
  (h.invariant inv_init fun _ _ _ hinv hok hstep => hinv.step hok hstep).accounted

/-! ## Threads that run one after the other -/

omit [DecidableEq M] in
theorem setThread_frame {s₁ : State M} (hs₁ : s₁.thread = s.thread)
    (hth : ∀ m, th.depth m ≤ (s.thread t).depth m + 1) :
    (∀ u, u ≠ t → (s₁.setThread t th).thread u = s.thread u) ∧
      ∀ m, ((s₁.setThread t th).thread t).depth m ≤ (s.thread t).depth m + 1 := by
  refine ⟨fun u hu => (setThread_of_ne s₁ th hu).trans (by rw [hs₁]), fun m => ?_⟩
  rw [setThread_self]
  exact hth m

theorem lockReturns_frame :
    (∀ u, u ≠ t → (s.lockReturns t m).thread u = s.thread u) ∧
      ∀ m', ((s.lockReturns t m).thread t).depth m' ≤ (s.thread t).depth m' + 1 := by
  refine setThread_frame rfl fun m' => ?_
  by_cases hm : m' = m
  · simp [hm]
  · simp [Function.update_of_ne hm]

theorem step_frame {debug : Bool} {act : Act M} (hstep : s.step debug (t, act) = some s') :
    (∀ u, u ≠ t → s'.thread u = s.thread u) ∧
      ∀ m, (s'.thread t).depth m ≤ (s.thread t).depth m + 1 := by
  cases act with
  | lock m =>
    simp only [State.step] at hstep
    split at hstep
    · cases hstep
      exact setThread_frame rfl fun _ => Nat.le_succ _
    · cases hstep
  | unlock m =>
    simp only [State.step] at hstep
    split at hstep
    · cases hstep
      refine setThread_frame rfl fun m' => ?_
      by_cases hm : m' = m
      · simp only [hm, Function.update_self]
        omega
      · simp [Function.update_of_ne hm]
    · cases hstep
  | go =>
    simp only [State.step] at hstep
    cases hpc : (s.thread t).pc <;>
      simp only [hpc, State.goLock, State.goAcquire, State.goRelease, State.goUnlock] at hstep <;>
      (repeat' split at hstep) <;> cases hstep <;>
      first
        | exact setThread_frame rfl fun _ => Nat.le_succ _
        | exact lockReturns_frame
        | exact ⟨fun _ _ => rfl, fun _ => Nat.le_succ _⟩

/-- A thread takes a number of steps while no other one has still to assert that a mutex is free. -/
theorem run_stretch (hrun : Run (State.step true) Undisturbed (State.init M) s)
    (hothers : ∀ u, u ≠ t → ∀ m, (s.thread u).pc ≠ .assertFutex m) {acts : List (Act M)}
    (hdepth : ∀ m, (s.thread t).depth m + acts.length < 2 ^ 15 - 1)
    (h : (acts.map fun act => (t, act)).foldlM (State.step true) s = some s') :
    Run (State.step true) Undisturbed (State.init M) s' ∧
      ∀ u, u ≠ t → s'.thread u = s.thread u := by
  induction acts generalizing s with
  | nil =>
    cases h
    exact ⟨hrun, fun _ _ => rfl⟩
  | cons act acts ih =>
    rw [List.length_cons] at hdepth
    rw [List.map_cons, List.foldlM_cons] at h
    obtain ⟨s₁, hone, hrest⟩ := Option.bind_eq_some_iff.mp h
    obtain ⟨hframe, hdepth'⟩ := step_frame hone
    have hok : Undisturbed s (t, act) := by
      cases act with
      | lock m => exact Nat.lt_of_le_of_lt (Nat.le_add_right _ _) (hdepth m)
      | unlock m => trivial
      | go =>
        intro m htakes u hpc
        by_cases hu : u = t
        · rw [hu] at hpc
          rcases htakes.2 with ⟨i, -, hspin⟩ | htry
          · cases hspin.symm.trans hpc
          · cases htry.symm.trans hpc
        · exact hothers u hu m hpc
    have hothers' : ∀ u, u ≠ t → ∀ m, (s₁.thread u).pc ≠ .assertFutex m := by
      intro u hu m
      rw [hframe u hu]
      exact hothers u hu m
    have hdepth₁ : ∀ m, (s₁.thread t).depth m + acts.length < 2 ^ 15 - 1 := by
      intro m
      have hle := hdepth' m
      have hlt := hdepth m
      omega
    obtain ⟨hrun', hframe'⟩ := ih (hrun.tail hok hone) hothers' hdepth₁ hrest
    exact ⟨hrun', fun u hu => (hframe' u hu).trans (hframe u hu)⟩

/-- A lock of the only mutex, by a thread that finds it free. -/
def lockActs : List (Act Unit) := .lock () :: List.replicate 6 .go

/-- A lock by a thread that finds it taken, up to its second look at it. -/
def spinActs : List (Act Unit) := [.lock (), .go, .go]

def unlockActs : List (Act Unit) := .unlock () :: List.replicate 12 .go

/-- A thread spins while another one has the mutex, and takes it after the unlock. -/
theorem accounted_lockUnlock : ∃ s : State Unit,
    (lockActs.map ((7, ·)) ++ (spinActs.map ((8, ·)) ++
      (unlockActs.map ((7, ·)) ++ (List.replicate 5 Act.go).map ((8, ·))))).foldlM
        (State.step true) (State.init Unit) = some s ∧
      (s.thread 7).depth () = 0 ∧ (s.thread 8).depth () = 1 ∧ Accounted s := by
  obtain ⟨s₁, s₂, s₃, s, h₁, h₂, h₃, h₄, hidle₁, hspin, htaken, hwaits, hidle₃, hfree, hheld⟩ :
      ∃ s₁ s₂ s₃ s : State Unit,
        (lockActs.map ((7, ·))).foldlM (State.step true) (State.init Unit) = some s₁ ∧
        (spinActs.map ((8, ·))).foldlM (State.step true) s₁ = some s₂ ∧
        (unlockActs.map ((7, ·))).foldlM (State.step true) s₂ = some s₃ ∧
        ((List.replicate 5 Act.go).map ((8, ·))).foldlM (State.step true) s₃ = some s ∧
        (s₁.thread 7).pc = .idle ∧ (s₂.thread 8).pc = .spin () 1 ∧ (s₂.thread 7).depth () = 1 ∧
        (s₂.thread 8).depth () = 0 ∧ (s₃.thread 7).pc = .idle ∧ (s.thread 7).depth () = 0 ∧
        (s.thread 8).depth () = 1 :=
    ⟨_, _, _, _, rfl, rfl, rfl, rfl, rfl, rfl, rfl, rfl, rfl, rfl, rfl⟩
  have hinit : ∀ u m, ((State.init Unit).thread u).pc ≠ .assertFutex m := fun _ _ h => by cases h
  have hdepth : ∀ u m, ((State.init Unit).thread u).depth m = 0 := fun _ _ => rfl
  obtain ⟨hrun₁, hframe₁⟩ := run_stretch .refl (fun u _ => hinit u) (fun m => by rw [hdepth]; decide) h₁
  obtain ⟨hrun₂, hframe₂⟩ := run_stretch hrun₁ (t := 8) (fun u hu m hpc => by
      by_cases h7 : u = 7
      · rw [h7, hidle₁] at hpc
        cases hpc
      · rw [hframe₁ u h7] at hpc
        exact hinit u m hpc) (fun m => by rw [hframe₁ 8 (by decide), hdepth]; decide) h₂
  obtain ⟨hrun₃, hframe₃⟩ := run_stretch hrun₂ (t := 7) (fun u hu m hpc => by
      by_cases h8 : u = 8
      · rw [h8, hspin] at hpc
        cases hpc
      · rw [hframe₂ u h8, hframe₁ u hu] at hpc
        exact hinit u m hpc) (fun _ => by rw [htaken]; decide) h₃
  obtain ⟨hrun, -⟩ := run_stretch hrun₃ (t := 8) (fun u hu m hpc => by
      by_cases h7 : u = 7
      · rw [h7, hidle₃] at hpc
        cases hpc
      · rw [hframe₃ u h7, hframe₂ u hu, hframe₁ u h7] at hpc
        exact hinit u m hpc) (fun _ => by rw [hframe₃ 8 (by decide), hwaits]; decide) h₄
  refine ⟨s, ?_, hfree, hheld, accounted_of_run hrun⟩
  rw [List.foldlM_append, h₁, Option.bind_eq_bind, Option.bind_some, List.foldlM_append, h₂,
    Option.bind_eq_bind, Option.bind_some, List.foldlM_append, h₃, Option.bind_eq_bind,
    Option.bind_some, h₄]

/-- Without debugging the first unlock aborts. -/
theorem not_accounted :
    ¬ ∀ s, Run (State.step false) (fun _ _ => True) (State.init Unit) s → Accounted s := by
  intro hall
  let events : List (ThreadId × Act Unit) :=
    [(7, .lock ()), (7, .go), (7, .go), (7, .go), (7, .go), (7, .go), (7, .unlock ()), (7, .go)]
  obtain ⟨s, hs, hpc⟩ : ∃ s : State Unit,
      events.foldlM (State.step false) (State.init Unit) = some s ∧ (s.thread 7).pc = .aborted :=
    ⟨_, rfl, rfl⟩
  exact (hall s (.of_foldlM (fun _ _ _ => trivial) hs)).noAbort 7 hpc

end N00b.Mt
