import N00b.Lib.Trace

/-!
# The wrapper of a `once` function

The text of `once_ret_wrapper` and `once_void_wrapper` in `x_once.c`, as a program that any number of
threads run, each of them as often as it likes. The lock is zero before the first call, one while the
body runs, and all ones afterwards.

## Representation

* A step is one access to the lock or to the cached result, or the start or the end of the body. The
  body may take any number of steps of other threads, and return anything.
* `n00b_futex_wait` may return at any time, so `n00b_futex_wake` changes nothing.
* How often a call got past its first step, how often the body was entered, what it returned, and
  what the calls returned are ghosts.

## Main results

- `Inv.step`: what every step keeps.
- `once_runs_once`: the body runs once, before any call returns, and the calls return its result.
-/

namespace N00b.Ncpp

open N00b.Lib

inductive Wrapper where
  | retWrapper
  | voidWrapper
  deriving DecidableEq, Repr

abbrev Result := BitVec 64

def Wrapper.value (w : Wrapper) (cached : Result) : Option Result :=
  match w with
  | .retWrapper => some cached
  | .voidWrapper => none

/-- `n00b_futex_t`. -/
abbrev Futex := BitVec 32

/-- Where a thread is in the wrapper. -/
inductive Pc where
  | idle
  -- `case 0`
  | callBody
  | inBody
  | storeResult (r : Result)
  | storeLock
  -- `case 1`
  | readLock
  | waiting
  -- at a `return`
  | returning
  deriving DecidableEq, Repr

/-- The lock and the cached result of a function, its threads, and the ghosts. -/
structure OnceState (T : Type) where
  lock : Futex
  cachedResult : Result
  pc : T → Pc
  started : ℕ
  entries : ℕ
  results : List Result
  returned : List (Option Result)

/-- What happens next. -/
inductive OnceStep (T : Type) where
  | call (t : T)
  | enterBody (t : T)
  | leaveBody (t : T) (r : Result)
  | storeResult (t : T)
  | storeLock (t : T)
  | readLock (t : T)
  | wake (t : T)
  | ret (t : T)
  deriving DecidableEq, Repr

variable {T : Type} [DecidableEq T]

namespace OnceState

def init (T : Type) : OnceState T :=
  { lock := 0, cachedResult := 0, pc := fun _ => .idle, started := 0, entries := 0, results := [],
    returned := [] }

def goto (s : OnceState T) (t : T) (p : Pc) : OnceState T :=
  { s with pc := Function.update s.pc t p }

/-- Where the `switch` goes. -/
def switch (val : Futex) : Pc :=
  if val = 0 then .callBody else if val = 1 then .readLock else .returning

def afterBody (w : Wrapper) (r : Result) : Pc :=
  match w with
  | .retWrapper => .storeResult r
  | .voidWrapper => .storeLock

def step (w : Wrapper) (s : OnceState T) : OnceStep T → Option (OnceState T)
  | .call t =>
    if s.pc t = .idle then
      some { s.goto t (switch s.lock) with lock := s.lock ||| 1, started := s.started + 1 }
    else none
  | .enterBody t =>
    if s.pc t = .callBody then some { s.goto t .inBody with entries := s.entries + 1 } else none
  | .leaveBody t r =>
    if s.pc t = .inBody then
      some { s.goto t (afterBody w r) with results := s.results ++ [r] }
    else none
  | .storeResult t =>
    match s.pc t with
    | .storeResult r => some { s.goto t .storeLock with cachedResult := r }
    | _ => none
  | .storeLock t =>
    if s.pc t = .storeLock then some { s.goto t .returning with lock := ~~~0 } else none
  | .readLock t =>
    if s.pc t = .readLock then some (s.goto t (if s.lock ≠ ~~~0 then .waiting else .returning))
    else none
  | .wake t => if s.pc t = .waiting then some (s.goto t .readLock) else none
  | .ret t =>
    if s.pc t = .returning then
      some { s.goto t .idle with returned := s.returned ++ [w.value s.cachedResult] }
    else none

end OnceState

/-! ## The invariant -/

/-- What the thread that runs the body has done so far, from where it is. -/
def Progress (w : Wrapper) (entries : ℕ) (results : List Result) (cachedResult : Result) : Pc → Prop
  | .callBody => entries = 0 ∧ results = []
  | .inBody => entries = 1 ∧ results = []
  | .storeResult r => w = .retWrapper ∧ entries = 1 ∧ results = [r]
  | .storeLock =>
    entries = 1 ∧ ∃ r, results = [r] ∧ (w = .retWrapper → cachedResult = r)
  | _ => False

/-- A thread that does not run the body, while another one does. -/
def Pc.Aside (p : Pc) : Prop := p = .idle ∨ p = .readLock ∨ p = .waiting

/-- What holds between steps: before the first call, while one thread runs the body, and after it
stored the lock. -/
inductive Inv (w : Wrapper) (s : OnceState T) : Prop where
  | fresh (hl : s.lock = 0) (hpc : ∀ t, s.pc t = .idle) (hs : s.started = 0) (he : s.entries = 0)
      (hr : s.results = []) (hret : s.returned = [])
  | running (t₀ : T) (hl : s.lock = 1)
      (hrun : Progress w s.entries s.results s.cachedResult (s.pc t₀))
      (hpc : ∀ t ≠ t₀, (s.pc t).Aside) (hret : s.returned = [])
  | done (r : Result) (hl : s.lock = ~~~0) (hpc : ∀ t, (s.pc t).Aside ∨ s.pc t = .returning)
      (he : s.entries = 1) (hr : s.results = [r]) (hc : w = .retWrapper → s.cachedResult = r)
      (hret : ∀ v ∈ s.returned, v = w.value r)

omit [DecidableEq T] in
theorem Inv.init (w : Wrapper) : Inv w (OnceState.init T) :=
  .fresh rfl (fun _ => rfl) rfl rfl rfl rfl

namespace OnceState

@[simp] theorem goto_pc_self (s : OnceState T) (t : T) (p : Pc) : (s.goto t p).pc t = p := by
  simp [goto]

theorem goto_pc_of_ne (s : OnceState T) {t t' : T} (p : Pc) (h : t' ≠ t) :
    (s.goto t p).pc t' = s.pc t' := by
  simp [goto, h]

theorem forall_goto {s : OnceState T} {t : T} {p : Pc} {P : T → Pc → Prop} (hp : P t p)
    (hs : ∀ t' ≠ t, P t' (s.pc t')) (t' : T) : P t' ((s.goto t p).pc t') := by
  by_cases hsame : t' = t
  · rw [hsame, s.goto_pc_self]
    exact hp
  · rw [s.goto_pc_of_ne p hsame]
    exact hs t' hsame

end OnceState

namespace Inv

variable {w : Wrapper} {s : OnceState T} {t : T} {p : Pc}

omit [DecidableEq T] in
theorem not_runner {entries : ℕ} {results : List Result} {cached : Result} {t₀ : T}
    (hrun : Progress w entries results cached (s.pc t₀)) (ha : (s.pc t).Aside) : t ≠ t₀ := by
  rintro rfl
  rcases ha with ha | ha | ha <;> rw [ha] at hrun <;> exact hrun

theorem goto (hI : Inv w s) (ha : (s.pc t).Aside) (hfresh : s.pc t ≠ .idle)
    (hp : p.Aside ∨ p = .returning ∧ s.lock ≠ 1) : Inv w (s.goto t p) := by
  cases hI with
  | fresh _ hpc _ _ _ _ => exact absurd (hpc t) hfresh
  | running t₀ hl hrun hpc hret =>
    have hne := not_runner hrun ha
    have hp' : p.Aside := hp.resolve_right fun h => h.2 hl
    refine .running t₀ hl ?_ ?_ hret
    · rw [s.goto_pc_of_ne p (Ne.symm hne)]
      exact hrun
    · exact fun t' => OnceState.forall_goto (P := fun t' p => t' ≠ t₀ → p.Aside) (fun _ => hp')
        (fun t' _ => hpc t') t'
  | done r hl hpc he hr hc hret =>
    refine .done r hl ?_ he hr hc hret
    refine OnceState.forall_goto (P := fun _ p => p.Aside ∨ p = .returning) ?_ fun t' _ => hpc t'
    exact hp.imp_right And.left

theorem call (hI : Inv w s) (hidle : s.pc t = .idle) (n : ℕ) :
    Inv w { s.goto t (OnceState.switch s.lock) with lock := s.lock ||| 1, started := n + 1 } := by
  have ha : (s.pc t).Aside := .inl hidle
  cases hI with
  | fresh hl hpc _ he hr hret =>
    have hswitch : OnceState.switch s.lock = .callBody := by rw [hl]; rfl
    rw [hswitch, hl]
    refine .running t rfl ?_ (fun t' ht' => ?_) hret
    · show Progress w s.entries s.results s.cachedResult ((s.goto t .callBody).pc t)
      rw [s.goto_pc_self]
      exact ⟨he, hr⟩
    · show ((s.goto t .callBody).pc t').Aside
      rw [s.goto_pc_of_ne _ ht', hpc]
      exact .inl rfl
  | running t₀ hl hrun hpc hret =>
    have hne := not_runner hrun ha
    have hswitch : OnceState.switch s.lock = .readLock := by rw [hl]; rfl
    rw [hswitch, hl]
    refine .running t₀ rfl ?_ ?_ hret
    · show Progress w s.entries s.results s.cachedResult ((s.goto t .readLock).pc t₀)
      rw [s.goto_pc_of_ne _ (Ne.symm hne)]
      exact hrun
    · exact fun t' => OnceState.forall_goto (P := fun t' p => t' ≠ t₀ → p.Aside)
        (fun _ => .inr (.inl rfl)) (fun t' _ => hpc t') t'
  | done r hl hpc he hr hc hret =>
    have hswitch : OnceState.switch s.lock = .returning := by rw [hl]; rfl
    rw [hswitch, hl]
    refine .done r rfl ?_ he hr hc hret
    exact OnceState.forall_goto (P := fun _ p => p.Aside ∨ p = .returning) (.inr rfl)
      fun t' _ => hpc t'

omit [DecidableEq T] in
theorem runner (hI : Inv w s) (hp : s.pc t = p) (ha : ¬ p.Aside) (hret : p ≠ .returning) :
    s.lock = 1 ∧ Progress w s.entries s.results s.cachedResult p ∧
      (∀ t' ≠ t, (s.pc t').Aside) ∧ s.returned = [] := by
  subst hp
  cases hI with
  | fresh _ hpc _ _ _ _ => exact absurd (.inl (hpc t)) ha
  | running t₀ hl hrun hpc hret' =>
    by_cases hsame : t = t₀
    · subst hsame
      exact ⟨hl, hrun, hpc, hret'⟩
    · exact absurd (hpc t hsame) ha
  | done r _ hpc _ _ _ _ =>
    rcases hpc t with hpc | hpc
    · exact absurd hpc ha
    · exact absurd hpc hret

theorem advance (hl : s.lock = 1) (hpc : ∀ t' ≠ t, (s.pc t').Aside) (hret : s.returned = [])
    {entries : ℕ} {results : List Result} {cached : Result}
    (hp : Progress w entries results cached p) :
    Inv w { s.goto t p with entries := entries, results := results, cachedResult := cached } := by
  refine .running t hl ?_ (fun t' ht' => ?_) hret
  · show Progress w entries results cached ((s.goto t p).pc t)
    rwa [s.goto_pc_self]
  · show ((s.goto t p).pc t').Aside
    rw [s.goto_pc_of_ne p ht']
    exact hpc t' ht'

theorem storeLock (hI : Inv w s) (hpc : s.pc t = .storeLock) :
    Inv w { s.goto t .returning with lock := ~~~0 } := by
  obtain ⟨_, hrun, hothers, hret⟩ := hI.runner hpc (by simp [Pc.Aside]) (by simp)
  obtain ⟨he, r, hr, hc⟩ := hrun
  refine .done r rfl ?_ he hr hc fun v hv => ?_
  · exact OnceState.forall_goto (P := fun _ p => p.Aside ∨ p = .returning) (.inr rfl)
      fun t' ht' => .inl (hothers t' ht')
  · rw [show ({ s.goto t .returning with lock := ~~~0 } : OnceState T).returned = [] from hret] at hv
    cases hv

theorem ret (hI : Inv w s) (hpc : s.pc t = .returning) :
    Inv w { s.goto t .idle with returned := s.returned ++ [w.value s.cachedResult] } := by
  have hside : ¬ (s.pc t).Aside := by simp [hpc, Pc.Aside]
  cases hI with
  | fresh _ hidle _ _ _ _ =>
    rw [hidle] at hpc
    cases hpc
  | running t₀ _ hrun hothers _ =>
    by_cases hsame : t = t₀
    · rw [← hsame, hpc] at hrun
      exact hrun.elim
    · exact absurd (hothers t hsame) hside
  | done r hl hothers he hr hc hret =>
    refine .done r hl ?_ he hr hc fun v hv => ?_
    · exact OnceState.forall_goto (P := fun _ p => p.Aside ∨ p = .returning) (.inl (.inl rfl))
        fun t' _ => hothers t'
    · rcases List.mem_append.mp hv with hv | hv
      · exact hret v hv
      · rw [List.mem_singleton.mp hv]
        cases w with
        | retWrapper => rw [hc rfl]
        | voidWrapper => rfl

theorem step {s' : OnceState T} (hI : Inv w s) (a : OnceStep T)
    (h : OnceState.step w s a = some s') : Inv w s' := by
  cases a with
  | call t =>
    obtain ⟨hpc, h⟩ := Option.ite_none_right_eq_some.mp h
    obtain rfl := Option.some.inj h
    exact hI.call hpc s.started
  | enterBody t =>
    obtain ⟨hpc, h⟩ := Option.ite_none_right_eq_some.mp h
    obtain rfl := Option.some.inj h
    obtain ⟨hl, hrun, hothers, hret⟩ := hI.runner hpc (by simp [Pc.Aside]) (by simp)
    obtain ⟨he, hr⟩ := hrun
    exact advance hl hothers hret (p := .inBody) ⟨by rw [he], hr⟩
  | leaveBody t r =>
    obtain ⟨hpc, h⟩ := Option.ite_none_right_eq_some.mp h
    obtain rfl := Option.some.inj h
    obtain ⟨hl, hrun, hothers, hret⟩ := hI.runner hpc (by simp [Pc.Aside]) (by simp)
    obtain ⟨he, hr⟩ := hrun
    refine advance hl hothers hret ?_
    cases w with
    | retWrapper => exact ⟨rfl, he, by rw [hr]; rfl⟩
    | voidWrapper => exact ⟨he, r, by rw [hr]; rfl, fun hw => by cases hw⟩
  | storeResult t =>
    rw [OnceState.step] at h
    split at h
    · rename_i r hpc
      obtain rfl := Option.some.inj h
      obtain ⟨hl, hrun, hothers, hret⟩ := hI.runner hpc (by simp [Pc.Aside]) (by simp)
      obtain ⟨_, he, hr⟩ := hrun
      exact advance hl hothers hret (p := .storeLock) ⟨he, r, hr, fun _ => rfl⟩
    · cases h
  | storeLock t =>
    obtain ⟨hpc, h⟩ := Option.ite_none_right_eq_some.mp h
    obtain rfl := Option.some.inj h
    exact hI.storeLock hpc
  | readLock t =>
    obtain ⟨hpc, h⟩ := Option.ite_none_right_eq_some.mp h
    obtain rfl := Option.some.inj h
    refine hI.goto (.inr (.inl hpc)) (by simp [hpc]) ?_
    split
    · exact .inl (.inr (.inr rfl))
    · rename_i hlock
      refine .inr ⟨rfl, ?_⟩
      rw [not_not.mp hlock]
      decide
  | wake t =>
    obtain ⟨hpc, h⟩ := Option.ite_none_right_eq_some.mp h
    obtain rfl := Option.some.inj h
    exact hI.goto (.inr (.inr hpc)) (by simp [hpc]) (.inl (.inr (.inl rfl)))
  | ret t =>
    obtain ⟨hpc, h⟩ := Option.ite_none_right_eq_some.mp h
    obtain rfl := Option.some.inj h
    exact hI.ret hpc

end Inv

/-! ## Runs -/

/-- **The body runs once.** In every state that the threads can reach, it was entered once at most,
and once if a call got past its first step, or is entered by the next step of the one that did; if a
call has returned, then the body has returned and its result is stored, and is what the call
returned. -/
theorem once_runs_once (w : Wrapper) {s : OnceState T}
    (h : Run (OnceState.step w) (fun _ _ => True) (OnceState.init T) s) :
    s.entries ≤ 1 ∧
      (0 < s.started → s.entries = 1 ∨ s.entries = 0 ∧ ∃ t, s.pc t = .callBody) ∧
      (∀ v ∈ s.returned, s.entries = 1 ∧ ∃ r, s.results = [r] ∧ v = w.value r ∧
        (w = .retWrapper → s.cachedResult = r)) ∧
      (∀ t, s.pc t = .returning → s.entries = 1 ∧ ∃ r, s.results = [r] ∧
        (w = .retWrapper → s.cachedResult = r)) := by
  have hI : Inv w s := h.invariant (Inv.init w) fun _ a _ hI _ hstep => hI.step a hstep
  cases hI with
  | fresh _ hpc hs he _ hret =>
    refine ⟨by omega, fun hpos => by omega, fun v hv => ?_, fun t ht => ?_⟩
    · rw [hret] at hv
      cases hv
    · rw [hpc] at ht
      cases ht
  | running t₀ _ hrun hpc hret =>
    have hentries : s.entries = 1 ∨ s.entries = 0 ∧ ∃ t, s.pc t = .callBody := by
      cases hp : s.pc t₀ <;> rw [hp] at hrun
      case callBody => exact .inr ⟨hrun.1, t₀, hp⟩
      case inBody => exact .inl hrun.1
      case storeResult r => exact .inl hrun.2.1
      case storeLock => exact .inl hrun.1
      all_goals exact hrun.elim
    refine ⟨by omega, fun _ => hentries, fun v hv => ?_, fun t ht => ?_⟩
    · rw [hret] at hv
      cases hv
    · by_cases hsame : t = t₀
      · rw [← hsame, ht] at hrun
        exact hrun.elim
      · rcases hpc t hsame with hpc | hpc | hpc <;> rw [hpc] at ht <;> cases ht
  | done r _ _ he hr hc hret =>
    exact ⟨he.le, fun _ => .inl he, fun v hv => ⟨he, r, hr, hret v hv, hc⟩,
      fun _ _ => ⟨he, r, hr, hc⟩⟩

def twoCallers : List (OnceStep Bool) :=
  [.call false, .call true, .enterBody false, .readLock true, .leaveBody false 7,
    .storeResult false, .storeLock false, .wake true, .readLock true, .ret true, .ret false,
    .call true, .ret true]

theorem once_runs_once_two_callers :
    ∃ s, twoCallers.foldlM (OnceState.step .retWrapper) (OnceState.init Bool) = some s ∧
      s.returned = [some 7, some 7, some 7] ∧ s.entries ≤ 1 ∧
      (0 < s.started → s.entries = 1 ∨ s.entries = 0 ∧ ∃ t, s.pc t = .callBody) ∧
      (∀ v ∈ s.returned, s.entries = 1 ∧ ∃ r, s.results = [r] ∧
        v = Wrapper.retWrapper.value r ∧ (Wrapper.retWrapper = .retWrapper → s.cachedResult = r)) ∧
      (∀ t, s.pc t = .returning → s.entries = 1 ∧ ∃ r, s.results = [r] ∧
        (Wrapper.retWrapper = .retWrapper → s.cachedResult = r)) := by
  obtain ⟨s, hs, hret⟩ : ∃ s, twoCallers.foldlM (OnceState.step .retWrapper)
      (OnceState.init Bool) = some s ∧ s.returned = [some 7, some 7, some 7] := ⟨_, rfl, rfl⟩
  exact ⟨s, hs, hret, once_runs_once .retWrapper (Run.of_foldlM (fun _ _ _ => trivial) hs)⟩

end N00b.Ncpp
