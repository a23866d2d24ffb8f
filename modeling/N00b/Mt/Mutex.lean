import N00b.Lib.LinkedList
import N00b.Lib.Trace

/-!
# Mutexes

`n00b_mutex_lock` and `n00b_mutex_unlock` of mt/mutex.nc, with `n00b_lock_acquire_accounting` and
`n00b_lock_release_accounting` of mt/lock_accounting.nc, as programs of any number of threads on any
number of mutexes.

A step is one atomic operation of one thread, together with what the thread does by itself before its
next one. The waits can return at any time. What is no part of a mutex and read by nobody else is left
out: the records of who waits, suspension, and the places in the source that a debug build writes down.

Mutexes are initialised. The two builds are told apart by `debug`, which is `N00B_DEBUG`; `assert` is
on in both.
-/

namespace N00b.Mt

open N00b.Lib

/-! ## State -/

/-- `thread_id`. -/
abbrev ThreadId := Nat

/-- `N00B_NO_OWNER`. -/
def noOwner : Int := -1

/-- `N00B_SPIN_LIMIT`. -/
def spinLimit : Nat := 16

/-- A value stored in an `int16_t`. -/
def toInt16 (n : Int) : Int :=
  n.bmod (2 ^ 16)

/-- `n00b_core_lock_info_t` of a mutex. -/
structure LockInfo where
  owner : Int
  nesting : Int
deriving DecidableEq, Repr

/-- `n00b_lock_log_t`. -/
structure LockLog where
  lockOp : Bool
  threadId : ThreadId
deriving DecidableEq, Repr

/-- `n00b_mutex_t` without its links. -/
structure Mutex where
  data : LockInfo
  logs : List LockLog
  futex : Nat
  shouldWake : Nat
deriving DecidableEq, Repr

/-- Where a thread is in the two functions, with its local variables. -/
inductive Pc (M : Type) where
  | idle
  -- `spin_phase` and `n00b_mutex_lock`
  | lockStart (m : M)
  | spin (m : M) (i : Nat)
  | waitFutex (m : M)
  | tryTake (m : M)
  | leaveWait (m : M)
  -- `n00b_lock_acquire_accounting` and `ensure_ownership`
  | acquire (m : M)
  | linkPrev (m : M) (info : LockInfo) (topHeld : M)
  | linkNext (m : M) (info : LockInfo)
  | storeAcquired (m : M) (info : LockInfo)
  | ensureOwnership (m : M)
  -- `n00b_lock_release_accounting`
  | unlockStart (m : M)
  | readPrev (m : M) (info : LockInfo)
  | readNext (m : M) (info : LockInfo) (prev : Option M)
  | storePrevNext (m : M) (info : LockInfo) (prev next : Option M)
  | storeNextPrev (m : M) (info : LockInfo) (prev next : Option M)
  | clearPrev (m : M) (info : LockInfo) (next : Option M)
  | clearNext (m : M) (info : LockInfo) (next : Option M)
  | storeReleased (m : M) (info : LockInfo) (unlock : Bool)
  -- `n00b_mutex_unlock`
  | storeFutex (m : M)
  | assertFutex (m : M)
  | readWake (m : M)
  | returned (m : M) (result : Bool)
  | aborted
deriving DecidableEq, Repr

/-- A thread: `exclusive_locks` of its `n00b_tsi_t`, and how often it has locked each mutex, from
the return of a lock to the start of the matching unlock. -/
structure Thread (M : Type) where
  pc : Pc M
  exclusiveLocks : Option M
  depth : M → Nat

/-- `next_thread_lock` and `prev_thread_lock` of all mutexes, the rest of them, and the threads. -/
structure State (M : Type) where
  links : Links M
  mutex : M → Mutex
  thread : ThreadId → Thread M

/-- What a thread does next: a call, or a step within one. -/
inductive Act (M : Type) where
  | lock (m : M)
  | unlock (m : M)
  | go
deriving DecidableEq, Repr

/-- After `n00b_mutex_init` on every mutex. -/
def State.init (M : Type) : State M :=
  ⟨⟨fun _ => none, fun _ => none⟩, fun _ => ⟨⟨noOwner, 0⟩, [], 0, 0⟩,
    fun _ => ⟨.idle, none, fun _ => 0⟩⟩

variable {M : Type} [DecidableEq M]

def State.setThread (s : State M) (t : ThreadId) (th : Thread M) : State M :=
  { s with thread := Function.update s.thread t th }

def State.setMutex (s : State M) (m : M) (mu : Mutex) : State M :=
  { s with mutex := Function.update s.mutex m mu }

/-- The thread goes on at `pc`. -/
def State.goto (s : State M) (t : ThreadId) (pc : Pc M) : State M :=
  s.setThread t { s.thread t with pc }

def State.lockReturns (s : State M) (t : ThreadId) (m : M) : State M :=
  let th := s.thread t
  s.setThread t { th with pc := .idle, depth := Function.update th.depth m (th.depth m + 1) }

/-- `atomic_fetch_or(&mutex->futex, 1)`. -/
def State.fetchOr (s : State M) (m : M) : State M :=
  s.setMutex m { s.mutex m with futex := (s.mutex m).futex ||| 1 }

/-! ## Steps -/

/-- The steps of `spin_phase` and of `n00b_mutex_lock` up to the acquisition of the futex. -/
def State.goLock (s : State M) (t : ThreadId) : Pc M → Option (State M)
  | .lockStart m =>
    if (s.mutex m).data.owner = t then some (s.goto t (.acquire m)) else some (s.goto t (.spin m 0))
  | .spin m i =>
    if i < spinLimit then
      if (s.mutex m).futex = 0 then some ((s.fetchOr m).goto t (.acquire m))
      else some ((s.fetchOr m).goto t (.spin m (i + 1)))
    else
      let mu := s.mutex m
      some ((s.setMutex m { mu with shouldWake := (mu.shouldWake + 1) % 2 ^ 32 }).goto t
        (.waitFutex m))
  | .waitFutex m =>
    if (s.mutex m).futex = 0 then some (s.goto t (.tryTake m)) else some s
  | .tryTake m =>
    if (s.mutex m).futex = 0 then some ((s.fetchOr m).goto t (.leaveWait m))
    else some ((s.fetchOr m).goto t (.waitFutex m))
  | .leaveWait m =>
    let mu := s.mutex m
    some ((s.setMutex m { mu with shouldWake := (mu.shouldWake + 2 ^ 32 - 1) % 2 ^ 32 }).goto t
      (.acquire m))
  | _ => none

/-- The steps of `n00b_lock_acquire_accounting` and `ensure_ownership`. The store to `data` is one
of the debug build only. -/
def State.goAcquire (debug : Bool) (s : State M) (t : ThreadId) : Pc M → Option (State M)
  | .acquire m =>
    let info := (s.mutex m).data
    if info.owner = t then
      if debug && decide ((s.mutex m).logs.length < info.nesting) then some (s.goto t .aborted)
      else some (s.goto t (.storeAcquired m { info with nesting := toInt16 (info.nesting + 1) }))
    else if debug && info.owner != noOwner then some (s.goto t .aborted)
    else
      match (s.thread t).exclusiveLocks with
      | some topHeld => some (s.goto t (.linkPrev m ⟨t, 1⟩ topHeld))
      | none => some (s.goto t (.linkNext m ⟨t, 1⟩))
  | .linkPrev m info topHeld =>
    some ({ s with links := s.links.setPrev topHeld (some m) }.goto t (.linkNext m info))
  | .linkNext m info =>
    let th := s.thread t
    some ({ s with links := s.links.setNext m th.exclusiveLocks }.setThread t
      { th with exclusiveLocks := some m, pc := .storeAcquired m info })
  | .storeAcquired m info =>
    if debug then
      let mu := s.mutex m
      some ((s.setMutex m { mu with data := info, logs := ⟨true, t⟩ :: mu.logs }).goto t
        (.ensureOwnership m))
    else some (s.lockReturns t m)
  | .ensureOwnership m =>
    if (s.mutex m).data.owner = t then some (s.lockReturns t m) else some (s.goto t .aborted)
  | _ => none

/-- The steps of `n00b_lock_release_accounting`. -/
def State.goRelease (debug : Bool) (s : State M) (t : ThreadId) : Pc M → Option (State M)
  | .unlockStart m =>
    let mu := s.mutex m
    let info := mu.data
    if info.owner = noOwner ∨ info.owner ≠ t then some (s.goto t .aborted)
    else if debug && decide (info.nesting ≤ 0) then some (s.goto t .aborted)
    else
      let nesting := toInt16 (info.nesting - 1)
      if nesting = 0 then some (s.goto t (.readPrev m ⟨noOwner, 0⟩))
      else
        let logs := if debug then ⟨false, t⟩ :: mu.logs else mu.logs
        some ((s.setMutex m { mu with logs }).goto t (.storeReleased m { info with nesting } false))
  | .readPrev m info => some (s.goto t (.readNext m info (s.links.prev m)))
  | .readNext m info prev => some (s.goto t (.storePrevNext m info prev (s.links.next m)))
  | .storePrevNext m info prev next =>
    let links := if prev = next then s.links else s.links.setNextOf prev next
    some ({ s with links }.goto t (.storeNextPrev m info prev next))
  | .storeNextPrev m info prev next =>
    let links := if prev = next then s.links else s.links.setPrevOf next prev
    some ({ s with links }.goto t (.clearPrev m info next))
  | .clearPrev m info next =>
    some ({ s with links := s.links.setPrev m none }.goto t (.clearNext m info next))
  | .clearNext m info next =>
    let th := s.thread t
    let mu := s.mutex m
    let exclusiveLocks := if th.exclusiveLocks = some m then next else th.exclusiveLocks
    let exclusiveLocks := if exclusiveLocks = some m then none else exclusiveLocks
    let logs := if debug then [] else mu.logs
    some (({ s with links := s.links.setNext m none }.setMutex m { mu with logs }).setThread t
      { th with exclusiveLocks, pc := .storeReleased m info true })
  | .storeReleased m info unlock =>
    some ((s.setMutex m { s.mutex m with data := info }).goto t
      (if unlock then .storeFutex m else .returned m false))
  | _ => none

/-- The steps of `n00b_mutex_unlock` behind the accounting. -/
def State.goUnlock (s : State M) (t : ThreadId) : Pc M → Option (State M)
  | .storeFutex m => some ((s.setMutex m { s.mutex m with futex := 0 }).goto t (.assertFutex m))
  | .assertFutex m =>
    if (s.mutex m).futex = 0 then some (s.goto t (.readWake m)) else some (s.goto t .aborted)
  | .readWake m => some (s.goto t (.returned m true))
  | .returned _ _ => some (s.goto t .idle)
  | _ => none

/-- One step of a thread. A thread unlocks only what it has locked. -/
def State.step (debug : Bool) (s : State M) (e : ThreadId × Act M) : Option (State M) :=
  let t := e.1
  let th := s.thread t
  match e.2 with
  | .lock m => if th.pc = .idle then some (s.goto t (.lockStart m)) else none
  | .unlock m =>
    if th.pc = .idle ∧ 0 < th.depth m then
      some (s.setThread t
        { th with pc := .unlockStart m, depth := Function.update th.depth m (th.depth m - 1) })
    else none
  | .go =>
    match th.pc with
    | .idle => none
    | .aborted => none
    | .lockStart _ | .spin _ _ | .waitFutex _ | .tryTake _ | .leaveWait _ => s.goLock t th.pc
    | .acquire _ | .linkPrev _ _ _ | .linkNext _ _ | .storeAcquired _ _ | .ensureOwnership _ =>
      s.goAcquire debug t th.pc
    | .storeFutex _ | .assertFutex _ | .readWake _ | .returned _ _ => s.goUnlock t th.pc
    | _ => s.goRelease debug t th.pc

/-! ## Accounting -/

/-- The mutex that a thread works on. -/
def Pc.target : Pc M → Option M
  | .idle | .aborted => none
  | .lockStart m | .spin m _ | .waitFutex m | .tryTake m | .leaveWait m | .acquire m
  | .linkPrev m _ _ | .linkNext m _ | .storeAcquired m _ | .ensureOwnership m | .unlockStart m
  | .readPrev m _ | .readNext m _ _ | .storePrevNext m _ _ _ | .storeNextPrev m _ _ _
  | .clearPrev m _ _ | .clearNext m _ _ | .storeReleased m _ _ | .storeFutex m | .assertFutex m
  | .readWake m | .returned m _ => some m

/-- **Exclusive locks are accounted for**: one holder, whose number and nesting depth `data` has
unless it is just changing them, no abort, the results of the unlocks, and the list of each thread
between its calls. -/
structure Accounted (s : State M) : Prop where
  exclusive : ∀ m t u, 0 < (s.thread t).depth m → 0 < (s.thread u).depth m → t = u
  owner : ∀ m t, 0 < (s.thread t).depth m → (s.mutex m).data.owner = t
  nesting : ∀ m t, 0 < (s.thread t).depth m → (s.thread t).pc.target ≠ some m →
    (s.mutex m).data.nesting = (s.thread t).depth m
  noAbort : ∀ t, (s.thread t).pc ≠ .aborted
  returns : ∀ t m result, (s.thread t).pc = .returned m result →
    (result = true ↔ (s.thread t).depth m = 0)
  list : ∀ t, (s.thread t).pc = .idle → ∃ ms, s.links.IsList none (s.thread t).exclusiveLocks ms ∧
    ms.Nodup ∧ ∀ m, m ∈ ms ↔ 0 < (s.thread t).depth m

def TakesFutex (s : State M) (t : ThreadId) (m : M) : Prop :=
  (s.mutex m).futex = 0 ∧
    ((∃ i < spinLimit, (s.thread t).pc = .spin m i) ∨ (s.thread t).pc = .tryTake m)

/-- Locks are nested less than `INT16_MAX` deep, and no thread takes a mutex whose last holder has
still to assert that it is free. -/
def Undisturbed (s : State M) (e : ThreadId × Act M) : Prop :=
  match e.2 with
  | .lock m => (s.thread e.1).depth m < 2 ^ 15 - 1
  | .unlock _ => True
  | .go => ∀ m, TakesFutex s e.1 m → ∀ u, (s.thread u).pc ≠ .assertFutex m

end N00b.Mt
