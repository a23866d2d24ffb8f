import N00b.Mt.Mutex

/-!
# Read-write locks

`n00b_rw_write_lock`, `n00b_rw_read_lock` and `n00b_rw_unlock` of mt/rwlock.nc in a debug build, as
programs of any number of threads on one lock. A step is one atomic operation on the futex or on
`data`, together with what the thread does by itself before its next one. The waits in the kernel
return at any time, and an uninitialised local variable has any value.

A thread keeps one record for each lock that it reads; here it is the number in the record of this
lock, zero if there is none. Assertions about the number of live threads are left out, and an abort
ends the process: there is no state behind it.
-/

namespace N00b.Mt.Rw

/-! ## State -/

/-- `N00B_RW_W_LOCK`. -/
def rwWLock : Nat := 0x40000000

/-- `HATRACK_THREADS_MAX`. -/
def threadsMax : Nat := 4096

/-- The two kinds of locks that a thread takes. -/
inductive Mode where
  | read
  | write
deriving DecidableEq, Repr

/-- Where a thread is in the three functions, with its local variables. -/
inductive Pc where
  | idle
  -- `n00b_rw_write_lock`
  | writeStart
  | writeFetchOr (info : LockInfo)
  | writeWait (info : LockInfo)
  | writeDrain
  -- `n00b_lock_acquire_accounting`
  | acquire (mode : Mode)
  | storeAcquired (mode : Mode) (info : LockInfo)
  -- `n00b_rw_read_lock`
  | readStart
  | readCas (info : LockInfo)
  | readLoad
  | readLoop (value desired : Nat)
  | readRetry (value desired : Nat)
  -- `n00b_rw_unlock` and `n00b_lock_release_accounting`
  | unlockStart
  | release
  | storeReleased (info : LockInfo) (unlock : Bool)
  | clearBit
  | uncount
  | uncountCas (value : Nat)
deriving DecidableEq, Repr

/-- A thread: its record of the lock, and for the statements about it the locks that it holds, the
newest first, each from its return to the start of its unlock, whether it has counted itself as a
reader and whether it has claimed the write bit. -/
structure Thread where
  pc : Pc
  record : Nat
  held : List Mode
  counted : Bool
  claimed : Bool

/-- `n00b_rwlock_t`, and the threads. -/
structure State where
  futex : Nat
  data : LockInfo
  logs : List LockLog
  thread : ThreadId → Thread

/-- What a thread does next: a call, or a step within one. `junk` is what an uninitialised variable
holds. -/
inductive Act where
  | readLock
  | writeLock
  | unlock
  | go (junk : Nat)
deriving DecidableEq, Repr

/-- After `n00b_rw_init`. -/
def State.init : State :=
  ⟨0, ⟨noOwner, 0⟩, [], fun _ => ⟨.idle, 0, [], false, false⟩⟩

def State.setThread (s : State) (t : ThreadId) (th : Thread) : State :=
  { s with thread := Function.update s.thread t th }

/-- The thread goes on at `pc`. -/
def State.goto (s : State) (t : ThreadId) (pc : Pc) : State :=
  s.setThread t { s.thread t with pc }

def State.lockReturns (s : State) (t : ThreadId) (mode : Mode) : State :=
  let th := s.thread t
  s.setThread t { th with pc := .idle, held := mode :: th.held }

/-- `add_read_record`, and the return of the lock: the thread has just counted itself. -/
def State.readReturns (s : State) (t : ThreadId) : State :=
  let th := s.thread t
  s.setThread t { th with pc := .idle, record := 1, counted := true, held := .read :: th.held }

/-! ## Steps -/

/-- The steps of `n00b_rw_write_lock`. -/
def State.goWrite (s : State) (t : ThreadId) : Pc → Option State
  | .writeStart => some (s.goto t (.writeFetchOr s.data))
  | .writeFetchOr info =>
    let value := s.futex
    let s := { s with futex := value ||| rwWLock }
    if value &&& rwWLock ≠ 0 then
      if info.owner = t then some (s.goto t (.acquire .write))
      else some (s.goto t (.writeWait info))
    else some (s.setThread t { s.thread t with pc := .writeDrain, claimed := true })
  | .writeWait info =>
    if s.futex = 0 then some (s.goto t (.writeFetchOr info)) else some s
  | .writeDrain =>
    let wanted := if (s.thread t).record ≠ 0 then rwWLock ||| 1 else rwWLock
    if s.futex = wanted then some (s.goto t (.acquire .write)) else some s
  | _ => none

/-- The steps of `n00b_lock_acquire_accounting` and `n00b_lock_release_accounting`. -/
def State.goAccounting (s : State) (t : ThreadId) : Pc → Option State
  | .acquire mode =>
    let info := s.data
    if info.owner = t then
      if s.logs.length < info.nesting then none
      else some (s.goto t (.storeAcquired mode { info with nesting := toInt16 (info.nesting + 1) }))
    else if info.owner ≠ noOwner then none
    else some (s.goto t (.storeAcquired mode ⟨t, 1⟩))
  | .storeAcquired mode info =>
    some ({ s with data := info, logs := ⟨true, t⟩ :: s.logs }.lockReturns t mode)
  | .release =>
    let info := s.data
    if info.owner = noOwner ∨ info.owner ≠ t ∨ info.nesting ≤ 0 then none
    else
      let nesting := toInt16 (info.nesting - 1)
      if nesting = 0 then
        some ({ s with logs := [] }.goto t (.storeReleased ⟨noOwner, 0⟩ true))
      else
        some ({ s with logs := ⟨false, t⟩ :: s.logs }.goto t
          (.storeReleased { info with nesting } false))
  | .storeReleased info unlock =>
    some ({ s with data := info }.goto t (if unlock then .clearBit else .idle))
  | _ => none

/-- The steps of `n00b_rw_read_lock`. Behind the wait, `continue` goes on at the condition of the
loop. -/
def State.goRead (s : State) (t : ThreadId) (junk : Nat) : Pc → Option State
  | .readStart => some (s.goto t (.readCas s.data))
  | .readCas info =>
    let th := s.thread t
    if s.futex = 0 then some ({ s with futex := 1 }.readReturns t)
    else if info.owner = t then some (s.goto t (.acquire .read))
    else if th.record ≠ 0 then
      if th.record < 2 ^ 31 - 1 then
        some (s.setThread t
          { th with pc := .idle, record := th.record + 1, held := .read :: th.held })
      else none
    else some (s.goto t .readLoad)
  | .readLoad => some (s.goto t (.readLoop s.futex (junk % 2 ^ 32)))
  | .readLoop value desired =>
    if value &&& rwWLock ≠ 0 then some (s.goto t (.readRetry s.futex desired))
    else
      let desired := (value + 1) % 2 ^ 32
      if s.futex = value then some ({ s with futex := desired }.readReturns t)
      else some (s.goto t (.readLoop s.futex desired))
  | .readRetry value desired =>
    if s.futex = value then some ({ s with futex := desired }.readReturns t)
    else some (s.goto t (.readLoop s.futex desired))
  | _ => none

/-- The other steps of `n00b_rw_unlock`. -/
def State.goUnlock (s : State) (t : ThreadId) : Pc → Option State
  | .unlockStart =>
    let th := s.thread t
    if s.data.owner = t then some (s.goto t .release)
    else if th.record = 0 then some (s.goto t .idle)
    else if th.record - 1 ≠ 0 then
      some (s.setThread t { th with pc := .idle, record := th.record - 1 })
    else some (s.setThread t { th with pc := .uncount, record := 0 })
  | .clearBit =>
    let s := { s with futex := s.futex &&& (2 ^ 32 - 1 - rwWLock) }
    some (s.setThread t { s.thread t with pc := .idle, claimed := false })
  | .uncount => some (s.goto t (.uncountCas s.futex))
  | .uncountCas value =>
    if s.futex = value then
      let s := { s with futex := (value + 2 ^ 32 - 1) % 2 ^ 32 }
      some (s.setThread t { s.thread t with pc := .idle, counted := false })
    else some (s.goto t .uncount)
  | _ => none

/-- One step of a thread. A thread unlocks only what it has locked. -/
def State.step (s : State) (e : ThreadId × Act) : Option State :=
  let t := e.1
  let th := s.thread t
  if t < threadsMax then
    match e.2 with
    | .readLock => if th.pc = .idle then some (s.goto t .readStart) else none
    | .writeLock => if th.pc = .idle then some (s.goto t .writeStart) else none
    | .unlock =>
      match th.held with
      | [] => none
      | _ :: held =>
        if th.pc = .idle then some (s.setThread t { th with pc := .unlockStart, held }) else none
    | .go junk =>
      match th.pc with
      | .idle => none
      | .writeStart | .writeFetchOr _ | .writeWait _ | .writeDrain => s.goWrite t th.pc
      | .acquire _ | .storeAcquired _ _ | .release | .storeReleased _ _ => s.goAccounting t th.pc
      | .readStart | .readCas _ | .readLoad | .readLoop _ _ | .readRetry _ _ =>
        s.goRead t junk th.pc
      | .unlockStart | .clearBit | .uncount | .uncountCas _ => s.goUnlock t th.pc
  else none

/-! ## Exclusion -/

/-- The number of threads that have counted themselves. -/
def State.readers (s : State) : Nat :=
  ((Finset.range threadsMax).filter fun t => (s.thread t).counted = true).card

/-- **Writers are excluded**, and the futex counts the readers and shows the claim of a writer. -/
structure Excludes (s : State) : Prop where
  exclusive : ∀ t u, .write ∈ (s.thread t).held → (s.thread u).held ≠ [] → u = t
  claimed : ∀ t, (s.thread t).claimed = true → s.futex = s.readers + rwWLock
  free : (∀ t, (s.thread t).claimed = false) → s.futex = s.readers

/-- How many of the locks are nested in the oldest write lock, that one included. -/
def writeDepth : List Mode → Nat
  | [] => 0
  | mode :: held => if writeDepth held ≠ 0 ∨ mode = .write then writeDepth held + 1 else 0

/-- No reader finds the write bit in the value that its loop looks at, and write locks are nested
less than `INT16_MAX` deep. -/
def Undisturbed (s : State) (e : ThreadId × Act) : Prop :=
  match e.2 with
  | .readLock | .writeLock => writeDepth (s.thread e.1).held < 2 ^ 15 - 1
  | .unlock => True
  | .go _ => ∀ value desired, (s.thread e.1).pc = .readLoop value desired → value &&& rwWLock = 0

end N00b.Mt.Rw
