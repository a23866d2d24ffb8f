import N00b.Lib.Linearization

/-!
# The lock-free stack and its memory

`llstack_push_mmm` and `llstack_pop_mmm` of hatrack/llstack.c over hatrack/mmm.c, as programs of any
number of threads on one stack, in a build that gives memory back. meson.build is not such a one: it
defines `HATRACK_DONT_DEALLOC`, and llstack.c is not among its files.

A step is one atomic operation on memory that the threads share, in one order that all of them see,
together with what the thread does with its own records before the next one. Such an order is assumed:
`atomic_read` is a relaxed load, and reservations are plain stores. The allocator hands out any record
that is not in use, so also one that was freed before.

A thread is known by the number that `mmm_thread_acquire` gives it. The numbers of threads that have
exited, which are given out again only once all others are used up, are left out. A list of retired
records is a list of addresses, in place of the links in their headers.
-/

namespace N00b.Hatrack.LlStack

open N00b.Lib

/-! ## State -/

abbrev Addr := ℕ

abbrev ThreadId := ℕ

/-- `HATRACK_THREADS_MAX`. -/
def threadsMax : ℕ := 4096

/-- `HATRACK_RETIRE_FREQ`. -/
def retireFreq : ℕ := 1 <<< 7

/-- `HATRACK_EPOCH_UNRESERVED`, which is `HATRACK_EPOCH_MAX` too. -/
def epochUnreserved : ℕ := 0xffffffffffffffff

/-- A record: what is read of its `mmm_header_t`, and the `llstack_node_t` behind it. -/
structure Cell where
  retireEpoch : ℕ
  next : Addr
  item : ℕ
deriving DecidableEq, Repr

inductive Op where
  | push (item : ℕ)
  | pop
deriving DecidableEq, Repr

/-- What the two functions return: `found` and the item. -/
inductive Reply where
  | pushed
  | popped (item : Option ℕ)
deriving DecidableEq, Repr

/-- Where a thread is, with its local variables. -/
inductive Pc where
  | unborn
  | acquired
  | idle
  -- `mmm_start_basic_op`
  | start (op : Op)
  | reserve (op : Op) (epoch : ℕ)
  -- `llstack_push_mmm`, with `mmm_alloc_committed`
  | alloc (item : ℕ)
  | readHead (item : ℕ) (node : Addr)
  | casHead (item : ℕ) (node head : Addr)
  -- `llstack_pop_mmm`
  | readTop
  | readNext (top : Addr)
  | casTop (top next : Addr)
  -- `mmm_retire` and `mmm_empty`
  | retire (top : Addr) (item : ℕ)
  | scanStart (item : ℕ)
  | scan (item i lasttid lowest : ℕ)
  | free (item : ℕ) (cells : List Addr)
  -- `mmm_end_op`
  | endOp (reply : Reply)
  -- behind an access to a record that is not in use
  | crashed
deriving DecidableEq, Repr

/-- `mmm_thread_t`, and where the thread is. -/
structure Thread where
  pc : Pc
  retireCtr : ℕ
  retireList : List Addr
deriving DecidableEq, Repr

/-- The variables of mmm.c, the records in use, the stack and the threads. -/
structure State where
  nexttid : ℕ
  epoch : ℕ
  reservations : ThreadId → ℕ
  heap : Addr → Option Cell
  head : Addr
  thread : ThreadId → Thread

/-- What a thread does next. The allocator answers with `addr`. -/
inductive Act where
  | acquire
  | call (op : Op)
  | go (addr : Addr)
deriving DecidableEq, Repr

/-- A new stack, before any thread is known. -/
def State.init : State :=
  ⟨0, 1, fun _ => 0, fun _ => none, 0, fun _ => ⟨.unborn, 0, []⟩⟩

def State.setThread (s : State) (t : ThreadId) (th : Thread) : State :=
  { s with thread := Function.update s.thread t th }

/-- The thread goes on at `pc`. -/
def State.goto (s : State) (t : ThreadId) (pc : Pc) : State :=
  s.setThread t { s.thread t with pc }

def State.setCell (s : State) (a : Addr) (c : Option Cell) : State :=
  { s with heap := Function.update s.heap a c }

def State.setReservation (s : State) (t : ThreadId) (epoch : ℕ) : State :=
  { s with reservations := Function.update s.reservations t epoch }

/-! ## Steps -/

/-- An access to a record, or a crash. -/
def State.access (s : State) (t : ThreadId) (a : Addr) (k : Cell → State) : State :=
  match s.heap a with
  | none => s.goto t .crashed
  | some c => k c

/-- The head of the loop of `llstack_pop_mmm`, with the head of the stack in `old_head`. -/
def State.loop (s : State) (t : ThreadId) : State :=
  s.goto t (if s.head = 0 then .endOp (.popped none) else .readNext s.head)

/-- The two parts of a list of retired records: those that are kept, and those from the first one
that was retired before `lowest`. -/
def expired (heap : Addr → Option Cell) (lowest : ℕ) : List Addr → Option (List Addr × List Addr)
  | [] => some ([], [])
  | a :: rest =>
    (heap a).bind fun c =>
      if c.retireEpoch < lowest then some ([], a :: rest)
      else (expired heap lowest rest).map fun (kept, freed) => (a :: kept, freed)

/-- The records that are left to be freed, or the end of the operation. -/
def Pc.freeing (item : ℕ) : List Addr → Pc
  | [] => .endOp (.popped (some item))
  | cells => .free item cells

/-- One step within a call. -/
def State.go (s : State) (t : ThreadId) (addr : Addr) : Pc → Option State
  | .unborn | .idle | .crashed => none
  | .acquired => some ((s.setReservation t epochUnreserved).goto t .idle)
  | .start op => some (s.goto t (.reserve op s.epoch))
  | .reserve op epoch =>
    some ((s.setReservation t epoch).goto t
      (match op with
        | .push item => .alloc item
        | .pop => .readTop))
  | .alloc item =>
    if addr = 0 ∨ (s.heap addr).isSome then none
    else
      some ({ s.setCell addr (some ⟨0, 0, 0⟩) with epoch := (s.epoch + 1) % 2 ^ 64 }.goto t
        (.readHead item addr))
  | .readHead item node =>
    some (s.access t node fun c =>
      (s.setCell node (some { c with next := s.head, item })).goto t (.casHead item node s.head))
  | .casHead item node head =>
    if s.head = head then some ({ s with head := node }.goto t (.endOp .pushed))
    else
      some (s.access t node fun c =>
        (s.setCell node (some { c with next := s.head })).goto t (.casHead item node s.head))
  | .readTop => some (s.loop t)
  | .readNext top => some (s.access t top fun c => s.goto t (.casTop top c.next))
  | .casTop top next =>
    if s.head = top then
      some (s.access t top fun c => { s with head := next }.goto t (.retire top c.item))
    else some (s.loop t)
  | .retire top item =>
    some (s.access t top fun c =>
      let th := s.thread t
      let full := (th.retireCtr + 1) &&& retireFreq ≠ 0
      (s.setCell top (some { c with retireEpoch := s.epoch })).setThread t
        ⟨if full then .scanStart item else .endOp (.popped (some item)),
          if full then 0 else th.retireCtr + 1, top :: th.retireList⟩)
  | .scanStart item => some (s.goto t (.scan item 0 (min s.nexttid threadsMax) epochUnreserved))
  | .scan item i lasttid lowest =>
    if i < lasttid then
      let reservation := s.reservations i
      some (s.goto t
        (.scan item (i + 1) lasttid (if reservation < lowest then reservation else lowest)))
    else
      match expired s.heap lowest (s.thread t).retireList with
      | none => some (s.goto t .crashed)
      | some (kept, freed) =>
        some (s.setThread t { s.thread t with pc := .freeing item freed, retireList := kept })
  | .free _ [] => none
  | .free item (a :: cells) =>
    some (s.access t a fun _ => (s.setCell a none).goto t (.freeing item cells))
  | .endOp _ => some ((s.setReservation t epochUnreserved).goto t .idle)

/-- One step of a thread. -/
def State.step (s : State) (e : ThreadId × Act) : Option State :=
  let t := e.1
  match e.2 with
  | .acquire =>
    if t = s.nexttid ∧ t < threadsMax then
      some ({ s with nexttid := s.nexttid + 1 }.goto t .acquired)
    else none
  | .call op => if (s.thread t).pc = .idle then some (s.goto t (.start op)) else none
  | .go addr => s.go t addr (s.thread t).pc

/-- The calls and the returns. -/
def State.shown (s : State) (e : ThreadId × Act) : Option (Event ThreadId Op Reply) :=
  match e.2, (s.thread e.1).pc with
  | .call op, _ => some (.call e.1 op)
  | .go _, .endOp reply => some (.ret e.1 reply)
  | _, _ => none

/-- The epoch does not wrap around. -/
def State.Young (s : State) : Prop := s.epoch + 1 < 2 ^ 64

/-! ## What a stack is -/

/-- The operations of a stack. -/
def apply (items : List ℕ) : Op → List ℕ × Reply
  | .push item => (item :: items, .pushed)
  | .pop => (items.tail, .popped items.head?)

end N00b.Hatrack.LlStack
