import N00b.Hatrack.Common
import N00b.Hatrack.Stack

/-!
# The ring buffer

`hatring.c`, as one thread runs it. The items are in a ring of cells, each with the epoch of what was
last done to it. One word has the epochs of the next enqueue and of the next dequeue. An enqueue
always gets a cell. It may get ahead of the dequeues by more than the ring holds, and only the next
enqueue moves their epoch up.

## Representation

* With one thread, a `CAS` fails only where the cell is not what is expected. Nobody sleeps.
* The words are natural numbers with their widths. The flags of a cell are Booleans.
* `dropped` has the items that the drop handler was called with.
* A loop that ends only when something is found takes its number of iterations, and has no result
  when they are not enough.
-/

namespace N00b.Hatrack

/-! ## Epochs -/

def hatringIsLagging (readEpoch writeEpoch size : Nat) : Bool :=
  decide ((readEpoch + size) % 2 ^ 64 < writeEpoch)

def hatringEnqueueEpoch (ptrs : Nat) : Nat := ptrs / 2 ^ 32 % 2 ^ 32

def hatringDequeueEpoch (ptrs : Nat) : Nat := ptrs % 2 ^ 32

def hatringDequeueIx (epochs lastSlot : Nat) : Nat := (epochs &&& lastSlot % 2 ^ 32) % 2 ^ 32

def hatringFixedEpoch (writeEpoch storeSize : Nat) : Nat :=
  writeEpoch * 2 ^ 32 % 2 ^ 64 ||| (writeEpoch + 2 ^ 64 - storeSize) % 2 ^ 64

/-! ## Rings -/

/-- `hatring_item_t`. -/
structure RingItem where
  item : Item
  enqueued : Bool
  dequeued : Bool
  epoch : Nat
  deriving DecidableEq, Repr

/-- `hatring_t`. -/
structure HatRing where
  epochs : Nat
  dropHandler : Bool
  lastSlot : Nat
  size : Nat
  cells : Nat → RingItem
  dropped : List Item

/-- `HATRING_MINIMUM_SIZE`. -/
def hatringMinimumSize : Nat := 16

/-- `hatring_new`. -/
def hatringNew (numBuckets : Nat) : HatRing :=
  let numBuckets := hatrackRoundUpToPowerOf2 numBuckets
  let numBuckets := if numBuckets < hatringMinimumSize then hatringMinimumSize else numBuckets
  { epochs := numBuckets * 2 ^ 32 % 2 ^ 64 ||| numBuckets
    dropHandler := false
    lastSlot := numBuckets - 1
    size := numBuckets
    cells := fun _ => ⟨null, false, false, 0⟩
    dropped := [] }

namespace HatRing

def readEpoch (r : HatRing) : Nat := hatringDequeueEpoch r.epochs

def writeEpoch (r : HatRing) : Nat := hatringEnqueueEpoch r.epochs

/-- `hatring_set_drop_handler`. -/
def setDropHandler (handler : Bool) (r : HatRing) : HatRing := { r with dropHandler := handler }

/-- The call of the drop handler for what was in a cell. -/
def drop (expected : RingItem) (r : HatRing) : HatRing :=
  if expected.enqueued && r.dropHandler then { r with dropped := r.dropped ++ [expected.item] }
  else r

/-- What a successful `CAS` does to a cell. -/
def setCell (ix : Nat) (candidate : RingItem) (r : HatRing) : HatRing :=
  { r with cells := Function.update r.cells ix candidate }

end HatRing

def claimEpoch : Nat → HatRing → Option (HatRing × Nat)
  | 0, _ => none
  | fuel + 1, r =>
    let claimed := { r with epochs := (r.epochs + 2 ^ 32) % 2 ^ 64 }
    if r.writeEpoch < r.readEpoch then claimEpoch fuel claimed else some (claimed, r.writeEpoch)

/-- How an enqueue gets its epoch: it moves the epoch of the dequeues up if that lags behind. -/
def nextWriteEpoch (fuel : Nat) (r : HatRing) : Option (HatRing × Nat) :=
  if hatringIsLagging r.readEpoch r.writeEpoch r.size then
    some ({ r with epochs := hatringFixedEpoch ((r.writeEpoch + 1) % 2 ^ 32) r.size }, r.writeEpoch)
  else claimEpoch fuel r

/-- `hatring_enqueue`. -/
def hatringEnqueue (item : Item) : Nat → HatRing → Option (HatRing × Nat)
  | 0, _ => none
  | fuel + 1, r =>
    match nextWriteEpoch fuel r with
    | none => none
    | some (r, writeEpoch) =>
      let ix := writeEpoch &&& r.lastSlot
      let expected := r.cells ix
      if expected.epoch < writeEpoch then
        some ((r.setCell ix ⟨item, true, false, writeEpoch⟩).drop expected, writeEpoch)
      else hatringEnqueue item fuel r

/-- `hatring_dequeue`. Nothing is returned when nothing is found. -/
def hatringDequeue : Nat → HatRing → Option (HatRing × Option Item)
  | 0, _ => none
  | fuel + 1, r =>
    if r.readEpoch ≥ r.writeEpoch then some (r, none)
    else
      let epochs := r.epochs
      let readEpoch := r.readEpoch
      let writeEpoch := r.writeEpoch
      let r := { r with epochs := (epochs + 1) % 2 ^ 64 }
      let ix := hatringDequeueIx epochs r.lastSlot
      let expected := r.cells ix
      if expected.epoch ≤ readEpoch then
        let r := r.setCell ix ⟨null, false, true, readEpoch⟩
        if expected.epoch = readEpoch then some (r, some expected.item)
        else if (readEpoch + 1) % 2 ^ 32 = writeEpoch then some (r.drop expected, none)
        else hatringDequeue fuel (r.drop expected)
      else hatringDequeue fuel r

/-! ## Runs -/

inductive RingOp where
  | enqueue (item : Item)
  | dequeue
  deriving DecidableEq, Repr

inductive RingReply where
  | enqueued (epoch : Nat)
  | dequeued (found : Option Item)
  deriving DecidableEq, Repr

def RingOp.exec (fuel : Nat) (r : HatRing) : RingOp → Option (HatRing × RingReply)
  | enqueue item => (hatringEnqueue item fuel r).map fun p => (p.1, .enqueued p.2)
  | dequeue => (hatringDequeue fuel r).map fun p => (p.1, .dequeued p.2)

/-- Operations one after the other, with what they return. -/
def runRing (fuel : Nat) : List RingOp → HatRing → Option (HatRing × List RingReply)
  | [], r => some (r, [])
  | op :: ops, r => do
    let (r, reply) ← op.exec fuel r
    let (r, replies) ← runRing fuel ops r
    return (r, reply :: replies)

end N00b.Hatrack
