import N00b.Hatrack.OrderedMap

/-!
# The reference table

`refhat.c`. A bucket holds its hash value, its item and the number of the insertion of the item, or
zero when there is none. The table migrates when one more bucket would reach its threshold.

## Representation

* The numbers of C are natural numbers, and pointers to items are numbers.
* Behind the loop over the buckets of a hash value the code has `__builtin_unreachable`. There an
  operation has no result. `put` and `add` call themselves after a migration, for a given number of
  times, and have no result after these either.
* What a removal leaves in a bucket stays there, as in the code.
-/

namespace N00b.Hatrack

open Probing (Outcome)

/-- `refhat_bucket_t`. -/
structure RefhatBucket where
  hv : Hash := 0
  item : Item := null
  epoch : ℕ := 0
  deriving DecidableEq, Repr

/-- `refhat_t`. -/
structure Refhat where
  lastSlot : ℕ
  threshold : ℕ
  usedCount : ℕ
  itemCount : ℕ
  nextEpoch : ℕ
  buckets : List RefhatBucket
  deriving DecidableEq, Repr

namespace Refhat

/-- `refhat_init_size`. The size is shifted as an `int`. -/
def initSize (size : ℕ) : Option Refhat :=
  if minSizeLog ≤ size ∧ size ≤ 30 then
    some { lastSlot := 1 <<< size - 1, threshold := computeTableThreshold (1 <<< size),
           usedCount := 0, itemCount := 0, nextEpoch := 1,
           buckets := List.replicate (1 <<< size) {} }
  else none

def bucket (t : Refhat) (bix : ℕ) : RefhatBucket := t.buckets.getD bix {}

def setBucket (t : Refhat) (bix : ℕ) (b : RefhatBucket) : Refhat :=
  { t with buckets := t.buckets.set bix b }

/-- The loop over the buckets of a hash value, for so many of them. -/
def probe (t : Refhat) (hv : Hash) : ℕ → ℕ → Outcome
  | 0, _ => .exhausted
  | n + 1, bix =>
    if hv = (t.bucket bix).hv then .hit bix
    else if (t.bucket bix).hv = 0 then .free bix
    else t.probe hv n ((bix + 1) &&& t.lastSlot)

/-- The bucket of a hash value, or the one it would get. -/
def find (t : Refhat) (hv : Hash) : Outcome :=
  t.probe hv (t.lastSlot + 1) (bucketIndex hv t.lastSlot)

/-- The loop of `refhat_migrate` over the buckets of a hash value, for so many of them. -/
def probeFree (buckets : List RefhatBucket) (lastSlot : ℕ) : ℕ → ℕ → Option ℕ
  | 0, _ => none
  | n + 1, bix =>
    if (buckets.getD bix {}).hv = 0 then some bix
    else probeFree buckets lastSlot n ((bix + 1) &&& lastSlot)

/-- The loop of `refhat_migrate`, for one of the old buckets. -/
def moveBucket (numBuckets : ℕ) (buckets : List RefhatBucket) (cur : RefhatBucket) :
    List RefhatBucket :=
  if cur.hv = 0 ∨ cur.epoch = 0 then buckets
  else
    match probeFree buckets (numBuckets - 1) numBuckets (bucketIndex cur.hv (numBuckets - 1)) with
    | some bix => buckets.set bix { hv := cur.hv, item := cur.item, epoch := cur.epoch }
    | none => buckets

/-- `refhat_migrate`. -/
def migrate (t : Refhat) : Refhat :=
  let numBuckets := hatrackNewSize t.lastSlot (t.itemCount + 1)
  { t with
    lastSlot := numBuckets - 1
    threshold := computeTableThreshold numBuckets
    usedCount := t.itemCount
    buckets := t.buckets.foldl (moveBucket numBuckets) (List.replicate numBuckets {}) }

/-- `refhat_get`. -/
def get (t : Refhat) (hv : Hash) : Option (Item × Bool) :=
  match t.find hv with
  | .hit bix =>
    if (t.bucket bix).epoch = 0 then some (null, false) else some ((t.bucket bix).item, true)
  | .free _ => some (null, false)
  | .exhausted => none

/-- An item comes to a bucket that has none. -/
def insertAt (t : Refhat) (bix : ℕ) (item : Item) : Refhat :=
  { t.setBucket bix { t.bucket bix with item := item, epoch := t.nextEpoch } with
    itemCount := t.itemCount + 1, nextEpoch := t.nextEpoch + 1 }

/-- A bucket is reserved, and an item comes to it. -/
def reserveAt (t : Refhat) (bix : ℕ) (hv : Hash) (item : Item) : Refhat :=
  { t.setBucket bix { hv := hv, item := item, epoch := t.nextEpoch } with
    usedCount := t.usedCount + 1, itemCount := t.itemCount + 1, nextEpoch := t.nextEpoch + 1 }

def overwriteAt (t : Refhat) (bix : ℕ) (item : Item) : Refhat :=
  t.setBucket bix { t.bucket bix with item := item }

/-- `refhat_put`. -/
def put (hv : Hash) (item : Item) : ℕ → Refhat → Option (Refhat × (Item × Bool))
  | 0, _ => none
  | n + 1, t =>
    match t.find hv with
    | .hit bix =>
      if (t.bucket bix).epoch = 0 then some (t.insertAt bix item, (null, false))
      else some (t.overwriteAt bix item, ((t.bucket bix).item, true))
    | .free bix =>
      if t.usedCount + 1 = t.threshold then put hv item n t.migrate
      else some (t.reserveAt bix hv item, (null, false))
    | .exhausted => none

/-- `refhat_replace`. -/
def replace (t : Refhat) (hv : Hash) (item : Item) : Option (Refhat × (Item × Bool)) :=
  match t.find hv with
  | .hit bix =>
    if (t.bucket bix).epoch = 0 then some (t, (null, false))
    else some (t.overwriteAt bix item, ((t.bucket bix).item, true))
  | .free _ => some (t, (null, false))
  | .exhausted => none

/-- `refhat_add`. -/
def add (hv : Hash) (item : Item) : ℕ → Refhat → Option (Refhat × Bool)
  | 0, _ => none
  | n + 1, t =>
    match t.find hv with
    | .hit bix =>
      if (t.bucket bix).epoch = 0 then some (t.insertAt bix item, true) else some (t, false)
    | .free bix =>
      if t.usedCount + 1 = t.threshold then add hv item n t.migrate
      else some (t.reserveAt bix hv item, true)
    | .exhausted => none

/-- `refhat_remove`. -/
def remove (t : Refhat) (hv : Hash) : Option (Refhat × (Item × Bool)) :=
  match t.find hv with
  | .hit bix =>
    if (t.bucket bix).epoch = 0 then some (t, (null, false))
    else
      some ({ t.setBucket bix { t.bucket bix with epoch := 0 } with itemCount := t.itemCount - 1 },
        ((t.bucket bix).item, true))
  | .free _ => some (t, (null, false))
  | .exhausted => none

def viewEntry (b : RefhatBucket) : Option (Item × ℕ) :=
  if b.hv = 0 ∨ b.epoch = 0 then none else some (b.item, b.epoch)

/-- `refhat_view`. -/
def view (t : Refhat) (sort : Bool) : List (Item × ℕ) :=
  viewSort sort (t.buckets.filterMap viewEntry)

/-- One operation. A table operation may call itself `n` times. -/
def exec (n : ℕ) (t : Refhat) : TableOp → Option (Refhat × TableReply)
  | .get hv => (t.get hv).map fun r => (t, .item r.1 r.2)
  | .put hv item => (put hv item n t).map fun (t', r) => (t', .item r.1 r.2)
  | .replace hv item => (t.replace hv item).map fun (t', r) => (t', .item r.1 r.2)
  | .add hv item => (add hv item n t).map fun (t', r) => (t', .added r)
  | .remove hv => (t.remove hv).map fun (t', r) => (t', .item r.1 r.2)
  | .len => some (t, .len t.itemCount)
  | .view sort => some (t, .view ((t.view sort).map Prod.fst))

end Refhat

end N00b.Hatrack
