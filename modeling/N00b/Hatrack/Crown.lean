import N00b.Hatrack.OrderedMap

/-!
# The table with a cache of its probes

`crown.c`, as one thread runs it. Every bucket has a map of 64 bits, for the hash values whose probe
starts there. The bit of a distance says that there may be such a value in the bucket at this
distance. An operation looks at the buckets of the map first, and probes on from the last of them.

## Representation

* With one thread a `CAS` on a word just read succeeds, and nothing else changes a map.
  `store_next` is `NULL` outside of a migration, and what frees memory is left out.
* The fields of `info` are apart. Counts, sizes and epochs are natural numbers, as are pointers.
* The shift of `CROWN_HOME_BIT` is taken modulo 64.
* The loop over the map runs at most 64 times, since every iteration clears a bit. An operation
  calls itself after a migration, for a given number of times, and has no result after these.
-/

namespace N00b.Hatrack

/-- `crown_record_t`, with the flags and the epoch of `info`. -/
structure CrownRecord where
  item : Item := null
  moving : Bool := false
  moved : Bool := false
  inited : Bool := false
  epoch : ℕ := 0
  deriving DecidableEq, Repr

/-- `crown_bucket_t`. -/
structure CrownBucket where
  record : CrownRecord := {}
  hv : Hash := 0
  neighborMap : BitVec 64 := 0
  deriving DecidableEq, Repr

/-- `crown_store_t`. -/
structure CrownStore where
  lastSlot : ℕ
  threshold : ℕ
  usedCount : ℕ
  buckets : List CrownBucket
  deriving DecidableEq, Repr

/-- `crown_t`. -/
structure Crown where
  storeCurrent : CrownStore
  itemCount : ℕ
  nextEpoch : ℕ
  helpNeeded : ℕ
  deriving DecidableEq, Repr

/-! ## Neighborhood maps -/

/-- `CROWN_HOME_BIT`. -/
def homeBit : BitVec 64 := 0x8000000000000000

/-- `CROWN_HOME_BIT >> i`. -/
def homeShift (i : ℕ) : BitVec 64 := homeBit >>> (i % 64)

/-- `CLZ`, the number of leading zeros. -/
def clz (map : BitVec 64) : ℕ := ((List.range 64).find? fun i => map.getMsbD i).getD 64

/-! ## Stores -/

/-- How a probe ends. The distance of a bucket that is not reserved comes with it. -/
inductive CrownProbe where
  | hit (bix : ℕ)
  | free (bix i : ℕ)
  | exhausted
  deriving DecidableEq, Repr

/-- How the loop over a map ends: at the bucket of the hash value, or with the distance to go on
from. -/
inductive MapProbe where
  | hit (bix : ℕ)
  | past (i : ℕ)
  deriving DecidableEq, Repr

namespace CrownStore

/-- `_crown_store_new`. -/
def new (size : ℕ) : CrownStore :=
  { lastSlot := size - 1, threshold := computeTableThreshold size, usedCount := 0,
    buckets := List.replicate size {} }

def bucket (s : CrownStore) (bix : ℕ) : CrownBucket := s.buckets.getD bix {}

def setBucket (s : CrownStore) (bix : ℕ) (b : CrownBucket) : CrownStore :=
  { s with buckets := s.buckets.set bix b }

def setHv (s : CrownStore) (bix : ℕ) (hv : Hash) : CrownStore :=
  s.setBucket bix { s.bucket bix with hv := hv }

def setRecord (s : CrownStore) (bix : ℕ) (record : CrownRecord) : CrownStore :=
  s.setBucket bix { s.bucket bix with record := record }

def setBit (s : CrownStore) (bix i : ℕ) : CrownStore :=
  s.setBucket bix
    { s.bucket bix with neighborMap := (s.bucket bix).neighborMap ||| homeShift i }

/-- The loop over the map of the bucket `bix`, for at most so many bits. -/
def mapLoop (s : CrownStore) (hv : Hash) (bix : ℕ) : ℕ → BitVec 64 → ℕ → MapProbe
  | 0, _, next => .past next
  | n + 1, map, next =>
    if map = 0 then .past next
    else if (s.bucket ((bix + clz map) &&& s.lastSlot)).hv = hv then
      .hit ((bix + clz map) &&& s.lastSlot)
    else s.mapLoop hv bix n (map &&& ~~~homeShift (clz map)) (clz map + 1)

/-- The loop over the map of the bucket where the probe of a hash value starts. -/
def probeMap (s : CrownStore) (hv : Hash) : MapProbe :=
  s.mapLoop hv (bucketIndex hv s.lastSlot) 64
    (s.bucket (bucketIndex hv s.lastSlot)).neighborMap 0

/-- The linear probe, for so many buckets, from distance `i` on. -/
def scan (s : CrownStore) (hv : Hash) : ℕ → ℕ → ℕ → CrownProbe
  | 0, _, _ => .exhausted
  | n + 1, i, bix =>
    if (s.bucket bix).hv = 0 then .free bix i
    else if (s.bucket bix).hv = hv then .hit bix
    else s.scan hv n (i + 1) ((bix + 1) &&& s.lastSlot)

/-- The linear probe that also sets the bits of the buckets whose probe starts at `orig`. -/
def scanHelp (s : CrownStore) (hv : Hash) (orig : ℕ) : ℕ → ℕ → ℕ → CrownStore × CrownProbe
  | 0, _, _ => (s, .exhausted)
  | n + 1, i, bix =>
    if (s.bucket bix).hv = 0 then (s, .free bix i)
    else if (s.bucket bix).hv = hv then (s, .hit bix)
    else
      let s' := if bucketIndex (s.bucket bix).hv s.lastSlot = orig then s.setBit orig i else s
      s'.scanHelp hv orig n (i + 1) ((bix + 1) &&& s.lastSlot)

/-- The probe of an operation that does not reserve a bucket, up to a distance. -/
def find (s : CrownStore) (hv : Hash) (bound : ℕ) : CrownProbe :=
  match s.probeMap hv with
  | .hit bix => .hit bix
  | .past i => s.scan hv (bound - i) i ((bucketIndex hv s.lastSlot + i) &&& s.lastSlot)

/-- The probe of an operation that may reserve a bucket. -/
def findHelp (s : CrownStore) (hv : Hash) : CrownStore × CrownProbe :=
  match s.probeMap hv with
  | .hit bix => (s, .hit bix)
  | .past i =>
    s.scanHelp hv (bucketIndex hv s.lastSlot) (s.lastSlot + 1 - i) i
      ((bucketIndex hv s.lastSlot + i) &&& s.lastSlot)

/-- `crown_store_get`. -/
def get (s : CrownStore) (hv : Hash) : Item × Bool :=
  match s.find hv s.lastSlot with
  | .hit bix =>
    if (s.bucket bix).record.epoch ≠ 0 then ((s.bucket bix).record.item, true) else (null, false)
  | _ => (null, false)

/-- The first loop of `crown_store_migrate`: what is not moved is marked as moved already. -/
def mark (b : CrownBucket) : CrownBucket :=
  if b.record.moving then b
  else if b.record.epoch ≠ 0 then { b with record := { b.record with moving := true } }
  else { b with record := { b.record with moving := true, moved := true } }

/-- The record goes to a bucket of the new store, if that has none. -/
def adopt (s : CrownStore) (bix : ℕ) (record : CrownRecord) : CrownStore :=
  if (s.bucket bix).record = {} then
    s.setRecord bix { item := record.item, epoch := record.epoch }
  else s

/-- The second loop of `crown_store_migrate`, for one bucket of the old store. The loop over the
new store leaves the last bucket it looked at behind. -/
def moveBucket (s : CrownStore) (b : CrownBucket) : CrownStore :=
  if b.record.moved then s
  else
    match s.scan b.hv (s.lastSlot + 1) 0 (bucketIndex b.hv s.lastSlot) with
    | .free bix j =>
      ((s.setHv bix b.hv).setBit (bucketIndex b.hv s.lastSlot) j).adopt bix b.record
    | .hit bix => s.adopt bix b.record
    | .exhausted => s.adopt ((bucketIndex b.hv s.lastSlot + s.lastSlot) &&& s.lastSlot) b.record

end CrownStore

/-! ## The table -/

namespace Crown

/-- `crown_init_size`. The size is shifted as an `int`, and `help_needed` is what the memory of the
table held before. -/
def initSize (size memory : ℕ) : Option Crown :=
  if minSizeLog ≤ size ∧ size ≤ 30 then
    some { storeCurrent := CrownStore.new (1 <<< size), itemCount := 0, nextEpoch := 1,
           helpNeeded := memory }
  else none

/-- `crown_store_migrate`. -/
def migrate (t : Crown) : Crown :=
  let store := t.storeCurrent
  let newUsed := store.buckets.countP fun b => b.record.epoch ≠ 0
  let newSize :=
    if t.helpNeeded ≠ 0 then (store.lastSlot + 1) <<< 1 else hatrackNewSize store.lastSlot newUsed
  let newStore :=
    (store.buckets.map CrownStore.mark).foldl CrownStore.moveBucket (CrownStore.new newSize)
  { t with storeCurrent := { newStore with usedCount := newUsed } }

/-- `crown_help_required`. -/
def helpRequired (count : ℕ) : Bool := count == 7

/-- `migrate_and_retry`: an operation that has tried too often asks for help while it retries. -/
def retry {ρ : Type} (again : ℕ → Crown → Option (Crown × ρ)) (count : ℕ) (t : Crown) :
    Option (Crown × ρ) :=
  if helpRequired (count + 1) then
    match again (count + 1) { t with helpNeeded := t.helpNeeded + 1 }.migrate with
    | none => none
    | some (t', r) => some ({ t' with helpNeeded := t'.helpNeeded - 1 }, r)
  else again (count + 1) t.migrate

/-- The migration after an operation that found the store full. -/
def migrateFull (t : Crown) : Crown :=
  if t.storeCurrent.threshold ≤ t.storeCurrent.usedCount then t.migrate else t

/-- The probe of an operation that may reserve a bucket, which it does. There is no bucket when the
store is full. -/
def reserve (t : Crown) (hv : Hash) : Crown × Option ℕ :=
  match t.storeCurrent.findHelp hv with
  | (s, .hit bix) => ({ t with storeCurrent := s }, some bix)
  | (s, .free bix i) =>
    let reserved := { s.setHv bix hv with usedCount := s.usedCount + 1 }
    if s.threshold ≤ s.usedCount then ({ t with storeCurrent := reserved }, none)
    else ({ t with storeCurrent := reserved.setBit (bucketIndex hv s.lastSlot) i }, some bix)
  | (s, .exhausted) => ({ t with storeCurrent := s }, none)

/-- An item comes to a bucket that has none. -/
def insertAt (t : Crown) (bix : ℕ) (item : Item) : Crown :=
  { t with
    storeCurrent :=
      t.storeCurrent.setRecord bix { item := item, inited := true, epoch := t.nextEpoch }
    itemCount := t.itemCount + 1
    nextEpoch := t.nextEpoch + 1 }

/-- Another item comes to a bucket, with the `info` that is there. -/
def overwriteAt (t : Crown) (bix : ℕ) (item : Item) : Crown :=
  { t with
    storeCurrent :=
      t.storeCurrent.setRecord bix { (t.storeCurrent.bucket bix).record with item := item } }

/-- `crown_store_put`. -/
def storePut (hv : Hash) (item : Item) : ℕ → ℕ → Crown → Option (Crown × (Item × Bool))
  | 0, _, _ => none
  | n + 1, count, t =>
    match t.reserve hv with
    | (t', none) => retry (storePut hv item n) count t'
    | (t', some bix) =>
      let record := (t'.storeCurrent.bucket bix).record
      if record.moving then retry (storePut hv item n) count t'
      else if record.epoch ≠ 0 then some (t'.overwriteAt bix item, (record.item, true))
      else some (t'.insertAt bix item, (null, false))

/-- `crown_store_replace`. -/
def storeReplace (hv : Hash) (item : Item) : ℕ → ℕ → Crown → Option (Crown × (Item × Bool))
  | 0, _, _ => none
  | n + 1, count, t =>
    match t.storeCurrent.find hv (t.storeCurrent.lastSlot + 1) with
    | .hit bix =>
      let record := (t.storeCurrent.bucket bix).record
      if record.moving then retry (storeReplace hv item n) count t
      else if record.epoch = 0 then some (t, (null, false))
      else some ((t.overwriteAt bix item).migrateFull, (record.item, true))
    | _ => some (t, (null, false))

/-- `crown_store_cas`: a replacement of the item that is expected. `found` is left out, as no caller
reads it. -/
def storeCas (hv : Hash) (item expected : Item) : ℕ → ℕ → Crown → Option (Crown × Item)
  | 0, _, _ => none
  | n + 1, count, t =>
    match t.storeCurrent.find hv (t.storeCurrent.lastSlot + 1) with
    | .hit bix =>
      let record := (t.storeCurrent.bucket bix).record
      if record.moving then retry (storeCas hv item expected n) count t
      else if record.epoch = 0 then some (t, null)
      else if record.item ≠ expected then some (t, null)
      else some ((t.overwriteAt bix item).migrateFull, record.item)
    | _ => some (t, null)

/-- `crown_store_add`. -/
def storeAdd (hv : Hash) (item : Item) : ℕ → ℕ → Crown → Option (Crown × Bool)
  | 0, _, _ => none
  | n + 1, count, t =>
    match t.reserve hv with
    | (t', none) => retry (storeAdd hv item n) count t'
    | (t', some bix) =>
      let record := (t'.storeCurrent.bucket bix).record
      if record.moving then retry (storeAdd hv item n) count t'
      else if record.epoch ≠ 0 then some (t', false)
      else some (t'.insertAt bix item, true)

/-- A removal leaves the bucket reserved. -/
def removeAt (t : Crown) (bix : ℕ) : Crown :=
  { t with
    storeCurrent := t.storeCurrent.setRecord bix { item := null, inited := true }
    itemCount := t.itemCount - 1 }

/-- `crown_store_remove`. -/
def storeRemove (hv : Hash) : ℕ → ℕ → Crown → Option (Crown × (Item × Bool))
  | 0, _, _ => none
  | n + 1, count, t =>
    match t.storeCurrent.find hv (t.storeCurrent.lastSlot + 1) with
    | .hit bix =>
      let record := (t.storeCurrent.bucket bix).record
      if record.moving then retry (storeRemove hv n) count t
      else if record.epoch = 0 then some (t, (null, false))
      else some ((t.removeAt bix).migrateFull, (record.item, true))
    | _ => some (t, (null, false))

def viewEntry (b : CrownBucket) : Option (Item × ℕ) :=
  if b.record.epoch = 0 then none else some (b.record.item, b.record.epoch)

/-- `crown_view`. -/
def view (t : Crown) (sort : Bool) : List (Item × ℕ) :=
  viewSort sort (t.storeCurrent.buckets.filterMap viewEntry)

/-- One operation. A table operation may call itself `n` times. -/
def exec (n : ℕ) (t : Crown) : TableOp → Option (Crown × TableReply)
  | .get hv => some (t, .item (t.storeCurrent.get hv).1 (t.storeCurrent.get hv).2)
  | .put hv item => (storePut hv item n 0 t).map fun (t', r) => (t', .item r.1 r.2)
  | .replace hv item => (storeReplace hv item n 0 t).map fun (t', r) => (t', .item r.1 r.2)
  | .add hv item => (storeAdd hv item n 0 t).map fun (t', r) => (t', .added r)
  | .remove hv => (storeRemove hv n 0 t).map fun (t', r) => (t', .item r.1 r.2)
  | .len => some (t, .len t.itemCount)
  | .view sort => some (t, .view ((t.view sort).map Prod.fst))

end Crown

end N00b.Hatrack
