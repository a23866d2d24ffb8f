import N00b.Hatrack.CrownMap
import N00b.Lib.Trace

/-!
# The table with a cache, where a shift leaves nothing

`crown.c` under the reading of its comments, that `CROWN_HOME_BIT >> i` is zero for an `i` of 64 or
more. A lookup only shifts by what `CLZ` returns, so it is the one of `Crown`. An insertion also
shifts by the distance it has probed to, when it reserves a bucket and when it helps: it then waits
for the bit that it sets.

## Representation

* `fuel` is the number of iterations of a loop that waits, and `n` the number of times an operation
  may call itself. There is no result when they are not enough.
* Everything else is as in `Crown`.
-/

namespace N00b.Hatrack.ZeroShift

/-- `CROWN_HOME_BIT >> i`. A shift of a `BitVec` by its width or more leaves zero. -/
def bitToSet (i : ℕ) : BitVec 64 := homeBit >>> i

/-- `while (!(map & bit_to_set))`, with the map in the bucket and the copy of it. The copy stays as
it is when the `CAS` succeeds, and is what the bucket has when it fails. -/
def helpLoop (bit : BitVec 64) : ℕ → BitVec 64 → BitVec 64 → Option (BitVec 64)
  | 0, _, _ => none
  | fuel + 1, neighborMap, map =>
    if map &&& bit ≠ 0 then some neighborMap
    else if neighborMap = map then helpLoop bit fuel (map ||| bit) map
    else helpLoop bit fuel neighborMap neighborMap

/-! ## Stores -/

def setMap (s : CrownStore) (bix : ℕ) (map : BitVec 64) : CrownStore :=
  s.setBucket bix { s.bucket bix with neighborMap := map }

def setBit (s : CrownStore) (bix i : ℕ) : CrownStore :=
  setMap s bix ((s.bucket bix).neighborMap ||| bitToSet i)

/-- The linear probe that also sets the bits of the buckets whose probe starts at `orig`. -/
def scanHelp (fuel : ℕ) (hv : Hash) (orig : ℕ) :
    ℕ → CrownStore → ℕ → ℕ → Option (CrownStore × CrownProbe)
  | 0, s, _, _ => some (s, .exhausted)
  | n + 1, s, i, bix =>
    if (s.bucket bix).hv = 0 then some (s, .free bix i)
    else if (s.bucket bix).hv = hv then some (s, .hit bix)
    else if bucketIndex (s.bucket bix).hv s.lastSlot = orig then
      match helpLoop (bitToSet i) fuel (s.bucket orig).neighborMap
          (s.bucket orig).neighborMap with
      | none => none
      | some map =>
        scanHelp fuel hv orig n (setMap s orig map) (i + 1) ((bix + 1) &&& s.lastSlot)
    else scanHelp fuel hv orig n s (i + 1) ((bix + 1) &&& s.lastSlot)

/-- The probe of an operation that may reserve a bucket. -/
def findHelp (fuel : ℕ) (s : CrownStore) (hv : Hash) : Option (CrownStore × CrownProbe) :=
  match s.probeMap hv with
  | .hit bix => some (s, .hit bix)
  | .past i =>
    scanHelp fuel hv (bucketIndex hv s.lastSlot) (s.lastSlot + 1 - i) s i
      ((bucketIndex hv s.lastSlot + i) &&& s.lastSlot)

/-- The second loop of `crown_store_migrate`, for one bucket of the old store. -/
def moveBucket (s : CrownStore) (b : CrownBucket) : CrownStore :=
  if b.record.moved then s
  else
    match s.scan b.hv (s.lastSlot + 1) 0 (bucketIndex b.hv s.lastSlot) with
    | .free bix j =>
      (setBit (s.setHv bix b.hv) (bucketIndex b.hv s.lastSlot) j).adopt bix b.record
    | .hit bix => s.adopt bix b.record
    | .exhausted => s.adopt ((bucketIndex b.hv s.lastSlot + s.lastSlot) &&& s.lastSlot) b.record

/-! ## The table -/

/-- `crown_store_migrate`. -/
def migrate (t : Crown) : Crown :=
  let store := t.storeCurrent
  let newUsed := store.buckets.countP fun b => b.record.epoch ≠ 0
  let newSize :=
    if t.helpNeeded ≠ 0 then (store.lastSlot + 1) <<< 1 else hatrackNewSize store.lastSlot newUsed
  let newStore :=
    (store.buckets.map CrownStore.mark).foldl moveBucket (CrownStore.new newSize)
  { t with storeCurrent := { newStore with usedCount := newUsed } }

/-- `migrate_and_retry`. -/
def retry {ρ : Type} (again : ℕ → Crown → Option (Crown × ρ)) (count : ℕ) (t : Crown) :
    Option (Crown × ρ) :=
  if Crown.helpRequired (count + 1) then
    match again (count + 1) (migrate { t with helpNeeded := t.helpNeeded + 1 }) with
    | none => none
    | some (t', r) => some ({ t' with helpNeeded := t'.helpNeeded - 1 }, r)
  else again (count + 1) (migrate t)

/-- The probe of an operation that may reserve a bucket, which it does. There is no bucket when the
store is full. -/
def reserve (fuel : ℕ) (t : Crown) (hv : Hash) : Option (Crown × Option ℕ) :=
  match findHelp fuel t.storeCurrent hv with
  | none => none
  | some (s, .hit bix) => some ({ t with storeCurrent := s }, some bix)
  | some (s, .free bix i) =>
    let reserved := { s.setHv bix hv with usedCount := s.usedCount + 1 }
    if s.threshold ≤ s.usedCount then some ({ t with storeCurrent := reserved }, none)
    else
      some ({ t with storeCurrent := setBit reserved (bucketIndex hv s.lastSlot) i }, some bix)
  | some (s, .exhausted) => some ({ t with storeCurrent := s }, none)

/-- `crown_store_put`. -/
def storePut (fuel : ℕ) (hv : Hash) (item : Item) :
    ℕ → ℕ → Crown → Option (Crown × (Item × Bool))
  | 0, _, _ => none
  | n + 1, count, t =>
    match reserve fuel t hv with
    | none => none
    | some (t', none) => retry (storePut fuel hv item n) count t'
    | some (t', some bix) =>
      let record := (t'.storeCurrent.bucket bix).record
      if record.moving then retry (storePut fuel hv item n) count t'
      else if record.epoch ≠ 0 then some (t'.overwriteAt bix item, (record.item, true))
      else some (t'.insertAt bix item, (null, false))

/-- `crown_store_add`. -/
def storeAdd (fuel : ℕ) (hv : Hash) (item : Item) : ℕ → ℕ → Crown → Option (Crown × Bool)
  | 0, _, _ => none
  | n + 1, count, t =>
    match reserve fuel t hv with
    | none => none
    | some (t', none) => retry (storeAdd fuel hv item n) count t'
    | some (t', some bix) =>
      let record := (t'.storeCurrent.bucket bix).record
      if record.moving then retry (storeAdd fuel hv item n) count t'
      else if record.epoch ≠ 0 then some (t', false)
      else some (t'.insertAt bix item, true)

/-! ## Insertions -/

inductive Insertion where
  | put (hv : Hash) (item : Item)
  | add (hv : Hash) (item : Item)
  deriving DecidableEq, Repr

def Insertion.hv : Insertion → Hash
  | .put hv _ | .add hv _ => hv

/-- `crown_put` and `crown_add`: the table after an insertion. -/
def exec (fuel n : ℕ) (t : Crown) : Insertion → Option Crown
  | .put hv item => (storePut fuel hv item n 0 t).map Prod.fst
  | .add hv item => (storeAdd fuel hv item n 0 t).map Prod.fst

/-- The item that is stored for a hash value after an insertion. An addition leaves the one that is
there. -/
def stored (t : Crown) : Insertion → Item
  | .put _ item => item
  | .add hv item =>
    if (t.storeCurrent.get hv).2 then (t.storeCurrent.get hv).1 else item

end N00b.Hatrack.ZeroShift
