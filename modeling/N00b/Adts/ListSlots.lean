import N00b.Adts.Allocation
import N00b.Lib.Block
import N00b.Lib.Trace

/-!
# Lists

`list.nc`: an array of items that is given the slots it needs. A list has its own record of how many
there are, `length`, which some of the operations keep and some do not.

## Representation

* An operation has no result when it reads or writes outside of the slots behind `data`.
* A list that is another argument is given by its items. What `n00b_list_plus_eq` does when both
  arguments are one list is an operation of its own.
* `append_ix` and `length` are bit fields of 30 bits. Sizes in bytes do not overflow.
* `enforce_uniqueness` is off, as it is after `n00b_list_init`, and locks are left out.
-/

namespace N00b.Adts

open N00b (Block.load Block.store)

abbrev Item := ℕ

/-- `NULL`. -/
def null : Item := 0

/-- What a signed bit field of 30 bits holds after a store. -/
def int30 (x : ℤ) : ℤ := x.bmod (2 ^ 30)

/-- `n00b_gc_array_alloc`. -/
def arrayAlloc (n : ℕ) : List Item := List.replicate (arraySlots n) null

/-- `n00b_list_t`. -/
structure ListObj where
  data : List Item
  appendIx : ℤ
  length : ℤ
  deriving DecidableEq, Repr

namespace ListObj

/-- `n00b_list_init`. -/
def init (length : ℤ) : ListObj :=
  { data := arrayAlloc (int30 (max length 16)).toNat, appendIx := 0,
    length := int30 (max length 16) }

/-- `n00b_private_list_resize`. -/
def resize (l : ListObj) (len : ℕ) : Option ListObj :=
  (Block.fill (fun i => Block.load l.data i) 0 l.length.toNat (arrayAlloc len)).map fun new =>
    { l with data := new, length := int30 len }

/-- The list with room for `len` items, if it has to be resized. -/
def resizeIf (l : ListObj) (needed : Prop) [Decidable needed] (len : ℤ) : Option ListObj :=
  if needed then l.resize len.toNat else some l

/-- The index that a negative index stands for. -/
def fromEnd (l : ListObj) (ix : ℤ) : ℤ := if ix < 0 then ix + l.appendIx else ix

/-- `n00b_private_list_set`. -/
def set (l : ListObj) (ix : ℤ) (item : Item) : Option (ListObj × Bool) :=
  if l.fromEnd ix < 0 then some (l, false)
  else do
    let l' ← l.resizeIf (l.length ≤ l.fromEnd ix) (max (l.fromEnd ix) (l.length * 2))
    let data ← Block.store l'.data (l.fromEnd ix) item
    let appendIx := if l.appendIx ≤ l.fromEnd ix then int30 (l.fromEnd ix + 1) else l.appendIx
    some ({ l' with data := data, appendIx := appendIx }, true)

def push (l : ListObj) (item : Item) : Option ListObj :=
  (Block.store l.data l.appendIx item).map fun data =>
    { l with data := data, appendIx := int30 (l.appendIx + 1) }

/-- `n00b_private_list_append`, with `list_auto_resize`. -/
def append (l : ListObj) (item : Item) : Option ListObj := do
  let l' ← l.resizeIf (l.length ≤ l.appendIx) (l.length * 2)
  l'.push item

/-- `n00b_list_get_base`. -/
def getBase (l : ListObj) (ix : ℤ) : Option Item :=
  if ix < 0 ∨ l.appendIx ≤ ix then some null else Block.load l.data ix

/-- `n00b_private_list_pop`. -/
def pop (l : ListObj) : Option (ListObj × Item) :=
  if l.appendIx = 0 then some (l, null)
  else do
    let ret ← l.getBase (l.appendIx - 1)
    some ({ l with appendIx := int30 (l.appendIx - 1) }, ret)

/-- `n00b_private_list_plus_eq`, with another list. -/
def plusEq (l : ListObj) (items : List Item) : Option ListObj := do
  let l' ← l.resizeIf (l.length < l.appendIx + items.length) (l.appendIx + items.length)
  Block.loop (fun i l => (Block.load items i).bind l.push) items.length l'

/-- The loop of `n00b_private_list_plus_eq` when it adds a list to itself, for so many passes. Every
pass uses one more slot, so there are no more passes than slots. -/
def plusEqSelfLoop : ℕ → ℤ → ListObj → Option ListObj
  | 0, _, _ => none
  | n + 1, i, l =>
    if i < l.appendIx then
      ((Block.load l.data i).bind l.push).bind (plusEqSelfLoop n (i + 1))
    else some l

/-- `n00b_private_list_plus_eq`, with the list itself. -/
def plusEqSelf (l : ListObj) : Option ListObj := do
  let l' ← l.resizeIf (l.length < l.appendIx + l.appendIx) (l.appendIx + l.appendIx)
  plusEqSelfLoop (l'.data.length + 1) 0 l'

/-- The range of a slice of a list of `len` items, unless it is out of bounds. -/
def sliceRange (len start stop : ℤ) : Option (ℤ × ℤ) :=
  let first := if start < 0 then start + len else start
  let last := if stop < 0 then stop + len else min stop len
  if len ≤ start ∨ first < 0 ∨ last < 0 ∨ last ≤ first then none else some (first, last)

/-- `n00b_private_list_set_slice`. It raises when the slice is out of bounds. -/
def setSlice (l : ListObj) (start stop : ℤ) (items : List Item) : Option (ListObj × Bool) :=
  match sliceRange l.appendIx start stop with
  | none => some (l, false)
  | some (first, last) => do
    let newlen := l.appendIx + items.length - (last - first)
    let newdata ← Block.fill (fun i => l.getBase i) 0 first.toNat (arrayAlloc newlen.toNat)
    let newdata ← Block.fill (fun i => Block.load items i) first items.length newdata
    let newdata ← Block.fill (fun i => l.getBase (last + i)) (first + items.length)
      (l.appendIx - last).toNat newdata
    some ({ l with data := newdata,
                   appendIx := int30 (first + items.length + (l.appendIx - last)) }, true)

/-- The number of bytes that `list_remove_base` moves, an `int`. -/
def bytelen (l : ListObj) (index : ℤ) : ℤ := (8 * (l.appendIx - (index + 1))).bmod (2 ^ 32)

/-- `list_remove_base`. -/
def removeBase (l : ListObj) (index : ℤ) : Option ListObj :=
  if index + 1 = l.appendIx then
    (Block.store l.data index null).map fun data =>
      { l with data := data, appendIx := int30 (l.appendIx - 1) }
  else do
    let data ← Block.copy l.data index l.data (index + 1) (l.bytelen index / 8)
    let data ← Block.store data (int30 (l.appendIx - 1)) null
    some { l with data := data, appendIx := int30 (l.appendIx - 1) }

/-- `n00b_list_remove`. -/
def remove (l : ListObj) (index : ℤ) : Option (ListObj × Bool) :=
  if l.appendIx ≤ index ∨ l.fromEnd index < 0 then some (l, false)
  else (l.removeBase (l.fromEnd index)).map fun l' => (l', true)

/-- `n00b_list_dequeue`. -/
def dequeue (l : ListObj) : Option (ListObj × Item) :=
  if l.appendIx = 0 then some (l, null)
  else do
    let ret ← l.getBase 0
    let l' ← l.removeBase 0
    some (l', ret)

/-- One pass of the loop of `n00b_private_list_reverse`, which swaps two items. -/
def swap (l : ListObj) (i : ℕ) (data : List Item) : Option (List Item) := do
  let first ← Block.load data i
  let last ← Block.load data (l.appendIx - 1 - i)
  let data ← Block.store data (l.appendIx - 1 - i) first
  Block.store data i last

/-- `n00b_private_list_reverse`. -/
def reverse (l : ListObj) : Option ListObj :=
  (Block.loop l.swap (l.appendIx / 2).toNat l.data).map fun data => { l with data := data }

end ListObj

inductive ListOp where
  | append (item : Item)
  | set (ix : ℤ) (item : Item)
  | pop
  | dequeue
  | remove (index : ℤ)
  | plusEq (items : List Item)
  | plusEqSelf
  | setSlice (start stop : ℤ) (items : List Item)
  | resize (len : ℕ)
  | reverse
  deriving DecidableEq, Repr

namespace ListObj

def step (l : ListObj) : ListOp → Option ListObj
  | .append item => l.append item
  | .set ix item => (l.set ix item).map Prod.fst
  | .pop => l.pop.map Prod.fst
  | .dequeue => l.dequeue.map Prod.fst
  | .remove index => (l.remove index).map Prod.fst
  | .plusEq items => l.plusEq items
  | .plusEqSelf => l.plusEqSelf
  | .setSlice start stop items => (l.setSlice start stop items).map Prod.fst
  | .resize len => l.resize len
  | .reverse => l.reverse

end ListObj

end N00b.Adts
