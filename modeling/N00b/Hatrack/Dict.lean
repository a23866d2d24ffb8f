import N00b.Hatrack.CrownMap
import N00b.Lib.Trace

/-!
# Dictionaries

`dict.c`: a table of records, each with a key and a value. Every operation makes a record of what it
is given, and hands it to the table under the hash value of the key. A record that is not in the
table any more is retired.

## Representation

* `items` has the records in the order of their allocation. A pointer to the first of them is 1.
* `dealloc` says whether the program is built without `HATRACK_DONT_DEALLOC`. With that macro,
  `mmm_retire` and `mmm_retire_unused` are empty. `retired` has the pointers they are given, and
  `none` for a variable nobody has set.
* The hash function is a parameter, as are the type of keys and the number of times that a table
  operation may call itself. Values are pointers.
* `none` is the result of an access by a pointer that is `NULL`.
-/

namespace N00b.Hatrack

variable {κ : Type}

/-- `hatrack_dict_item_t`. -/
structure DictItem (κ : Type) where
  key : κ
  value : Item
  deriving DecidableEq, Repr

/-- `hatrack_dict_t`. -/
structure HatrackDict (κ : Type) where
  crownInstance : Crown
  freeHandler : Bool
  slowViews : Bool
  items : List (DictItem κ)
  dealloc : Bool
  retired : List (Option Item)

namespace HatrackDict

/-- `hatrack_dict_init`. The table has the default size. -/
def init (κ : Type) (dealloc : Bool) (memory : ℕ) : Option (HatrackDict κ) :=
  (Crown.initSize minSizeLog memory).map fun crown =>
    { crownInstance := crown, freeHandler := false, slowViews := true, items := [],
      dealloc := dealloc, retired := [] }

/-! ## Records -/

def record (d : HatrackDict κ) (p : Item) : Option (DictItem κ) :=
  if p = null then none else d.items[p - 1]?

/-- `mmm_alloc_committed`, and what is written to the new record. -/
def alloc (d : HatrackDict κ) (key : κ) (value : Item) : HatrackDict κ :=
  { d with items := d.items ++ [⟨key, value⟩] }

/-- The address of the record allocated last. -/
def newItem (d : HatrackDict κ) : Item := d.items.length

/-- `mmm_retire` and `mmm_retire_unused`. -/
def retire (d : HatrackDict κ) (p : Option Item) : HatrackDict κ :=
  if d.dealloc then { d with retired := d.retired ++ [p] } else d

/-- `mmm_add_cleanup_handler`, if there is a handler, and `mmm_retire` for a record. -/
def eject (d : HatrackDict κ) (p : Item) : Option (HatrackDict κ) :=
  if d.freeHandler && p == null then none else some (d.retire (some p))

def withCrown (d : HatrackDict κ) (crown : Crown) : HatrackDict κ :=
  { d with crownInstance := crown }

/-! ## Operations -/

variable (hash : κ → Hash) (n : ℕ)

/-- `hatrack_dict_get`, with `found`. -/
def get (d : HatrackDict κ) (key : κ) : Option (Item × Bool) :=
  let item := (d.crownInstance.storeCurrent.get (hash key)).1
  if item = null then some (null, false)
  else (d.record item).map fun r => (r.value, true)

/-- `hatrack_dict_put`. -/
def put (d : HatrackDict κ) (key : κ) (value : Item) : Option (HatrackDict κ) :=
  let d := d.alloc key value
  match Crown.storePut (hash key) d.newItem n 0 d.crownInstance with
  | none => none
  | some (crown, oldItem, _) =>
    if oldItem ≠ null then (d.withCrown crown).eject oldItem else some (d.withCrown crown)

/-- `hatrack_dict_replace`. It calls `crown_store_put`. -/
def replace (d : HatrackDict κ) (key : κ) (value : Item) : Option (HatrackDict κ × Bool) :=
  let d := d.alloc key value
  match Crown.storePut (hash key) d.newItem n 0 d.crownInstance with
  | none => none
  | some (crown, oldItem, _) =>
    if oldItem ≠ null then ((d.withCrown crown).eject oldItem).map fun d => (d, true)
    else some ((d.withCrown crown).retire (some d.newItem), false)

/-- `hatrack_dict_add`. -/
def add (d : HatrackDict κ) (key : κ) (value : Item) : Option (HatrackDict κ × Bool) :=
  let d := d.alloc key value
  match Crown.storeAdd (hash key) d.newItem n 0 d.crownInstance with
  | none => none
  | some (crown, true) => some (d.withCrown crown, true)
  | some (crown, false) => some ((d.withCrown crown).retire (some d.newItem), false)

/-- The end of `hatrack_dict_cas`: a record that was expected, or `NULL`, is exchanged. -/
def exchange (d : HatrackDict κ) (key : κ) (value oldItem : Item) :
    Option (HatrackDict κ × Bool) :=
  let d := d.alloc key value
  match Crown.storeCas (hash key) d.newItem oldItem n 0 d.crownInstance with
  | none => none
  | some (crown, found) =>
    if found ≠ oldItem then some ((d.withCrown crown).retire (some d.newItem), false)
    else ((d.withCrown crown).eject oldItem).map fun d => (d, true)

/-- `hatrack_dict_cas`. Where the value is not the expected one, `new_item` is not set. -/
def cas (d : HatrackDict κ) (key : κ) (value expected : Item) (nullMeansMissing : Bool) :
    Option (HatrackDict κ × Bool) :=
  let oldItem := (d.crownInstance.storeCurrent.get (hash key)).1
  if oldItem = null ∧ nullMeansMissing = true ∧ expected = null then d.add hash n key value
  else if oldItem = null then d.exchange hash n key value oldItem
  else
    match d.record oldItem with
    | none => none
    | some r =>
      if r.value ≠ expected then some (d.retire none, false)
      else d.exchange hash n key value oldItem

/-- `hatrack_dict_remove`. -/
def remove (d : HatrackDict κ) (key : κ) : Option (HatrackDict κ × Bool) :=
  match Crown.storeRemove (hash key) n 0 d.crownInstance with
  | none => none
  | some (crown, oldItem, _) =>
    if oldItem ≠ null then ((d.withCrown crown).eject oldItem).map fun d => (d, true)
    else some (d.withCrown crown, false)

/-- `hatrack_dict_items_base`. A slow view, `crown_view_slow`, is one of the store that it migrates
away from. -/
def view (d : HatrackDict κ) (sort : Bool) : Option (HatrackDict κ × List (DictItem κ)) :=
  let d' := if d.slowViews then d.withCrown d.crownInstance.migrate else d
  ((d.crownInstance.view sort).mapM fun e => d.record e.1).map fun rs => (d', rs)

end HatrackDict

/-! ## Histories -/

inductive DictOp (κ : Type) where
  | get (key : κ)
  | put (key : κ) (value : Item)
  | replace (key : κ) (value : Item)
  | cas (key : κ) (value expected : Item) (nullMeansMissing : Bool)
  | add (key : κ) (value : Item)
  | remove (key : κ)
  | view (sort : Bool)
  | setFreeHandler (handler : Bool)
  | setConsistentViews (value : Bool)
  deriving DecidableEq, Repr

namespace HatrackDict

/-- The dictionary after one operation. -/
def exec (hash : κ → Hash) (n : ℕ) (d : HatrackDict κ) : DictOp κ → Option (HatrackDict κ)
  | .get key => (d.get hash key).map fun _ => d
  | .put key value => d.put hash n key value
  | .replace key value => (d.replace hash n key value).map Prod.fst
  | .cas key value expected nullMeansMissing =>
    (d.cas hash n key value expected nullMeansMissing).map Prod.fst
  | .add key value => (d.add hash n key value).map Prod.fst
  | .remove key => (d.remove hash n key).map Prod.fst
  | .view sort => (d.view sort).map Prod.fst
  | .setFreeHandler handler => some { d with freeHandler := handler }
  | .setConsistentViews value => some { d with slowViews := value }

end HatrackDict

end N00b.Hatrack
