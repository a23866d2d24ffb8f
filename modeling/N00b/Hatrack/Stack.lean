import Mathlib

/-!
# The array stack

`stack.c`, as one thread runs it. The items are in the cells of a store. The head of a store is one
word of an epoch and the index of the next cell to push to. A pop leaves its epoch in the cell, and
a cell with an epoch that is not over is not pushed to. When the store is full, what is left of it
moves to a new one.

## Representation

* With one thread, a `CAS` fails only where the cell is not what is expected, and the store that an
  operation reads is the current one, which nobody is moving.
* The words are natural numbers with their widths. The fields of the head are at multiples of powers
  of two, so the masks are written with `/` and `%`.
* The flags of a cell are Booleans. The memory of a store is a function, with empty cells everywhere
  behind the store.
* What only other threads see or what frees memory is left out.
* A loop that ends only when something is found takes its number of iterations, and has no result
  when they are not enough.
-/

namespace N00b.Hatrack

/-! ## Cells -/

/-- The flags of `stack_item_t`. -/
structure CellState where
  pushed : Bool
  popped : Bool
  moving : Bool
  moved : Bool
  deriving DecidableEq, Repr

/-- `stack_item_t`. -/
structure StackItem (α : Type) where
  item : Option α
  state : CellState
  validAfter : Nat
  deriving DecidableEq, Repr

variable {α : Type}

def protoItemEmpty : StackItem α := ⟨none, ⟨false, false, false, false⟩, 0⟩

def protoItemPop : StackItem α := ⟨none, ⟨false, true, false, false⟩, 0⟩

def protoItemPushed : StackItem α := ⟨none, ⟨true, false, false, false⟩, 0⟩

def stateAddMoved (old : CellState) : CellState := { old with moving := true, moved := true }

def stateAddMoving (old : CellState) : CellState := { old with moving := true }

def cellCanPush (item : StackItem α) (epoch : Nat) : Bool := !decide (item.validAfter ≥ epoch)

/-! ## The head -/

def headIsMoving (n storeSize : Nat) : Bool := decide (n % 2 ^ 32 ≥ storeSize)

def headGetEpoch (n : Nat) : Nat := n / 2 ^ 32 % 2 ^ 32

def headGetIndex (n : Nat) : Nat := n % 2 ^ 32

/-- `head_candidate_new_epoch`. The mask drops the upper bit of the epoch. -/
def headCandidateNewEpoch (n ix : Nat) : Nat := n / 2 ^ 32 % 2 ^ 31 * 2 ^ 32 + ix % 2 ^ 32 + 2 ^ 32

/-! ## Stores -/

abbrev Cells (α : Type) := Nat → StackItem α

def Cells.set (cells : Cells α) (i : Nat) (item : StackItem α) : Cells α :=
  fun k => if k = i then item else cells k

/-- `stack_store_t`. -/
structure StackStore (α : Type) where
  numCells : Nat
  headState : Nat
  claimed : Bool
  cells : Cells α

/-- `hatstack_new_store`. `HATSTACK_MIN_STORE_SZ_LOG` is 6. -/
def hatstackNewStore (numCells : Nat) : StackStore α where
  numCells := if numCells < 64 then 64 else numCells
  headState := headCandidateNewEpoch 0 0
  claimed := false
  cells := fun _ => protoItemEmpty

def hatrackRoundUpToPowerOf2 (n : Nat) : Nat :=
  if n &&& (n - 1) = 0 then n else 2 ^ (Nat.log2 n + 1)

/-- `hatstack_new`. -/
def hatstackNew (prealloc : Nat) : StackStore α :=
  hatstackNewStore (hatrackRoundUpToPowerOf2 prealloc)

/-- What the first loop of `hatstack_grow_store` leaves in a cell. -/
def markedItem (candidate expected : StackItem α) : StackItem α :=
  if !expected.state.pushed then
    { candidate with item := none, state := stateAddMoved expected.state }
  else { expected with state := stateAddMoving expected.state }

/-- The first loop of `hatstack_grow_store`, which marks all cells and counts the items. -/
def markLoop (numCells i : Nat) (cells : Cells α) (candidate : StackItem α) (j : Nat) :
    Cells α × Nat :=
  if i < numCells then
    let expected := cells i
    let j' := if expected.state.pushed then j + 1 else j
    if expected.state.moving then markLoop numCells (i + 1) cells candidate j'
    else
      let candidate' := markedItem candidate expected
      markLoop numCells (i + 1) (cells.set i candidate') candidate' j'
  else (cells, j)
termination_by numCells - i

variable [DecidableEq α]

/-- The second loop of `hatstack_grow_store`, which moves the items down in the new store. -/
def moveLoop (numCells i : Nat) (cells next : Cells α) (j : Nat) : Cells α × Cells α × Nat :=
  if i < numCells then
    let oldItem := cells i
    if oldItem.state.moved then
      moveLoop numCells (i + 1) cells next (if oldItem.state.pushed then j + 1 else j)
    else
      let next' :=
        if next j = protoItemEmpty then
          next.set j { (protoItemPushed : StackItem α) with item := oldItem.item }
        else next
      moveLoop numCells (i + 1) (cells.set i { oldItem with state := stateAddMoved oldItem.state })
        next' (j + 1)
  else (cells, next, j)
termination_by numCells - i

/-- `hatstack_grow_store`. The old store, as it is left for views, and the new one. -/
def hatstackGrowStore (store : StackStore α) : StackStore α × StackStore α :=
  let marked := markLoop store.numCells 0 store.cells ⟨none, ⟨false, false, false, false⟩, 0⟩ 0
  let nextStore : StackStore α :=
    hatstackNewStore (if marked.2 < store.numCells / 2 then store.numCells else store.numCells * 2)
  let moved := moveLoop store.numCells 0 marked.1 nextStore.cells 0
  ({ store with cells := moved.1 },
    { nextStore with cells := moved.2.1, headState := headCandidateNewEpoch 0 moved.2.2 })

/-! ## Operations -/

/-- `hatstack_push_mmm`. -/
def pushLoop : (iterations : Nat) → StackStore α → α → Option (StackStore α)
  | 0, _, _ => none
  | n + 1, store, item =>
    let headState := store.headState
    let store := { store with headState := (headState + 1) % 2 ^ 64 }
    if headIsMoving headState store.numCells then pushLoop n (hatstackGrowStore store).2 item
    else
      let epoch := headGetEpoch headState
      let ix := headGetIndex headState
      let candidate := { (protoItemPushed : StackItem α) with
        item := some item, validAfter := (epoch + 2 ^ 32 - 1) % 2 ^ 32 }
      let expected := store.cells ix
      if expected = protoItemEmpty then some { store with cells := store.cells.set ix candidate }
      else if expected.state.moving then pushLoop n (hatstackGrowStore store).2 item
      else if !cellCanPush expected epoch then pushLoop n store item
      else some { store with cells := store.cells.set ix candidate }

/-- How the inner loop of `hatstack_pop_mmm` ends. -/
inductive PopEnd (α : Type) where
  /-- `goto top_loop`. -/
  | again (cells : Cells α)
  | notFound (cells : Cells α)
  | found (cells : Cells α) (ix : Nat) (item : Option α)

/-- The inner loop of `hatstack_pop_mmm`, which goes down the stack. -/
def popDown (epoch : Nat) (cells : Cells α) (ix : Nat) : PopEnd α :=
  let candidate := { (protoItemPop : StackItem α) with validAfter := epoch }
  let expected := cells ix
  if expected.state.moving then .again cells
  else if !expected.state.pushed then
    if expected.validAfter ≥ epoch then
      match ix with
      | 0 => .notFound cells
      | ix + 1 => popDown epoch cells ix
    else popDown epoch (cells.set ix candidate) ix
  else .found (cells.set ix candidate) ix expected.item
termination_by (ix, if (cells ix).validAfter ≥ epoch then 0 else 1)
decreasing_by
  · exact Prod.Lex.left _ _ (Nat.lt_succ_self _)
  · refine Prod.Lex.right _ ?_
    rw [if_pos (by simp [Cells.set]), if_neg (by assumption)]
    exact Nat.one_pos

/-- `hatstack_pop_mmm`. -/
def popLoop : (iterations : Nat) → StackStore α → Option ((Bool × Option α) × StackStore α)
  | 0, _ => none
  | n + 1, store =>
    let headState := store.headState
    if headIsMoving headState store.numCells then popLoop n (hatstackGrowStore store).2
    else
      match headGetIndex headState with
      | 0 => some ((false, none), store)
      | ix + 1 =>
        match popDown (headGetEpoch headState) store.cells ix with
        | .again cells => popLoop n { store with cells := cells }
        | .notFound cells => some ((false, none), { store with cells := cells })
        | .found cells ix item =>
          some ((true, item),
            { store with cells := cells, headState := headCandidateNewEpoch headState ix })

/-- The loop of `hatstack_peek_mmm`. -/
def peekDown (cells : Cells α) : (ix : Nat) → Bool × Option α
  | 0 => (false, none)
  | ix + 1 => if (cells ix).state.pushed then (true, (cells ix).item) else peekDown cells ix

/-- `hatstack_peek_mmm`. -/
def hatstackPeek (store : StackStore α) : Bool × Option α :=
  peekDown store.cells (headGetIndex store.headState)

/-- `hatstack_view_mmm`. The store of the view, and the new one. -/
def viewLoop : (iterations : Nat) → StackStore α → Option (StackStore α × StackStore α)
  | 0, _ => none
  | n + 1, store =>
    if store.claimed then viewLoop n (hatstackGrowStore store).2
    else some (hatstackGrowStore { store with claimed := true })

/-- `hatstack_view_next`. What is found, and the next `next_ix`. -/
def hatstackViewNext (store : StackStore α) (nextIx : Nat) : Option (Option α × Nat) :=
  if nextIx ≥ store.numCells then none
  else if (store.cells nextIx).state.pushed then some ((store.cells nextIx).item, nextIx + 1)
  else hatstackViewNext store (nextIx + 1)
termination_by store.numCells - nextIx

/-- What a number of calls of `hatstack_view_next` find. -/
def viewItems (store : StackStore α) : (calls nextIx : Nat) → List (Option α)
  | 0, _ => []
  | calls + 1, nextIx =>
    match hatstackViewNext store nextIx with
    | none => []
    | some (item, nextIx') => item :: viewItems store calls nextIx'

/-! ## Runs -/

inductive StackOp (α : Type) where
  | push (item : α)
  | pop
  | peek
  | view

/-- What an operation returns. -/
inductive StackOut (α : Type) where
  | pushed
  | item (found : Bool) (item : Option α)
  | items (items : List (Option α))

/-- An operation with at most so many iterations of its loop. A view is read to its end. -/
def StackStore.exec (iterations : Nat) (store : StackStore α) :
    StackOp α → Option (StackOut α × StackStore α)
  | .push item => (pushLoop iterations store item).map fun next => (.pushed, next)
  | .pop => (popLoop iterations store).map fun r => (.item r.1.1 r.1.2, r.2)
  | .peek => some (.item (hatstackPeek store).1 (hatstackPeek store).2, store)
  | .view => (viewLoop iterations store).map fun r =>
      (.items (viewItems r.1 (r.1.numCells + 1) 0), r.2)

end N00b.Hatrack
