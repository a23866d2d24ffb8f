import N00b.Hatrack.Stack

/-!
# The array stack is a stack

The items of a stack are the pushed cells below the index of the head, in their order.

## Main results

* `Holds.push`, `Holds.pop`, `Holds.peek`, `Holds.view`: what the operations do to them.
-/

namespace N00b.Hatrack

variable {α : Type}

/-! ## What is in the cells -/

def itemAt (cells : Cells α) (i : Nat) : Option α :=
  if (cells i).state.pushed then (cells i).item else none

/-- The items of the cells below an index. -/
def contents (cells : Cells α) (n : Nat) : List α :=
  (List.range n).filterMap (itemAt cells)

/-- A cell that nobody is moving. -/
structure StackItem.Live (c : StackItem α) : Prop where
  moving : c.state.moving = false
  moved : c.state.moved = false
  item : c.state.pushed = true → c.item ≠ none

section

variable {cells cells' : Cells α}

/-- A live cell has no item just if nothing was pushed to it. -/
theorem itemAt_eq_none_iff {i : Nat} (h : (cells i).Live) :
    itemAt cells i = none ↔ (cells i).state.pushed = false := by
  rw [itemAt]
  split
  next hpushed => exact iff_of_false (h.item hpushed) (by simp [hpushed])
  next hpushed => exact iff_of_true rfl (Bool.not_eq_true _ ▸ hpushed)

@[simp] theorem Cells.set_self (i : Nat) (c : StackItem α) : cells.set i c i = c :=
  if_pos rfl

theorem Cells.set_of_ne {i k : Nat} (c : StackItem α) (h : k ≠ i) : cells.set i c k = cells k :=
  if_neg h

theorem itemAt_set_of_ne {i k : Nat} (c : StackItem α) (h : k ≠ i) :
    itemAt (cells.set i c) k = itemAt cells k := by
  rw [itemAt, Cells.set_of_ne c h]
  rfl

theorem live_set {c : StackItem α} (h : ∀ k, (cells k).Live) (hc : c.Live) (i k : Nat) :
    (cells.set i c k).Live := by
  rw [Cells.set]
  split
  · exact hc
  · exact h k

theorem live_empty : (protoItemEmpty : StackItem α).Live :=
  ⟨rfl, rfl, fun h => by cases h⟩

theorem contents_zero : contents cells 0 = [] := rfl

/-- One more cell has one more item at most. -/
theorem contents_succ (n : Nat) :
    contents cells (n + 1) = contents cells n ++ (itemAt cells n).toList := by
  rw [contents, List.range_succ, List.filterMap_append]
  rfl

/-- The contents depend on the items only. -/
theorem contents_congr {n : Nat} (h : ∀ i < n, itemAt cells i = itemAt cells' i) :
    contents cells n = contents cells' n :=
  List.filterMap_congr fun i hi => h i (List.mem_range.mp hi)

/-- Cells without items add nothing. -/
theorem contents_of_none {m n : Nat} (hmn : m ≤ n)
    (h : ∀ i, m ≤ i → i < n → itemAt cells i = none) : contents cells n = contents cells m := by
  induction n, hmn using Nat.le_induction with
  | base => rfl
  | succ n hmn ih =>
    rw [contents_succ, h n hmn (Nat.lt_succ_self n), Option.toList_none, List.append_nil]
    exact ih fun i hi hin => h i hi (Nat.lt_succ_of_lt hin)

theorem contents_eq_nil {n : Nat} (h : ∀ i < n, itemAt cells i = none) : contents cells n = [] :=
  contents_of_none (Nat.zero_le n) fun i _ hi => h i hi

theorem length_contents_le (n : Nat) : (contents cells n).length ≤ n := by
  have hle := List.length_filterMap_le (itemAt cells) (List.range n)
  rwa [List.length_range] at hle

end

def itemsFrom (cells : Cells α) (i n : Nat) : List α :=
  (List.range' i n).filterMap (itemAt cells)

theorem itemsFrom_zero (cells : Cells α) (n : Nat) : itemsFrom cells 0 n = contents cells n := by
  rw [contents, List.range_eq_range']
  rfl

/-- The items from a cell on are its own and those behind it. -/
theorem itemsFrom_succ (cells : Cells α) (i n : Nat) :
    itemsFrom cells i (n + 1) = (itemAt cells i).toList ++ itemsFrom cells (i + 1) n := by
  rw [itemsFrom, List.range'_succ, List.filterMap_cons]
  cases itemAt cells i <;> rfl

theorem itemsFrom_congr {cells cells' : Cells α} {i n : Nat}
    (h : ∀ k, i ≤ k → k < i + n → itemAt cells k = itemAt cells' k) :
    itemsFrom cells i n = itemsFrom cells' i n := by
  refine List.filterMap_congr fun k hk => ?_
  obtain ⟨hle, hlt⟩ := List.mem_range'_1.mp hk
  exact h k hle hlt

/-! ## Growing a store -/

structure Marks (c c' : StackItem α) : Prop where
  pushed : c'.state.pushed = c.state.pushed
  item : c.state.pushed = true → c'.item = c.item
  moved : c'.state.moved = !c.state.pushed

theorem Marks.itemAt_eq {cells cells' : Cells α} {k : Nat} (h : Marks (cells k) (cells' k)) :
    itemAt cells' k = itemAt cells k := by
  unfold itemAt
  rw [h.pushed]
  split
  next hpushed => exact h.item hpushed
  next => rfl

/-- Marking a cell for the move keeps its item. -/
theorem marks_markedItem (candidate : StackItem α) {c : StackItem α} (h : c.Live) :
    Marks c (markedItem candidate c) := by
  rw [markedItem]
  cases hpushed : c.state.pushed with
  | true =>
    rw [if_neg (by simp)]
    exact ⟨rfl, fun _ => rfl, h.moved.trans (by rw [hpushed]; rfl)⟩
  | false =>
    rw [Bool.not_false, if_pos rfl]
    exact ⟨rfl, fun hp => absurd (hpushed.symm.trans hp) Bool.false_ne_true, by rw [hpushed]; rfl⟩

/-- **Marking all cells** keeps every item, and no cell can change behind it. -/
theorem markLoop_spec (numCells i : Nat) (cells : Cells α) (candidate : StackItem α) (j : Nat)
    (h : ∀ k, i ≤ k → (cells k).Live) :
    (∀ k, k < i → (markLoop numCells i cells candidate j).1 k = cells k) ∧
      (∀ k, i ≤ k → k < numCells →
        Marks (cells k) ((markLoop numCells i cells candidate j).1 k)) ∧
      (markLoop numCells i cells candidate j).2 =
        j + (itemsFrom cells i (numCells - i)).length := by
  induction hn : numCells - i generalizing i cells candidate j with
  | zero =>
    rw [markLoop, if_neg (by omega)]
    exact ⟨fun k _ => rfl, fun k hk hlt => by omega, rfl⟩
  | succ n ih =>
    have hlive := h i (Nat.le_refl i)
    rw [markLoop, if_pos (by omega)]
    dsimp only
    rw [hlive.moving, if_neg Bool.false_ne_true]
    have hmarks := marks_markedItem candidate hlive
    generalize markedItem candidate (cells i) = marked at hmarks ⊢
    have hrest : ∀ k, i + 1 ≤ k → cells.set i marked k = cells k := fun k hk =>
      Cells.set_of_ne _ (by omega)
    have hliverest : ∀ k, i + 1 ≤ k → (cells.set i marked k).Live := fun k hk => by
      rw [hrest k hk]
      exact h k (by omega)
    obtain ⟨hbelow, habove, hcount⟩ := ih (i + 1) (cells.set i marked) marked
      (if (cells i).state.pushed then j + 1 else j) hliverest (by omega)
    refine ⟨fun k hk => ?_, fun k hk hlt => ?_, ?_⟩
    · rw [hbelow k (by omega), Cells.set_of_ne _ (by omega)]
    · obtain rfl | hne := Nat.eq_or_lt_of_le hk
      · rw [hbelow i (by omega), Cells.set_self]
        exact hmarks
      · have hm := habove k hne hlt
        rwa [hrest k hne] at hm
    · have hitems : itemsFrom (cells.set i marked) (i + 1) n = itemsFrom cells (i + 1) n :=
        itemsFrom_congr fun k hk _ => itemAt_set_of_ne _ (by omega)
      rw [hcount, hitems, itemsFrom_succ, List.length_append]
      cases hpushed : (cells i).state.pushed with
      | true =>
        obtain ⟨x, hx⟩ := Option.ne_none_iff_exists'.mp (hlive.item hpushed)
        have hitem : itemAt cells i = some x := by rw [itemAt, if_pos hpushed, hx]
        rw [if_pos rfl, hitem]
        simp only [Option.toList_some, List.length_singleton]
        omega
      | false =>
        rw [if_neg Bool.false_ne_true, (itemAt_eq_none_iff hlive).mpr hpushed]
        simp only [Option.toList_none, List.length_nil]
        omega

/-! ## A stack and its items -/

/-- A new epoch keeps the index of the head. -/
theorem index_headCandidateNewEpoch (n : Nat) {ix : Nat} (h : ix < 2 ^ 32) :
    headGetIndex (headCandidateNewEpoch n ix) = ix := by
  unfold headGetIndex headCandidateNewEpoch
  omega

theorem headCandidateNewEpoch_div (n ix : Nat) :
    headCandidateNewEpoch n ix / 2 ^ 32 ≤ 2 ^ 31 := by
  unfold headCandidateNewEpoch
  omega

/-- A store holds these items, the last one at the top. -/
structure Holds (store : StackStore α) (xs : List α) : Prop where
  live : ∀ k, (store.cells k).Live
  contents_eq : contents store.cells (headGetIndex store.headState) = xs
  above : ∀ k, headGetIndex store.headState ≤ k → itemAt store.cells k = none
  index_le : headGetIndex store.headState ≤ store.numCells
  numCells_pos : 0 < store.numCells
  unclaimed : store.claimed = false
  epoch_le : store.headState / 2 ^ 32 ≤ 2 ^ 31

variable {store : StackStore α} {xs : List α}

/-- No more is held than the head has gone up. -/
theorem Holds.length_le (h : Holds store xs) :
    xs.length ≤ headGetIndex store.headState := by
  rw [← h.contents_eq]
  exact length_contents_le _

/-- All that is held is in the cells. -/
theorem Holds.contents_numCells (h : Holds store xs) :
    contents store.cells store.numCells = xs := by
  rw [contents_of_none h.index_le fun k hk _ => h.above k hk]
  exact h.contents_eq

theorem headGetIndex_lt (n : Nat) : headGetIndex n < 2 ^ 32 :=
  Nat.mod_lt _ (by decide)

structure Grows (store : StackStore α) (xs : List α) : Prop where
  live : ∀ k, (store.cells k).Live
  contents_eq : contents store.cells store.numCells = xs
  numCells_pos : 0 < store.numCells
  length_lt : xs.length < 2 ^ 32

theorem Holds.grows (h : Holds store xs) (headState : Nat)
    (claimed : Bool) :
    Grows { store with headState := headState, claimed := claimed } xs where
  live := h.live
  contents_eq := h.contents_numCells
  numCells_pos := h.numCells_pos
  length_lt := Nat.lt_of_le_of_lt h.length_le (headGetIndex_lt _)

/-- Adding one to the head raises the index and leaves the epoch, below the last index. -/
theorem index_succ {n : Nat} (h : headGetIndex n + 1 < 2 ^ 32) (hepoch : n / 2 ^ 32 ≤ 2 ^ 31) :
    headGetIndex ((n + 1) % 2 ^ 64) = headGetIndex n + 1 ∧
      (n + 1) % 2 ^ 64 / 2 ^ 32 = n / 2 ^ 32 := by
  unfold headGetIndex at *
  omega

/-- A cell that was invalidated is passed, and holds nothing. -/
theorem Holds.skip (h : Holds store xs)
    (hlt : headGetIndex store.headState < store.numCells)
    (hfits : headGetIndex store.headState + 1 < 2 ^ 32) :
    Holds { store with headState := (store.headState + 1) % 2 ^ 64 } xs := by
  obtain ⟨hindex, hepoch⟩ := index_succ hfits h.epoch_le
  refine ⟨h.live, ?_, ?_, ?_, h.numCells_pos, h.unclaimed, hepoch.trans_le h.epoch_le⟩
  · dsimp only
    rw [hindex, contents_succ, h.above _ (Nat.le_refl _), h.contents_eq]
    exact List.append_nil xs
  · dsimp only
    intro k hk
    rw [hindex] at hk
    exact h.above k (by omega)
  · dsimp only
    omega

/-- **A push to the cell at the head** holds one more item. -/
theorem Holds.put (h : Holds store xs) {c : StackItem α}
    {x : α} (hlive : c.Live) (hpushed : c.state.pushed = true) (hitem : c.item = some x)
    (hlt : headGetIndex store.headState < store.numCells)
    (hfits : headGetIndex store.headState + 1 < 2 ^ 32) :
    Holds
      { store with
        headState := (store.headState + 1) % 2 ^ 64
        cells := store.cells.set (headGetIndex store.headState) c }
      (xs ++ [x]) := by
  obtain ⟨hindex, hepoch⟩ := index_succ hfits h.epoch_le
  have hself : itemAt (store.cells.set (headGetIndex store.headState) c)
      (headGetIndex store.headState) = some x := by
    rw [itemAt, Cells.set_self, if_pos hpushed, hitem]
  refine ⟨live_set h.live hlive _, ?_, ?_, ?_, h.numCells_pos, h.unclaimed,
    hepoch.trans_le h.epoch_le⟩
  · dsimp only
    rw [hindex, contents_succ, hself, contents_congr fun k hk => itemAt_set_of_ne c (by omega),
      h.contents_eq]
    rfl
  · dsimp only
    intro k hk
    rw [hindex] at hk
    rw [itemAt_set_of_ne c (by omega)]
    exact h.above k (by omega)
  · dsimp only
    omega

/-- A push finds a cell it may take, or the end of the store, before the last index of 32 bits. -/
def FitsPush (store : StackStore α) : Prop :=
  ∃ i, headGetIndex store.headState ≤ i ∧ i < 2 ^ 32 - 1 ∧
    (store.numCells ≤ i ∨ cellCanPush (store.cells i) (headGetEpoch store.headState) = true)

/-! ## Going down -/

/-- How a pop goes down a stack whose cells are not moving. -/
inductive PopsTo (cells : Cells α) (ix : Nat) : PopEnd α → Prop where
  | notFound {cells' : Cells α} (live : ∀ k, (cells' k).Live)
      (same : ∀ k, itemAt cells' k = itemAt cells k)
      (none : ∀ k, k ≤ ix → itemAt cells k = none) : PopsTo cells ix (.notFound cells')
  | found {cells' : Cells α} {ix' : Nat} {x : α} (live : ∀ k, (cells' k).Live) (le : ix' ≤ ix)
      (item : itemAt cells ix' = some x) (taken : itemAt cells' ix' = none)
      (same : ∀ k, k ≠ ix' → itemAt cells' k = itemAt cells k)
      (none : ∀ k, ix' < k → k ≤ ix → itemAt cells k = none) :
      PopsTo cells ix (.found cells' ix' (some x))

theorem PopsTo.congr {cells cells' : Cells α} {ix : Nat} {r : PopEnd α}
    (h : PopsTo cells' ix r) (hsame : ∀ k, itemAt cells' k = itemAt cells k) : PopsTo cells ix r := by
  cases h with
  | notFound live same none =>
    exact .notFound live (fun k => (same k).trans (hsame k)) fun k hk => hsame k ▸ none k hk
  | found live le item taken same none =>
    exact .found live le (hsame _ ▸ item) taken (fun k hk => (same k hk).trans (hsame k))
      fun k hk hle => hsame k ▸ none k hk hle

/-- **The walk down** ends at the last item, or at the bottom. -/
theorem popDown_spec (epoch : Nat) (cells : Cells α) (ix : Nat) (h : ∀ k, (cells k).Live) :
    PopsTo cells ix (popDown epoch cells ix) := by
  generalize hcand : ({ (protoItemPop : StackItem α) with validAfter := epoch } : StackItem α) =
    candidate
  have hpop : candidate.Live := by
    subst hcand
    exact ⟨rfl, rfl, fun hp => by cases hp⟩
  have htaken : ∀ (cells : Cells α) ix, itemAt (cells.set ix candidate) ix = none := by
    subst hcand
    intro cells ix
    rw [itemAt, Cells.set_self]
    rfl
  have hnone : ∀ {cells : Cells α} {ix : Nat}, (∀ k, (cells k).Live) →
      (!(cells ix).state.pushed) = true → itemAt cells ix = none := fun h hnot =>
    (itemAt_eq_none_iff (h _)).mpr (Bool.not_eq_true' _ ▸ hnot)
  induction cells, ix using popDown.induct epoch with
  | case1 cells ix expected hmoving =>
    rw [(h ix).moving] at hmoving
    cases hmoving
  | case2 cells expected hmoving hnot hold =>
    rw [popDown.eq_def]
    dsimp only
    rw [if_neg hmoving, if_pos hnot, if_pos hold]
    refine .notFound h (fun _ => rfl) fun k hk => ?_
    obtain rfl : k = 0 := by omega
    exact hnone h hnot
  | case3 cells ix expected hmoving hnot hold ih =>
    rw [popDown.eq_def]
    dsimp only
    rw [if_neg hmoving, if_pos hnot, if_pos hold]
    show PopsTo cells (ix + 1) (popDown epoch cells ix)
    have hbelow := ih h
    generalize popDown epoch cells ix = result at hbelow ⊢
    cases hbelow with
    | notFound live same none =>
      refine .notFound live same fun k hk => ?_
      obtain rfl | hk := Nat.eq_or_lt_of_le hk
      · exact hnone h hnot
      · exact none k (by omega)
    | found live le item taken same none =>
      refine .found live (by omega) item taken same fun k hk hle => ?_
      obtain rfl | hle := Nat.eq_or_lt_of_le hle
      · exact hnone h hnot
      · exact none k hk (by omega)
  | case4 cells ix cand expected hmoving hnot hold ih =>
    rw [popDown.eq_def]
    dsimp only
    rw [if_neg hmoving, if_pos hnot, if_neg hold, hcand]
    have hcell := hnone h hnot
    subst hcand
    refine (ih (live_set h hpop ix)).congr fun k => ?_
    by_cases hk : k = ix
    · subst hk
      rw [htaken, hcell]
    · exact itemAt_set_of_ne _ hk
  | case5 cells ix expected hmoving hpushed =>
    rw [popDown.eq_def]
    dsimp only
    rw [if_neg hmoving, if_neg hpushed, hcand]
    rw [Bool.not_eq_true', Bool.not_eq_false] at hpushed
    obtain ⟨x, hx⟩ := Option.ne_none_iff_exists'.mp ((h ix).item hpushed)
    have hitem : itemAt cells ix = some x := by rw [itemAt, if_pos hpushed, hx]
    rw [hx]
    exact .found (live_set h hpop ix) (Nat.le_refl ix) hitem (htaken cells ix)
      (fun k hk => itemAt_set_of_ne _ hk) fun k hk hle => by omega

/-- A look at the top gives the last item. -/
theorem peekDown_spec {cells : Cells α} (h : ∀ k, (cells k).Live) (n : Nat) :
    peekDown cells n = ((contents cells n).getLast?.isSome, (contents cells n).getLast?) := by
  induction n with
  | zero => rfl
  | succ n ih =>
    rw [peekDown, contents_succ]
    cases hpushed : (cells n).state.pushed with
    | true =>
      obtain ⟨x, hx⟩ := Option.ne_none_iff_exists'.mp ((h n).item hpushed)
      have hitem : itemAt cells n = some x := by rw [itemAt, if_pos hpushed, hx]
      rw [if_pos rfl, hx, hitem, Option.toList_some, List.getLast?_concat]
      rfl
    | false =>
      rw [if_neg Bool.false_ne_true, (itemAt_eq_none_iff (h n)).mpr hpushed, Option.toList_none,
        List.append_nil, ih]

/-- A view gives the items from the bottom up. -/
theorem viewItems_spec
    (h : ∀ k, k < store.numCells → (store.cells k).state.pushed = true → (store.cells k).item ≠ none)
    (calls nextIx : Nat) (hcalls : store.numCells - nextIx < calls) :
    viewItems store calls nextIx =
      (itemsFrom store.cells nextIx (store.numCells - nextIx)).map some := by
  induction hn : store.numCells - nextIx generalizing calls nextIx with
  | zero =>
    obtain ⟨calls, rfl⟩ := Nat.exists_eq_succ_of_ne_zero (Nat.ne_of_gt (Nat.zero_lt_of_lt hcalls))
    rw [viewItems, hatstackViewNext, if_pos (by omega)]
    rfl
  | succ n ih =>
    obtain ⟨calls, rfl⟩ := Nat.exists_eq_succ_of_ne_zero (Nat.ne_of_gt (Nat.zero_lt_of_lt hcalls))
    rw [viewItems, hatstackViewNext, if_neg (by omega), itemsFrom_succ]
    cases hpushed : (store.cells nextIx).state.pushed with
    | true =>
      obtain ⟨x, hx⟩ := Option.ne_none_iff_exists'.mp (h nextIx (by omega) hpushed)
      have hitem : itemAt store.cells nextIx = some x := by rw [itemAt, if_pos hpushed, hx]
      rw [if_pos rfl, hx, hitem]
      dsimp only
      rw [ih calls (nextIx + 1) (by omega) (by omega)]
      rfl
    | false =>
      have hitem : itemAt store.cells nextIx = none := by rw [itemAt, if_neg (by simp [hpushed])]
      have hrest := ih (calls + 1) (nextIx + 1) (by omega) (by omega)
      rw [viewItems] at hrest
      rw [if_neg Bool.false_ne_true, hitem, hrest]
      rfl

/-- Peeking gives the last item that was pushed. -/
theorem Holds.peek (h : Holds store xs) :
    hatstackPeek store = (xs.getLast?.isSome, xs.getLast?) := by
  rw [hatstackPeek, peekDown_spec h.live, h.contents_eq]

/-! ## The purpose -/

/-- What an operation returns for a stack of these items, and the items after it. -/
def specStep (xs : List α) : StackOp α → StackOut α × List α
  | .push x => (.pushed, xs ++ [x])
  | .pop => (.item xs.getLast?.isSome xs.getLast?, xs.dropLast)
  | .peek => (.item xs.getLast?.isSome xs.getLast?, xs)
  | .view => (.items (xs.map some), xs)

/-- What the operations of a run return for a stack of these items. -/
def specRun : (xs : List α) → List (StackOp α) → List (StackOut α)
  | _, [] => []
  | xs, op :: ops => (specStep xs op).1 :: specRun (specStep xs op).2 ops

/-- Runs of the abstract stack are composed. -/
theorem specRun_append (xs : List α) (ops ops' : List (StackOp α)) :
    specRun xs (ops ++ ops') =
      specRun xs ops ++ specRun (ops.foldl (fun xs op => (specStep xs op).2) xs) ops' := by
  induction ops generalizing xs with
  | nil => rfl
  | cons op ops ih => rw [List.cons_append, specRun, ih, specRun, List.foldl_cons, List.cons_append]

theorem specItems_push (x : α) (xs : List α) (n : Nat) :
    (List.replicate n (StackOp.push x)).foldl (fun xs op => (specStep xs op).2) xs =
      xs ++ List.replicate n x := by
  induction n generalizing xs with
  | zero => exact (List.append_nil xs).symm
  | succ n ih =>
    rw [List.replicate_succ, List.foldl_cons, ih, List.replicate_succ]
    exact List.append_assoc _ _ _

/-- A new stack holds nothing. -/
theorem holds_hatstackNew (prealloc : Nat) : Holds (hatstackNew prealloc : StackStore α) [] where
  live := fun _ => live_empty
  contents_eq := contents_eq_nil fun _ _ => rfl
  above := fun _ _ => rfl
  index_le := by
    have hindex := index_headCandidateNewEpoch 0 (Nat.two_pow_pos 32)
    exact hindex ▸ Nat.zero_le _
  numCells_pos := by
    unfold hatstackNew hatstackNewStore
    dsimp only
    split <;> omega
  unclaimed := rfl
  epoch_le := headCandidateNewEpoch_div 0 0

/-! ## Moving the items -/

theorem le_numCells_hatstackNewStore (α : Type) (n : Nat) :
    n ≤ (hatstackNewStore n : StackStore α).numCells := by
  unfold hatstackNewStore
  dsimp only
  split <;> omega

section

variable [DecidableEq α]

/-- What `moveLoop` has done to the new store. -/
structure Moved (next : Cells α) (j : Nat) (next' : Cells α) (j' : Nat) (items : List α) :
    Prop where
  count : j' = j + items.length
  contents : contents next' j' = contents next j ++ items
  live : ∀ k, (next' k).Live
  empty : ∀ k, j' ≤ k → next' k = protoItemEmpty

/-- The cells that were pushed are moved in their order. -/
theorem moveLoop_spec (numCells i : Nat) (cells next : Cells α) (j : Nat)
    (hmoved : ∀ k, i ≤ k → k < numCells → (cells k).state.moved = !(cells k).state.pushed)
    (hitem : ∀ k, i ≤ k → k < numCells → (cells k).state.pushed = true → (cells k).item ≠ none)
    (hlive : ∀ k, (next k).Live) (hempty : ∀ k, j ≤ k → next k = protoItemEmpty) :
    (∀ k, itemAt (moveLoop numCells i cells next j).1 k = itemAt cells k ∧
      ((moveLoop numCells i cells next j).1 k).state.pushed = (cells k).state.pushed) ∧
      Moved next j (moveLoop numCells i cells next j).2.1 (moveLoop numCells i cells next j).2.2
        (itemsFrom cells i (numCells - i)) := by
  induction hn : numCells - i generalizing i cells next j with
  | zero =>
    rw [moveLoop, if_neg (by omega)]
    exact ⟨fun k => ⟨rfl, rfl⟩, rfl, (List.append_nil _).symm, hlive, hempty⟩
  | succ n ih =>
    rw [moveLoop, if_pos (by omega), itemsFrom_succ]
    dsimp only
    rw [hmoved i (Nat.le_refl i) (by omega)]
    cases hpushed : (cells i).state.pushed with
    | false =>
      have hnone : itemAt cells i = none := by rw [itemAt, if_neg (by simp [hpushed])]
      rw [Bool.not_false, if_pos rfl, if_neg Bool.false_ne_true, hnone]
      exact ih (i + 1) cells next j (fun k hk => hmoved k (by omega))
        (fun k hk => hitem k (by omega)) hlive hempty (by omega)
    | true =>
      obtain ⟨x, hx⟩ := Option.ne_none_iff_exists'.mp (hitem i (Nat.le_refl i) (by omega) hpushed)
      have hsome : itemAt cells i = some x := by rw [itemAt, if_pos hpushed, hx]
      rw [Bool.not_true, if_neg Bool.false_ne_true, if_pos (hempty j (Nat.le_refl j)), hsome]
      generalize hold : ({ cells i with state := stateAddMoved (cells i).state } : StackItem α) = old
      rw [hx]
      generalize hnew : ({ (protoItemPushed : StackItem α) with item := some x } : StackItem α) = new
      have hnewlive : new.Live := by
        subst hnew
        exact ⟨rfl, rfl, fun _ => Option.some_ne_none x⟩
      have hrest : ∀ k, i + 1 ≤ k → cells.set i old k = cells k := fun k hk =>
        Cells.set_of_ne _ (by omega)
      obtain ⟨hsame, hcount, hcontents, hlive', hempty'⟩ :=
        ih (i + 1) (cells.set i old) (next.set j new) (j + 1)
        (fun k hk => by rw [hrest k hk]; exact hmoved k (by omega))
        (fun k hk => by rw [hrest k hk]; exact hitem k (by omega)) (live_set hlive hnewlive j)
        (fun k hk => by rw [Cells.set_of_ne _ (by omega)]; exact hempty k (by omega)) (by omega)
      have hitems : itemsFrom (cells.set i old) (i + 1) n = itemsFrom cells (i + 1) n :=
        itemsFrom_congr fun k hk _ => itemAt_set_of_ne _ (by omega)
      have hbelow : contents (next.set j new) (j + 1) = contents next j ++ [x] := by
        have hlast : itemAt (next.set j new) j = some x := by
          subst hnew
          rw [itemAt, Cells.set_self]
          rfl
        rw [contents_succ, hlast, contents_congr fun k hk => itemAt_set_of_ne new (by omega)]
        rfl
      rw [hitems] at hcount hcontents
      refine ⟨fun k => ?_, ?_, ?_, hlive', hempty'⟩
      · rw [(hsame k).1, (hsame k).2]
        by_cases hk : k = i
        · subst hk hold
          unfold itemAt
          rw [Cells.set_self]
          exact ⟨rfl, rfl⟩
        · rw [itemAt_set_of_ne _ hk, Cells.set_of_ne _ hk]
          exact ⟨rfl, rfl⟩
      · rw [hcount]
        simp only [Option.toList_some, List.length_append, List.length_singleton]
        omega
      · rw [hcontents, hbelow, List.append_assoc]
        rfl

/-- The items move to a new store, which has room for one more, and the old one shows them. -/
structure Grown (store : StackStore α) (xs : List α) (old next : StackStore α) : Prop where
  numCells_eq : old.numCells = store.numCells
  same : ∀ k, k < store.numCells → itemAt old.cells k = itemAt store.cells k ∧
    (old.cells k).state.pushed = (store.cells k).state.pushed
  holds : Holds next xs
  index_eq : headGetIndex next.headState = xs.length
  index_lt : xs.length < next.numCells
  empty : next.cells xs.length = protoItemEmpty

variable {store : StackStore α} {xs : List α}

/-- **Growing a store** keeps what it holds. -/
theorem Grows.grown (h : Grows store xs) :
    Grown store xs (hatstackGrowStore store).1 (hatstackGrowStore store).2 := by
  obtain ⟨_, hmarks, hcount⟩ := markLoop_spec store.numCells 0 store.cells
    ⟨none, ⟨false, false, false, false⟩, 0⟩ 0 (fun k _ => h.live k)
  rw [Nat.sub_zero, itemsFrom_zero, h.contents_eq, Nat.zero_add] at hcount
  have hlen : xs.length ≤ store.numCells := by
    rw [← h.contents_eq]
    exact length_contents_le _
  have hpos := h.numCells_pos
  unfold hatstackGrowStore
  dsimp only
  generalize markLoop store.numCells 0 store.cells ⟨none, ⟨false, false, false, false⟩, 0⟩ 0 =
    marked at hmarks hcount ⊢
  have hmark := fun k hk => hmarks k (Nat.zero_le k) hk
  rw [hcount]
  have hsize := le_numCells_hatstackNewStore α
    (if xs.length < store.numCells / 2 then store.numCells else store.numCells * 2)
  generalize hnew : (hatstackNewStore (if xs.length < store.numCells / 2 then store.numCells
    else store.numCells * 2) : StackStore α) = new at hsize ⊢
  have hroom : xs.length < new.numCells := by
    split at hsize <;> omega
  have hnewcells : ∀ k, new.cells k = protoItemEmpty := by
    subst hnew
    exact fun k => rfl
  obtain ⟨hsame, hcount', hcontents, hlive, hempty⟩ := moveLoop_spec store.numCells 0 marked.1
    new.cells 0 (fun k _ hk => by rw [(hmark k hk).moved, (hmark k hk).pushed])
    (fun k _ hk hpushed => by
      rw [(hmark k hk).pushed] at hpushed
      rw [(hmark k hk).item hpushed]
      exact (h.live k).item hpushed)
    (fun k => by rw [hnewcells]; exact live_empty) (fun k _ => hnewcells k)
  have hitems : itemsFrom marked.1 0 (store.numCells - 0) = xs := by
    rw [Nat.sub_zero, itemsFrom_zero, ← h.contents_eq]
    exact contents_congr fun k hk => (hmark k hk).itemAt_eq
  rw [hitems] at hcount' hcontents
  rw [contents_zero, List.nil_append] at hcontents
  rw [Nat.zero_add] at hcount'
  generalize moveLoop store.numCells 0 marked.1 new.cells 0 = moved at *
  have hindex : headGetIndex (headCandidateNewEpoch 0 moved.2.2) = xs.length := by
    rw [hcount', index_headCandidateNewEpoch 0 h.length_lt]
  rw [hcount'] at hcontents hempty
  refine ⟨rfl, fun k hk => ?_, ⟨hlive, ?_, ?_, ?_, ?_, ?_, ?_⟩, hindex, hroom, ?_⟩
  · obtain ⟨hitem, hpushed⟩ := hsame k
    exact ⟨hitem.trans (hmark k hk).itemAt_eq, hpushed.trans (hmark k hk).pushed⟩
  · dsimp only
    rw [hindex, hcontents]
  · dsimp only
    intro k hk
    rw [hindex] at hk
    rw [itemAt, hempty k hk]
    rfl
  · dsimp only
    omega
  · exact Nat.lt_of_le_of_lt (Nat.zero_le _) hroom
  · dsimp only
    subst hnew
    rfl
  · exact headCandidateNewEpoch_div 0 _
  · exact hempty _ (Nat.le_refl _)

/-! ## The operations -/

/-- A push finds its cell at the head or above it. -/
theorem Holds.push_here (h : Holds store xs) (x : α)
    (hlt : headGetIndex store.headState < store.numCells)
    (hfits : headGetIndex store.headState + 1 < 2 ^ 32)
    (hcell : store.cells (headGetIndex store.headState) = protoItemEmpty ∨
      cellCanPush (store.cells (headGetIndex store.headState)) (headGetEpoch store.headState) =
        true) (n : Nat) :
    ∃ next, pushLoop (n + 1) store x = some next ∧ Holds next (xs ++ [x]) := by
  have hmoving : headIsMoving store.headState store.numCells = false :=
    decide_eq_false (Nat.not_le.mpr hlt)
  have hlive := (h.live (headGetIndex store.headState)).moving
  refine ⟨_, ?_, h.put (c := ⟨some x, ⟨true, false, false, false⟩,
    (headGetEpoch store.headState + 2 ^ 32 - 1) % 2 ^ 32⟩) ⟨rfl, rfl, fun _ => Option.some_ne_none x⟩
    rfl rfl hlt hfits⟩
  rw [pushLoop]
  dsimp only
  rw [hmoving, if_neg Bool.false_ne_true]
  split
  · rfl
  next hnot =>
    have hcan := hcell.resolve_left hnot
    rw [hlive, if_neg Bool.false_ne_true, hcan, if_neg (by simp)]
    rfl

/-- A push to a full store grows it first. -/
theorem Holds.push_full (h : Holds store xs) (x : α)
    (hfull : store.numCells ≤ headGetIndex store.headState)
    (hfits : headGetIndex store.headState + 1 < 2 ^ 32) :
    ∃ next, pushLoop 2 store x = some next ∧ Holds next (xs ++ [x]) := by
  have hmoving : headIsMoving store.headState store.numCells = true := decide_eq_true hfull
  have hgrown := (h.grows ((store.headState + 1) % 2 ^ 64) store.claimed).grown
  have hlen := h.length_le
  rw [pushLoop]
  dsimp only
  rw [hmoving, if_pos rfl]
  refine hgrown.holds.push_here x ?_ ?_ (.inl ?_) 0
  · rw [hgrown.index_eq]
    exact hgrown.index_lt
  · rw [hgrown.index_eq]
    omega
  · rw [hgrown.index_eq]
    exact hgrown.empty

/-- **Every push that fits** ends, and holds one more item. -/
theorem Holds.push (h : Holds store xs) (x : α)
    (hfits : FitsPush store) :
    ∃ n next, pushLoop n store x = some next ∧ Holds next (xs ++ [x]) := by
  obtain ⟨i, hle, hlast, hend⟩ := hfits
  induction hd : i - headGetIndex store.headState generalizing store with
  | zero =>
    have hi : i = headGetIndex store.headState := by omega
    subst hi
    obtain hfull | hcan := hend
    · exact ⟨2, h.push_full x hfull (by omega)⟩
    · by_cases hlt : headGetIndex store.headState < store.numCells
      · exact ⟨1, h.push_here x hlt (by omega) (.inr hcan) 0⟩
      · exact ⟨2, h.push_full x (by omega) (by omega)⟩
  | succ d ih =>
    by_cases hlt : headGetIndex store.headState < store.numCells
    case neg => exact ⟨2, h.push_full x (by omega) (by omega)⟩
    by_cases hcell : store.cells (headGetIndex store.headState) = protoItemEmpty ∨
      cellCanPush (store.cells (headGetIndex store.headState)) (headGetEpoch store.headState) = true
    case pos => exact ⟨1, h.push_here x hlt (by omega) hcell 0⟩
    -- the cell is passed, and the next iteration starts at the next one
    obtain ⟨hnot, hcannot⟩ := not_or.mp hcell
    obtain ⟨hindex, hepoch⟩ := index_succ (n := store.headState) (by omega) h.epoch_le
    have hskip := h.skip hlt (by omega)
    obtain ⟨n, next, hnext, hholds⟩ := ih hskip (by dsimp only; omega)
      (by unfold headGetEpoch at *; rwa [hepoch]) (by dsimp only; omega)
    refine ⟨n + 1, next, ?_, hholds⟩
    have hmoving : headIsMoving store.headState store.numCells = false :=
      decide_eq_false (Nat.not_le.mpr hlt)
    rw [pushLoop]
    dsimp only
    rw [hmoving, if_neg Bool.false_ne_true, if_neg hnot, (h.live _).moving,
      if_neg Bool.false_ne_true, Bool.eq_false_of_not_eq_true hcannot, Bool.not_false, if_pos rfl]
    exact hnext

/-- A pop inside of the store takes the last item off. -/
theorem Holds.pop_here (h : Holds store xs)
    (hlt : headGetIndex store.headState < store.numCells) (n : Nat) :
    ∃ next, popLoop (n + 1) store = some ((xs.getLast?.isSome, xs.getLast?), next) ∧
      Holds next xs.dropLast := by
  have hmoving : headIsMoving store.headState store.numCells = false :=
    decide_eq_false (Nat.not_le.mpr hlt)
  rw [popLoop, hmoving, if_neg Bool.false_ne_true]
  cases hindex : headGetIndex store.headState with
  | zero =>
    have hnil : xs = [] := by
      rw [← h.contents_eq, hindex]
      rfl
    subst hnil
    exact ⟨store, rfl, h⟩
  | succ ix =>
    have hpops := popDown_spec (headGetEpoch store.headState) store.cells ix h.live
    dsimp only
    generalize popDown (headGetEpoch store.headState) store.cells ix = result at hpops ⊢
    cases hpops with
    | notFound live same none =>
      rename_i cells'
      have hnil : xs = [] := by
        rw [← h.contents_eq, hindex]
        exact contents_eq_nil fun k hk => none k (by omega)
      subst hnil
      refine ⟨_, rfl, live, ?_, fun k hk => (same k).trans (h.above k hk), h.index_le,
        h.numCells_pos, h.unclaimed, h.epoch_le⟩
      exact (contents_congr fun k _ => same k).trans h.contents_eq
    | found live le item taken same none =>
      rename_i cells' ix' x
      have hix : ix' < 2 ^ 32 := by
        have hbound := headGetIndex_lt store.headState
        omega
      have hxs : xs = contents store.cells ix' ++ [x] := by
        rw [← h.contents_eq, hindex, contents_of_none (m := ix' + 1) (by omega)
          fun k hk hlt => none k (by omega) (by omega), contents_succ, item]
        rfl
      rw [hxs, List.getLast?_concat, List.dropLast_concat]
      have hnext := index_headCandidateNewEpoch store.headState hix
      refine ⟨_, rfl, live, ?_, fun k hk => ?_, ?_, h.numCells_pos, h.unclaimed,
        headCandidateNewEpoch_div _ _⟩
      · dsimp only
        rw [hnext]
        exact contents_congr fun k hk => same k (by omega)
      · dsimp only at hk
        rw [hnext] at hk
        obtain rfl | hk := Nat.eq_or_lt_of_le hk
        · exact taken
        · rw [same k (by omega)]
          by_cases hkx : k ≤ ix
          · exact none k hk hkx
          · exact h.above k (by omega)
      · dsimp only
        omega

/-- **Every pop** ends with the last item, if there is one. -/
theorem Holds.pop (h : Holds store xs) :
    ∃ n next, popLoop n store = some ((xs.getLast?.isSome, xs.getLast?), next) ∧
      Holds next xs.dropLast := by
  by_cases hlt : headGetIndex store.headState < store.numCells
  · exact ⟨1, h.pop_here hlt 0⟩
  · have hmoving : headIsMoving store.headState store.numCells = true :=
      decide_eq_true (Nat.not_lt.mp hlt)
    have hgrown := (h.grows store.headState store.claimed).grown
    obtain ⟨next, hnext, hholds⟩ := hgrown.holds.pop_here
      (by rw [hgrown.index_eq]; exact hgrown.index_lt) 0
    refine ⟨2, next, ?_, hholds⟩
    rw [popLoop, hmoving, if_pos rfl]
    exact hnext

/-- A view gives all that is held and changes nothing. -/
theorem Holds.view (h : Holds store xs) :
    ∃ n old next, viewLoop n store = some (old, next) ∧
      viewItems old (old.numCells + 1) 0 = xs.map some ∧ Holds next xs := by
  have hgrown := (h.grows store.headState true).grown
  refine ⟨1, (hatstackGrowStore { store with claimed := true }).1,
    (hatstackGrowStore { store with claimed := true }).2, ?_, ?_, hgrown.holds⟩
  · rw [viewLoop, h.unclaimed, if_neg Bool.false_ne_true]
  · rw [viewItems_spec (fun k hk hpushed => ?_) _ 0 (by omega), Nat.sub_zero, itemsFrom_zero,
      hgrown.numCells_eq, contents_congr fun k hk => (hgrown.same k hk).1]
    · rw [h.contents_numCells]
    · rw [hgrown.numCells_eq] at hk
      obtain ⟨hitem, hpush⟩ := hgrown.same k hk
      rw [hpush] at hpushed
      rw [itemAt, itemAt, hpush, if_pos hpushed, if_pos hpushed] at hitem
      rw [hitem]
      exact (h.live k).item hpushed

/-! ## Runs -/

def FitsOp (store : StackStore α) : StackOp α → Prop
  | .push _ => FitsPush store
  | _ => True

/-- A run of operations, each with as many iterations as it takes. -/
inductive StackRun (P : StackStore α → StackOp α → Prop) :
    StackStore α → List (StackOp α) → List (StackOut α) → StackStore α → Prop where
  | nil (store : StackStore α) : StackRun P store [] [] store
  | cons {store next last : StackStore α} {op : StackOp α} {ops : List (StackOp α)}
      {out : StackOut α} {outs : List (StackOut α)} (n : Nat) (ok : P store op)
      (step : store.exec n op = some (out, next)) (rest : StackRun P next ops outs last) :
      StackRun P store (op :: ops) (out :: outs) last

variable {n : Nat}

/-- More passes change nothing for a push that has ended. -/
theorem pushLoop_mono {store next : StackStore α} {x : α}
    (h : pushLoop n store x = some next) : pushLoop (n + 1) store x = some next := by
  induction n generalizing store with
  | zero => cases h
  | succ n ih =>
    rw [pushLoop] at h ⊢
    dsimp only at h ⊢
    split
    next hmoving =>
      rw [if_pos hmoving] at h
      exact ih h
    next hmoving =>
      rw [if_neg hmoving] at h
      split
      next hcell =>
        rw [if_pos hcell] at h
        exact h
      next hcell =>
        rw [if_neg hcell] at h
        split
        next hmove =>
          rw [if_pos hmove] at h
          exact ih h
        next hmove =>
          rw [if_neg hmove] at h
          split
          next hcan =>
            rw [if_pos hcan] at h
            exact ih h
          next hcan =>
            rw [if_neg hcan] at h
            exact h

theorem popLoop_mono {r : (Bool × Option α) × StackStore α}
    (h : popLoop n store = some r) : popLoop (n + 1) store = some r := by
  induction n generalizing store with
  | zero => cases h
  | succ n ih =>
    rw [popLoop] at h ⊢
    split
    next hmoving =>
      rw [if_pos hmoving] at h
      exact ih h
    next hmoving =>
      rw [if_neg hmoving] at h
      cases hindex : headGetIndex store.headState with
      | zero =>
        rw [hindex] at h
        exact h
      | succ ix =>
        rw [hindex] at h
        dsimp only at h ⊢
        cases hpop : popDown (headGetEpoch store.headState) store.cells ix with
        | again cells =>
          rw [hpop] at h
          exact ih h
        | notFound cells | found cells ix' item =>
          rw [hpop] at h
          exact h

theorem viewLoop_mono {r : StackStore α × StackStore α}
    (h : viewLoop n store = some r) : viewLoop (n + 1) store = some r := by
  induction n generalizing store with
  | zero => cases h
  | succ n ih =>
    rw [viewLoop] at h ⊢
    split
    next hclaimed =>
      rw [if_pos hclaimed] at h
      exact ih h
    next hclaimed =>
      rw [if_neg hclaimed] at h
      exact h

/-- An operation that ends does so with more passes too. -/
theorem exec_mono {op : StackOp α}
    {r : StackOut α × StackStore α} (h : store.exec n op = some r) :
    store.exec (n + 1) op = some r := by
  cases op with
  | push x =>
    obtain ⟨next, hnext, rfl⟩ := Option.map_eq_some_iff.mp h
    exact Option.map_eq_some_iff.mpr ⟨next, pushLoop_mono hnext, rfl⟩
  | pop =>
    obtain ⟨r, hr, rfl⟩ := Option.map_eq_some_iff.mp h
    exact Option.map_eq_some_iff.mpr ⟨r, popLoop_mono hr, rfl⟩
  | peek => exact h
  | view =>
    obtain ⟨r, hr, rfl⟩ := Option.map_eq_some_iff.mp h
    exact Option.map_eq_some_iff.mpr ⟨r, viewLoop_mono hr, rfl⟩

/-- An operation has one result. -/
theorem exec_unique {m n : Nat} {op : StackOp α}
    {r r' : StackOut α × StackStore α} (h : store.exec m op = some r)
    (h' : store.exec n op = some r') : r = r' := by
  have hmono : ∀ {n r} d, store.exec n op = some r → store.exec (n + d) op = some r := by
    intro n r d h
    induction d with
    | zero => exact h
    | succ d ih => exact exec_mono ih
  have hm := hmono n h
  have hn := hmono m h'
  rw [Nat.add_comm n m, hm] at hn
  exact Option.some.inj hn

/-- **Every operation that fits** does what it does on the abstract stack. -/
theorem Holds.exec (h : Holds store xs) (op : StackOp α)
    (hfits : FitsOp store op) :
    ∃ n next, store.exec n op = some ((specStep xs op).1, next) ∧
      Holds next (specStep xs op).2 := by
  cases op with
  | push x =>
    obtain ⟨n, next, hnext, hholds⟩ := h.push x hfits
    exact ⟨n, next, by rw [StackStore.exec, hnext]; rfl, hholds⟩
  | pop =>
    obtain ⟨n, next, hnext, hholds⟩ := h.pop
    exact ⟨n, next, by rw [StackStore.exec, hnext]; rfl, hholds⟩
  | peek => exact ⟨0, store, by rw [StackStore.exec, h.peek]; rfl, h⟩
  | view =>
    obtain ⟨n, old, next, hnext, hitems, hholds⟩ := h.view
    exact ⟨n, next, by rw [StackStore.exec, hnext, specStep, ← hitems]; rfl, hholds⟩

/-- A run of such operations gives the replies of the abstract stack. -/
theorem Holds.run {store last : StackStore α} {ops : List (StackOp α)}
    {outs : List (StackOut α)} (h : Holds store xs) (hrun : StackRun FitsOp store ops outs last) :
    outs = specRun xs ops ∧ ∃ ys, Holds last ys := by
  induction hrun generalizing xs with
  | nil store => exact ⟨rfl, xs, h⟩
  | cons n ok step rest ih =>
    obtain ⟨m, next, hnext, hholds⟩ := h.exec _ ok
    obtain ⟨hout, rfl⟩ := Prod.mk.inj (exec_unique step hnext)
    obtain ⟨houts, hlast⟩ := ih hholds
    exact ⟨by rw [hout, houts, specRun], hlast⟩

/-- **Every run is that of a stack, as long as no push takes the last index of 32 bits, and every
operation ends.** -/
theorem run_lifo (prealloc : Nat) {ops : List (StackOp α)} {outs : List (StackOut α)}
    {last : StackStore α} (h : StackRun FitsOp (hatstackNew prealloc) ops outs last) :
    outs = specRun [] ops ∧ ∀ op, FitsOp last op → ∃ n r, last.exec n op = some r := by
  obtain ⟨houts, ys, hholds⟩ := (holds_hatstackNew prealloc).run h
  refine ⟨houts, fun op hfits => ?_⟩
  obtain ⟨n, next, hnext, _⟩ := hholds.exec op hfits
  exact ⟨n, _, hnext⟩

theorem run_lifo_twoPushes :
    ([.pushed, .pushed, .item true (some 7)] : List (StackOut Nat)) =
      specRun [] [.push 5, .push 7, .peek] := by
  refine (run_lifo 0 (.cons 1 ?_ rfl (.cons 1 ?_ rfl (.cons 0 ?_ rfl (.nil _))))).1
  · exact ⟨64, by decide, by decide, .inl (Nat.le_refl 64)⟩
  · exact ⟨64, by decide, by decide, .inl (Nat.le_refl 64)⟩
  · trivial

/-- Runs are composed. -/
theorem StackRun.append {P : StackStore α → StackOp α → Prop} {store mid last : StackStore α}
    {ops ops' : List (StackOp α)} {outs outs' : List (StackOut α)}
    (h : StackRun P store ops outs mid) (h' : StackRun P mid ops' outs' last) :
    StackRun P store (ops ++ ops') (outs ++ outs') last := by
  induction h with
  | nil store => exact h'
  | cons n ok step rest ih => exact .cons n ok step (ih h')

theorem pushes (x : α) (store : StackStore α) (m n : Nat) (hsize : 2 ^ 32 ≤ store.numCells)
    (hhead : store.headState = 2 ^ 32 + m) (hempty : ∀ k, m ≤ k → store.cells k = protoItemEmpty)
    (hlast : m + n ≤ 2 ^ 32) :
    ∃ last, StackRun (fun _ _ => True) store (List.replicate n (.push x))
        (List.replicate n .pushed) last ∧
      last.headState = 2 ^ 32 + (m + n) ∧ 2 ^ 32 ≤ last.numCells := by
  induction n generalizing store m with
  | zero => exact ⟨store, .nil store, hhead, hsize⟩
  | succ n ih =>
    have hindex : headGetIndex store.headState = m := by
      unfold headGetIndex
      omega
    have hmoving : headIsMoving store.headState store.numCells = false := by
      refine decide_eq_false ?_
      omega
    have hcell := hempty m (Nat.le_refl m)
    have hstep : store.exec 1 (.push x) = some (.pushed,
        { store with
          headState := (store.headState + 1) % 2 ^ 64
          cells := store.cells.set m { (protoItemPushed : StackItem α) with
            item := some x
            validAfter := (headGetEpoch store.headState + 2 ^ 32 - 1) % 2 ^ 32 } }) := by
      rw [StackStore.exec, pushLoop]
      dsimp only
      rw [hmoving, if_neg Bool.false_ne_true, hindex, if_pos hcell]
      rfl
    obtain ⟨last, hrun, hend, hcells⟩ := ih
      { store with
        headState := (store.headState + 1) % 2 ^ 64
        cells := store.cells.set m { (protoItemPushed : StackItem α) with
          item := some x
          validAfter := (headGetEpoch store.headState + 2 ^ 32 - 1) % 2 ^ 32 } } (m + 1) hsize
      (by dsimp only; omega)
      (fun k hk => by dsimp only; rw [Cells.set_of_ne _ (by omega)]; exact hempty k (by omega))
      (by omega)
    refine ⟨last, ?_, by omega, hcells⟩
    rw [List.replicate_succ, List.replicate_succ]
    exact .cons 1 trivial hstep hrun

/-- The last of 2 to the power of 32 items in a store takes the index into the epoch, and the stack
looks empty. -/
theorem not_lifo :
    ∃ (ops : List (StackOp Nat)) (outs : List (StackOut Nat)) (last : StackStore Nat),
      StackRun (fun _ _ => True) (hatstackNew (2 ^ 32)) ops outs last ∧ outs ≠ specRun [] ops := by
  have hnumCells : 2 ^ 32 ≤ (hatstackNew (2 ^ 32) : StackStore Nat).numCells := by decide
  have hhead : (hatstackNew (2 ^ 32) : StackStore Nat).headState = 2 ^ 32 + 0 := by decide
  obtain ⟨last, hrun, hend, hcells⟩ := pushes 7 (hatstackNew (2 ^ 32) : StackStore Nat) 0 (2 ^ 32)
    hnumCells hhead (fun _ _ => rfl) (Nat.le_refl _)
  generalize hn : 2 ^ 32 = n at hrun
  have hindex : headGetIndex last.headState = 0 := by
    unfold headGetIndex
    omega
  have hmoving : headIsMoving last.headState last.numCells = false := by
    refine decide_eq_false ?_
    unfold headGetIndex at hindex
    omega
  have hpop : last.exec 1 .pop = some (.item false none, last) := by
    rw [StackStore.exec, popLoop, hmoving, if_neg Bool.false_ne_true, hindex]
    rfl
  refine ⟨_, _, last, hrun.append (.cons 1 trivial hpop (.nil last)), fun heq => ?_⟩
  rw [specRun_append, specItems_push, List.nil_append] at heq
  have hlast := congrArg List.getLast? heq
  obtain ⟨k, rfl⟩ : ∃ k, n = k + 1 := ⟨n - 1, by omega⟩
  rw [List.replicate_succ' (a := 7), specRun, specRun, specStep, List.getLast?_concat,
    List.getLast?_concat, List.getLast?_concat] at hlast
  simp at hlast

end

end N00b.Hatrack
