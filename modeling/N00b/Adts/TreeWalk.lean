import Mathlib

/-!
# Walks of graphs of tree nodes

`internal_walker`, `n00b_tree_walk_with_cycles` and `n00b_tree_walk` of adts/tree.nc. The nodes of
the current path are entered in a dictionary, and taken out again when their children have been
walked. A node that the callback refuses is not taken out.

## Representation

* A node is a pointer, of any type with finitely many values. Its children may be null pointers.
* The callback is a function of the node and the depth. What the two callbacks are called with is
  recorded in order.
* A call nests once for each node of a path, and is given that many turns.
-/

namespace N00b.Adts

/-- What a callback is called with. -/
inductive WalkEvent (Node : Type*) where
  | call (cur : Node) (depth : ℕ)
  | cycle (cur : Node) (depth : ℕ)
deriving DecidableEq, Repr

/-- `walk_ctx`, with the calls that have been made. -/
structure WalkCtx (Node : Type*) where
  memos : Finset Node
  depth : ℕ
  events : List (WalkEvent Node)

structure Walk (Node : Type*) where
  children : Node → List (Option Node)
  callback : Node → ℕ → Bool

/-! ## Calls that differ -/

section

variable {Node : Type*} {start first calls made : List (WalkEvent Node)}

/-- Calls that are made otherwise than they should be, from some place on: a cycle is reported where
the callback should be called. -/
def Departs (start calls made : List (WalkEvent Node)) : Prop :=
  ∃ agreed n d rest rest', calls = agreed ++ .call n d :: rest ∧
    made = start ++ agreed ++ .cycle n d :: rest'

/-- A departure is not undone by later calls. -/
theorem Departs.append (h : Departs start calls made) (more more' : List (WalkEvent Node)) :
    Departs start (calls ++ more) (made ++ more') := by
  obtain ⟨agreed, n, d, rest, rest', rfl, rfl⟩ := h
  exact ⟨agreed, n, d, rest ++ more, rest' ++ more', by simp, by simp⟩

/-- A departure after a common start is one of the whole sequences. -/
theorem Departs.prepend (h : Departs (start ++ first) calls made) :
    Departs start (first ++ calls) made := by
  obtain ⟨agreed, n, d, rest, rest', rfl, rfl⟩ := h
  exact ⟨first ++ agreed, n, d, rest, rest', by simp, by simp⟩

/-- Sequences of calls that depart are different. -/
theorem Departs.ne (h : Departs [] calls made) : made ≠ calls := by
  obtain ⟨agreed, n, d, rest, rest', rfl, rfl⟩ := h
  intro heq
  rw [List.nil_append, List.append_cancel_left_eq] at heq
  cases heq

/-- A walk over a list of children only adds events when each step does. -/
theorem events_of_kids {step : WalkCtx Node → Option Node → Option (WalkCtx Node)}
    (hstep : ∀ {ctx kid ctx'}, step ctx kid = some ctx' → ctx.events <+: ctx'.events)
    {kids : List (Option Node)} {ctx ctx' : WalkCtx Node}
    (h : kids.foldlM step ctx = some ctx') : ctx.events <+: ctx'.events := by
  induction kids generalizing ctx with
  | nil =>
    rw [List.foldlM_nil] at h
    cases h
    exact List.prefix_rfl
  | cons kid kids ih =>
    rw [List.foldlM_cons] at h
    obtain ⟨next, hnext, hrest⟩ := Option.bind_eq_some_iff.mp h
    exact (hstep hnext).trans (ih hrest)

end

namespace Walk

variable {Node : Type*} [DecidableEq Node] (w : Walk Node)

/-- `internal_walker`. -/
def internalWalker : ℕ → WalkCtx Node → Option Node → Option (WalkCtx Node)
  | 0, _, _ => none
  | _ + 1, ctx, none => some ctx
  | turns + 1, ctx, some cur =>
    if cur ∈ ctx.memos then
      some { ctx with events := ctx.events ++ [.cycle cur ctx.depth] }
    else if w.callback cur ctx.depth then
      ((w.children cur).foldlM (fun ctx kid => internalWalker turns ctx kid)
        { memos := insert cur ctx.memos, depth := ctx.depth + 1,
          events := ctx.events ++ [.call cur ctx.depth] }).map fun ctx =>
            { ctx with depth := ctx.depth - 1, memos := ctx.memos.erase cur }
    else
      -- The node stays in the dictionary.
      some { ctx with
        memos := insert cur ctx.memos, events := ctx.events ++ [.call cur ctx.depth] }

/-- `n00b_tree_walk_with_cycles`. -/
def treeWalkWithCycles (turns : ℕ) (root : Option Node) : Option (WalkCtx Node) :=
  w.internalWalker turns { memos := ∅, depth := 0, events := [] } root

/-! ## What a walk should do -/

/-- A path: its last node, and the nodes above it from the last one to the root. -/
structure Visit (Node : Type*) where
  above : List Node
  cur : Node
deriving DecidableEq, Repr

def Visit.event (v : Visit Node) : WalkEvent Node :=
  if v.cur ∈ v.above then .cycle v.cur v.above.length else .call v.cur v.above.length

def Accepted (v : Visit Node) : Prop :=
  v.cur ∉ v.above ∧ w.callback v.cur v.above.length = true

/-- A path that ends because the callback says so. -/
def Refused (v : Visit Node) : Prop :=
  v.cur ∉ v.above ∧ w.callback v.cur v.above.length = false

instance : DecidablePred w.Accepted := fun _ => inferInstanceAs (Decidable (_ ∧ _))
instance : DecidablePred w.Refused := fun _ => inferInstanceAs (Decidable (_ ∧ _))

/-- The paths from the root that a walk should follow. -/
inductive Reaches (root : Option Node) : Visit Node → Prop
  | root {n : Node} (h : root = some n) : Reaches root ⟨[], n⟩
  | kid {v : Visit Node} {n : Node} (hv : Reaches root v) (hacc : w.Accepted v)
      (hkid : some n ∈ w.children v.cur) : Reaches root ⟨v.cur :: v.above, n⟩

/-- The nodes that are not on a path. -/
def unseen [Fintype Node] (above : List Node) : ℕ := (Finset.univ.filter (· ∉ above)).card

/-- Going down to a new node leaves one node less to see. -/
theorem unseen_cons [Fintype Node] {above : List Node} {cur : Node} (h : cur ∉ above) :
    unseen above = unseen (cur :: above) + 1 := by
  have hinsert : Finset.univ.filter (· ∉ above) =
      insert cur (Finset.univ.filter (· ∉ cur :: above)) := by
    ext n
    by_cases hn : n = cur
    · simp [hn, h]
    · simp [hn]
  rw [unseen, unseen, hinsert, Finset.card_insert_of_notMem (by simp)]

/-- The paths that go on from a path, in pre-order, itself first. -/
def visitsFrom [Fintype Node] (above : List Node) (cur : Node) : List (Visit Node) :=
  ⟨above, cur⟩ ::
    if _h : cur ∉ above ∧ w.callback cur above.length = true then
      (w.children cur).flatMap fun kid => (kid.map fun n => visitsFrom (cur :: above) n).getD []
    else []
termination_by unseen above
decreasing_by
  rw [unseen_cons _h.1]
  exact Nat.lt_succ_self _

section

variable [Fintype Node]

def visits (above : List Node) (kid : Option Node) : List (Visit Node) :=
  (kid.map (w.visitsFrom above)).getD []

/-- **The calls of a walk in order**: one for each path. -/
def calls (root : Option Node) : List (WalkEvent Node) := (w.visits [] root).map Visit.event

def Exact (root : Option Node) : Prop :=
  ∀ turns, Fintype.card Node < turns →
    ∃ ctx, w.treeWalkWithCycles turns root = some ctx ∧ ctx.events = w.calls root

/-- No path comes to a node that an earlier path was refused at. -/
def RefusedOnce (root : Option Node) : Prop :=
  (w.visits [] root).Pairwise fun v v' => w.Refused v → v'.cur ≠ v.cur

instance (root : Option Node) : Decidable (w.RefusedOnce root) :=
  inferInstanceAs (Decidable (List.Pairwise _ _))

variable {w}

/-! ## The paths -/

/-- An absent child is not visited. -/
@[simp]
theorem visits_none (above : List Node) : w.visits above none = [] := rfl

/-- A node is visited before the visits of its children. -/
theorem visits_some (above : List Node) (cur : Node) :
    w.visits above (some cur) = ⟨above, cur⟩ ::
      if w.Accepted ⟨above, cur⟩ then (w.children cur).flatMap (w.visits (cur :: above))
      else [] := by
  change w.visitsFrom above cur = _
  rw [visitsFrom]
  rfl

/-- Every visit of the expected walk is reachable from the root. -/
theorem reaches_of_mem_visits {root : Option Node} {above : List Node} {kid : Option Node}
    {v : Visit Node} (hkid : ∀ n, kid = some n → w.Reaches root ⟨above, n⟩)
    (hv : v ∈ w.visits above kid) : w.Reaches root v := by
  obtain ⟨size, hsize⟩ : ∃ size, size = unseen above := ⟨_, rfl⟩
  induction size using Nat.strong_induction_on generalizing above kid with
  | _ size ih =>
    cases kid with
    | none => simp at hv
    | some cur =>
      rw [visits_some, List.mem_cons] at hv
      rcases hv with rfl | hv
      · exact hkid cur rfl
      · split at hv
        next hacc =>
          obtain ⟨kid', hkid', hv⟩ := List.mem_flatMap.mp hv
          have hless : unseen above = unseen (cur :: above) + 1 := unseen_cons hacc.1
          refine ih (unseen (cur :: above)) (by omega) (fun n hn => ?_) hv rfl
          subst hn
          exact (hkid cur rfl).kid hacc hkid'
        · exact absurd hv List.not_mem_nil

/-- The expected walk visits the children of every accepted visit. -/
theorem mem_visits_kid {above : List Node} {kid : Option Node} {v : Visit Node} {n : Node}
    (hv : v ∈ w.visits above kid) (hacc : w.Accepted v) (hn : some n ∈ w.children v.cur) :
    ⟨v.cur :: v.above, n⟩ ∈ w.visits above kid := by
  obtain ⟨size, hsize⟩ : ∃ size, size = unseen above := ⟨_, rfl⟩
  induction size using Nat.strong_induction_on generalizing above kid with
  | _ size ih =>
    cases kid with
    | none => simp at hv
    | some cur =>
      rw [visits_some, List.mem_cons] at hv
      rcases hv with rfl | hv
      · rw [visits_some, if_pos hacc]
        refine List.mem_cons_of_mem _ (List.mem_flatMap.mpr ⟨some n, hn, ?_⟩)
        rw [visits_some]
        exact List.mem_cons_self
      · split at hv
        next hcur =>
          obtain ⟨kid', hkid', hv⟩ := List.mem_flatMap.mp hv
          have hless : unseen above = unseen (cur :: above) + 1 := unseen_cons hcur.1
          rw [visits_some, if_pos hcur]
          refine List.mem_cons_of_mem _ (List.mem_flatMap.mpr ⟨kid', hkid', ?_⟩)
          exact ih (unseen (cur :: above)) (by omega) hv rfl
        · exact absurd hv List.not_mem_nil

/-- **The paths of a walk** are those on which the callback was true before their end, and only the
end may lie on the path already. -/
theorem mem_visits_iff {root : Option Node} {v : Visit Node} :
    v ∈ w.visits [] root ↔ w.Reaches root v := by
  constructor
  · exact reaches_of_mem_visits fun n hn => .root hn
  · intro hv
    induction hv with
    | root h =>
      rw [h, visits_some]
      exact List.mem_cons_self
    | kid hv hacc hkid ih => exact mem_visits_kid ih hacc hkid

end

variable {w}

/-! ## Nodes that stay in the dictionary -/

variable (w) in
/-- The nodes that have been refused after some paths. -/
def refusals (refused : Finset Node) (vs : List (Visit Node)) : Finset Node :=
  vs.foldl (fun refused v => if w.Refused v then insert v.cur refused else refused) refused

variable (w) in
/-- No path comes to a refused node. -/
def Fresh (refused : Finset Node) : List (Visit Node) → Prop
  | [] => True
  | v :: vs => v.cur ∉ refused ∧ Fresh (w.refusals refused [v]) vs

theorem refusals_cons (refused : Finset Node) (v : Visit Node) (vs : List (Visit Node)) :
    w.refusals refused (v :: vs) = w.refusals (w.refusals refused [v]) vs := rfl

/-- The refusals of two walks in a row are collected one after the other. -/
theorem refusals_append (refused : Finset Node) (vs vs' : List (Visit Node)) :
    w.refusals refused (vs ++ vs') = w.refusals (w.refusals refused vs) vs' :=
  List.foldl_append

/-- An accepted visit refuses no node. -/
theorem refusals_one_of_not {refused : Finset Node} {v : Visit Node} (h : ¬ w.Refused v) :
    w.refusals refused [v] = refused := if_neg h

/-- A refused visit adds its node. -/
theorem refusals_one_of {refused : Finset Node} {v : Visit Node} (h : w.Refused v) :
    w.refusals refused [v] = insert v.cur refused := if_pos h

/-- Two walks in a row meet no refused node iff each meets none of those before it. -/
theorem fresh_append (refused : Finset Node) (vs vs' : List (Visit Node)) :
    w.Fresh refused (vs ++ vs') ↔ w.Fresh refused vs ∧ w.Fresh (w.refusals refused vs) vs' := by
  induction vs generalizing refused with
  | nil => simp [Fresh, refusals]
  | cons v vs ih => rw [List.cons_append, Fresh, Fresh, ih, and_assoc, ← refusals_cons]

/-- A walk meets no refused node iff none was refused before it and no visit comes back to one. -/
theorem fresh_iff (refused : Finset Node) (vs : List (Visit Node)) :
    w.Fresh refused vs ↔
      (∀ v ∈ vs, v.cur ∉ refused) ∧ vs.Pairwise fun v v' => w.Refused v → v'.cur ≠ v.cur := by
  induction vs generalizing refused with
  | nil => simp [Fresh]
  | cons v vs ih =>
    rw [Fresh, ih, List.pairwise_cons, List.forall_mem_cons]
    by_cases hv : w.Refused v
    · simp only [refusals_one_of hv, Finset.mem_insert, not_or]
      constructor
      · rintro ⟨hcur, hrest, hpair⟩
        exact ⟨⟨hcur, fun v' hv' => (hrest v' hv').2⟩, fun v' hv' _ => (hrest v' hv').1, hpair⟩
      · rintro ⟨⟨hcur, hrest⟩, hapart, hpair⟩
        exact ⟨hcur, fun v' hv' => ⟨hapart v' hv' hv, hrest v' hv'⟩, hpair⟩
    · simp only [refusals_one_of_not hv, hv, false_implies, implies_true, true_and, and_assoc]

/-! ## Walking -/

/-- The walk is on a path, and has met some refusals. -/
structure OnPath (ctx : WalkCtx Node) (above : List Node) (refused : Finset Node) : Prop where
  memos : ∀ n, n ∈ ctx.memos ↔ n ∈ above ∨ n ∈ refused
  depth : ctx.depth = above.length
  apart : ∀ n ∈ above, n ∉ refused

/-- A walk only adds events. -/
theorem events_of_walk (turns : ℕ) {ctx ctx' : WalkCtx Node} {kid : Option Node}
    (h : w.internalWalker turns ctx kid = some ctx') : ctx.events <+: ctx'.events := by
  induction turns generalizing ctx ctx' kid with
  | zero => simp [internalWalker] at h
  | succ turns ih =>
    cases kid with
    | none =>
      rw [internalWalker, Option.some.injEq] at h
      rw [h]
    | some cur =>
      rw [internalWalker] at h
      split at h
      · cases h
        exact List.prefix_append _ _
      split at h
      · obtain ⟨last, hlast, rfl⟩ := Option.map_eq_some_iff.mp h
        exact (List.prefix_append _ _).trans (events_of_kids (fun h => ih h) hlast)
      · cases h
        exact List.prefix_append _ _

variable (w) in
/-- What a walk comes to, from a path with some refusals: the calls of its paths, or others. -/
def Comes (above : List Node) (refused : Finset Node) (vs : List (Visit Node))
    (ctx ctx' : WalkCtx Node) : Prop :=
  (w.Fresh refused vs ∧ OnPath ctx' above (w.refusals refused vs) ∧
      ctx'.events = ctx.events ++ vs.map Visit.event) ∨
    (¬ w.Fresh refused vs ∧ Departs ctx.events (vs.map Visit.event) ctx'.events)

variable {ctx ctx' next : WalkCtx Node} {above : List Node} {refused : Finset Node}
  {vs vs' : List (Visit Node)}

/-- Two parts of a walk in a row come out as one. -/
theorem Comes.append (h : w.Comes above refused vs ctx next)
    (hnext : OnPath next above (w.refusals refused vs) →
      w.Comes above (w.refusals refused vs) vs' next ctx')
    (hevents : next.events <+: ctx'.events) : w.Comes above refused (vs ++ vs') ctx ctx' := by
  rw [Comes, fresh_append, refusals_append, List.map_append]
  rcases h with ⟨hfresh, hpath, hmade⟩ | ⟨hfresh, hdeparts⟩
  · rcases hnext hpath with ⟨hfresh', hpath', hmade'⟩ | ⟨hfresh', hdeparts⟩
    · exact .inl ⟨⟨hfresh, hfresh'⟩, hpath', by rw [hmade', hmade, List.append_assoc]⟩
    · rw [hmade] at hdeparts
      exact .inr ⟨fun h => hfresh' h.2, hdeparts.prepend⟩
  · obtain ⟨more, hmore⟩ := hevents
    rw [← hmore]
    exact .inr ⟨fun h => hfresh h.1, hdeparts.append _ _⟩

/-- Entering a node puts it on the path. -/
theorem OnPath.enter {cur : Node} (h : OnPath ctx above refused) (hcur : cur ∉ refused)
    (events : List (WalkEvent Node)) :
    OnPath { memos := insert cur ctx.memos, depth := ctx.depth + 1, events } (cur :: above)
      refused where
  memos n := by simp [h.memos n, or_assoc]
  depth := by simp [h.depth]
  apart := List.forall_mem_cons.mpr ⟨hcur, h.apart⟩

theorem OnPath.leave {cur : Node} (h : OnPath ctx (cur :: above) refused) (hcur : cur ∉ above) :
    OnPath { ctx with depth := ctx.depth - 1, memos := ctx.memos.erase cur } above refused where
  memos := by
    intro n
    have hmemos := h.memos n
    have hapart := h.apart cur List.mem_cons_self
    rw [Finset.mem_erase, hmemos, List.mem_cons]
    grind
  depth := by simp [h.depth]
  apart n hn := h.apart n (List.mem_cons_of_mem _ hn)

theorem Comes.enter {cur : Node} {last : WalkCtx Node} (hacc : w.Accepted ⟨above, cur⟩)
    (hrefused : cur ∉ refused) (hnext : next.events = ctx.events ++ [Visit.event ⟨above, cur⟩])
    (h : w.Comes (cur :: above) refused vs next last) :
    w.Comes above refused (⟨above, cur⟩ :: vs) ctx
      { last with depth := last.depth - 1, memos := last.memos.erase cur } := by
  have hnot : ¬ w.Refused ⟨above, cur⟩ := by
    intro h
    exact Bool.false_ne_true (h.2.symm.trans hacc.2)
  rw [Comes, Fresh, refusals_cons refused _ vs, refusals_one_of_not hnot]
  rcases h with ⟨hfresh, hpath, hmade⟩ | ⟨hfresh, hdeparts⟩
  · exact .inl ⟨⟨hrefused, hfresh⟩, hpath.leave hacc.1, by simp [hmade, hnext]⟩
  · rw [hnext] at hdeparts
    exact .inr ⟨fun h => hfresh h.2, hdeparts.prepend⟩

section

variable [Fintype Node]

variable (w) in
theorem internalWalker_ends (turns : ℕ) (ctx : WalkCtx Node) (above : List Node)
    (kid : Option Node) (hmemos : ∀ n ∈ above, n ∈ ctx.memos) (hnodup : above.Nodup)
    (hturns : Fintype.card Node < turns + above.length) :
    ∃ ctx', w.internalWalker turns ctx kid = some ctx' ∧ ∀ n ∈ above, n ∈ ctx'.memos := by
  induction turns generalizing ctx above kid with
  | zero =>
    have hle := hnodup.length_le_card
    omega
  | succ turns ih =>
    cases kid with
    | none => exact ⟨ctx, rfl, hmemos⟩
    | some cur =>
      rw [internalWalker]
      by_cases hcur : cur ∈ ctx.memos
      · exact ⟨_, if_pos hcur, hmemos⟩
      rw [if_neg hcur]
      split
      · have habove : cur ∉ above := fun h => hcur (hmemos cur h)
        have hkids : ∀ (kids : List (Option Node)) (ctx : WalkCtx Node),
            (∀ n ∈ cur :: above, n ∈ ctx.memos) →
            ∃ last, kids.foldlM (fun ctx kid => w.internalWalker turns ctx kid) ctx = some last ∧
              ∀ n ∈ cur :: above, n ∈ last.memos := by
          intro kids
          induction kids with
          | nil => exact fun ctx hmem => ⟨ctx, rfl, hmem⟩
          | cons kid kids ihkids =>
            intro ctx hmem
            have hnodup' : (cur :: above).Nodup := List.nodup_cons.mpr ⟨habove, hnodup⟩
            obtain ⟨next, hnext, hmem'⟩ := ih ctx (cur :: above) kid hmem hnodup'
              (by rw [List.length_cons]; omega)
            obtain ⟨last, hlast, hmem''⟩ := ihkids next hmem'
            refine ⟨last, ?_, hmem''⟩
            rw [List.foldlM_cons, hnext]
            exact hlast
        obtain ⟨last, hlast, hmem⟩ := hkids (w.children cur)
          { memos := insert cur ctx.memos, depth := ctx.depth + 1,
            events := ctx.events ++ [.call cur ctx.depth] }
          (by
            intro n hn
            rcases List.mem_cons.mp hn with rfl | hn
            · exact Finset.mem_insert_self _ _
            · exact Finset.mem_insert_of_mem (hmemos n hn))
        refine ⟨_, congrArg _ hlast, fun n hn => ?_⟩
        refine Finset.mem_erase.mpr ⟨?_, hmem n (List.mem_cons_of_mem _ hn)⟩
        rintro rfl
        exact habove hn
      · exact ⟨_, rfl, fun n hn => Finset.mem_insert_of_mem (hmemos n hn)⟩

variable (w) in
theorem treeWalkWithCycles_ends (root : Option Node) {turns : ℕ}
    (h : Fintype.card Node < turns) : ∃ ctx, w.treeWalkWithCycles turns root = some ctx := by
  have hends := w.internalWalker_ends turns { memos := ∅, depth := 0, events := [] } [] root
    (by simp) List.nodup_nil (by simpa using h)
  exact hends.imp fun ctx hctx => hctx.1

theorem comes_of_kids {step : WalkCtx Node → Option Node → Option (WalkCtx Node)}
    (hevents : ∀ {ctx kid ctx'}, step ctx kid = some ctx' → ctx.events <+: ctx'.events)
    (hstep : ∀ {ctx kid ctx' refused}, OnPath ctx above refused → step ctx kid = some ctx' →
      w.Comes above refused (w.visits above kid) ctx ctx')
    {kids : List (Option Node)} (hpath : OnPath ctx above refused)
    (h : kids.foldlM step ctx = some ctx') :
    w.Comes above refused (kids.flatMap (w.visits above)) ctx ctx' := by
  induction kids generalizing ctx refused with
  | nil =>
    rw [List.foldlM_nil] at h
    cases h
    exact .inl ⟨trivial, hpath, by simp⟩
  | cons kid kids ih =>
    rw [List.foldlM_cons] at h
    obtain ⟨next, hnext, hrest⟩ := Option.bind_eq_some_iff.mp h
    rw [List.flatMap_cons]
    exact (hstep hpath hnext).append (fun hpath' => ih hpath' hrest) (events_of_kids hevents hrest)

theorem comes_of_mem {cur : Node} (hpath : OnPath ctx above refused) (hcur : cur ∈ ctx.memos) :
    w.Comes above refused (w.visits above (some cur)) ctx
      { ctx with events := ctx.events ++ [.cycle cur ctx.depth] } := by
  rw [visits_some]
  rcases (hpath.memos cur).mp hcur with habove | hrefused
  · have hacc : ¬ w.Accepted ⟨above, cur⟩ := fun h => h.1 habove
    have hnot : ¬ w.Refused ⟨above, cur⟩ := fun h => h.1 habove
    rw [if_neg hacc, Comes, refusals_one_of_not hnot]
    refine .inl ⟨⟨hpath.apart cur habove, trivial⟩, ⟨hpath.memos, hpath.depth, hpath.apart⟩, ?_⟩
    simp [Visit.event, habove, hpath.depth]
  · have habove : cur ∉ above := fun h => hpath.apart cur h hrefused
    rw [Comes, List.map_cons, Visit.event, if_neg habove, ← hpath.depth]
    exact .inr ⟨fun h => h.1 hrefused, [], cur, ctx.depth, _, [], rfl, by simp⟩

theorem comes_of_walk (turns : ℕ) {kid : Option Node} (hpath : OnPath ctx above refused)
    (h : w.internalWalker turns ctx kid = some ctx') :
    w.Comes above refused (w.visits above kid) ctx ctx' := by
  induction turns generalizing ctx ctx' above refused kid with
  | zero => simp [internalWalker] at h
  | succ turns ih =>
    cases kid with
    | none =>
      rw [internalWalker, Option.some.injEq] at h
      subst h
      exact .inl ⟨trivial, hpath, by simp⟩
    | some cur =>
      rw [internalWalker] at h
      by_cases hcur : cur ∈ ctx.memos
      · rw [if_pos hcur, Option.some.injEq] at h
        subst h
        exact comes_of_mem hpath hcur
      have habove : cur ∉ above := fun h => hcur ((hpath.memos cur).mpr (.inl h))
      have hrefused : cur ∉ refused := fun h => hcur ((hpath.memos cur).mpr (.inr h))
      have hevent : (⟨above, cur⟩ : Visit Node).event = .call cur ctx.depth := by
        rw [Visit.event, if_neg habove, hpath.depth]
      rw [if_neg hcur] at h
      rw [visits_some]
      by_cases hcallback : w.callback cur ctx.depth = true
      · have hacc : w.Accepted ⟨above, cur⟩ := ⟨habove, by rw [← hpath.depth]; exact hcallback⟩
        rw [if_pos hcallback] at h
        obtain ⟨last, hlast, rfl⟩ := Option.map_eq_some_iff.mp h
        rw [if_pos hacc]
        have hkids := comes_of_kids (events_of_walk turns) ih (hpath.enter hrefused _) hlast
        exact hkids.enter hacc hrefused (by rw [hevent])
      · have hacc : ¬ w.Accepted ⟨above, cur⟩ := by
          intro h
          exact hcallback (by rw [hpath.depth]; exact h.2)
        have href : w.Refused ⟨above, cur⟩ :=
          ⟨habove, by rw [← hpath.depth]; exact Bool.eq_false_iff.mpr hcallback⟩
        rw [if_neg hcallback, Option.some.injEq] at h
        subst h
        rw [if_neg hacc, Comes, refusals_one_of href, List.map_singleton, hevent]
        refine .inl ⟨⟨hrefused, trivial⟩, ⟨fun n => ?_, hpath.depth, fun n hn => ?_⟩, rfl⟩
        · simp [hpath.memos n, or_left_comm]
        · rw [Finset.mem_insert, not_or]
          exact ⟨fun h => habove (by rw [← show n = cur from h]; exact hn), hpath.apart n hn⟩

variable (w)

/-- **Walks.** A walk ends, and its calls are the ones that it should make just if no path comes to
a node that the callback has refused on an earlier one. -/
theorem treeWalkWithCycles_exact_iff (root : Option Node) :
    (∀ turns, Fintype.card Node < turns → (w.treeWalkWithCycles turns root).isSome) ∧
      (w.Exact root ↔ w.RefusedOnce root) := by
  have hstart : OnPath { memos := ∅, depth := 0, events := [] } [] (∅ : Finset Node) :=
    ⟨by simp, rfl, by simp⟩
  have hfresh : w.Fresh ∅ (w.visits [] root) ↔ w.RefusedOnce root := by
    simp [fresh_iff, RefusedOnce]
  refine ⟨fun turns hturns => ?_, ⟨fun hexact => ?_, fun honce turns hturns => ?_⟩⟩
  · obtain ⟨ctx, hctx⟩ := w.treeWalkWithCycles_ends root hturns
    rw [hctx]
    rfl
  · obtain ⟨ctx, hctx, hcalls⟩ := hexact _ (Nat.lt_succ_self _)
    rcases comes_of_walk _ hstart hctx with ⟨honce, -, -⟩ | ⟨-, hdeparts⟩
    · exact hfresh.mp honce
    · exact absurd hcalls hdeparts.ne
  · obtain ⟨ctx, hctx⟩ := w.treeWalkWithCycles_ends root hturns
    refine ⟨ctx, hctx, ?_⟩
    rcases comes_of_walk _ hstart hctx with ⟨-, -, hmade⟩ | ⟨honce', -⟩
    · exact hmade
    · exact absurd (hfresh.mpr honce) honce'

end

/-- **A refused node that is a child twice**: the second time it is taken for a cycle. -/
theorem not_walk_exact :
    ¬ ∀ (Node : Type) [DecidableEq Node] [Fintype Node] (w : Walk Node) (root : Option Node),
      w.Exact root := by
  intro h
  obtain ⟨ctx, hctx, hcalls⟩ := h Bool
    { children := fun n => if n then [] else [some true, some true], callback := fun n _ => !n }
    (some false) 3 (by decide)
  simp [treeWalkWithCycles, internalWalker] at hctx
  rw [← hctx] at hcalls
  simp [calls, visits_some, Accepted, Visit.event] at hcalls

end Walk

end N00b.Adts
