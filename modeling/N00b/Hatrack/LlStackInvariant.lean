import N00b.Hatrack.LlStack

/-!
# What holds of the lock-free stack

A record is on the stack, or it belongs to one thread. A thread that reads a record of another one
has reserved an epoch before it was retired, so that the record is not freed under it, and the same
address cannot come back to the stack.

## Main results

* `Inv`: the invariant.
* `Inv.update`: what a step of one thread has to keep.
* `Inv.change`: a step that does not free what is retired.
-/

namespace N00b.Hatrack.LlStack

open N00b.Lib

/-! ## Who has a record -/

/-- Where a record in use is. -/
inductive Place where
  | stack
  | thread (t : ThreadId)
deriving DecidableEq, Repr

def epochOf (heap : Addr → Option Cell) (a : Addr) : ℕ := (heap a).elim 0 Cell.retireEpoch

def itemOf (heap : Addr → Option Cell) (a : Addr) : ℕ := (heap a).elim 0 Cell.item

/-- The records that no other thread has a use for: those that are not yet pushed, and those that
are about to be freed. -/
def Pc.own : Pc → List Addr
  | .readHead _ node | .casHead _ node _ => [node]
  | .free _ cells => cells
  | _ => []

/-- A record that was popped and is not yet retired. -/
def Pc.popped : Pc → List Addr
  | .retire top _ => [top]
  | _ => []

/-- The record that the thread uses and that may belong to another one. -/
def Pc.hazard : Pc → Option Addr
  | .readNext top | .casTop top _ => some top
  | _ => none

/-- All records of a thread. -/
def Thread.mine (th : Thread) : List Addr := th.pc.own ++ (th.pc.popped ++ th.retireList)

/-- The epoch that the thread has reserved, or is about to, is over. -/
def Pc.Reserved (epoch reservation : ℕ) : Pc → Prop
  | .unborn | .acquired | .idle | .start _ => True
  | .reserve _ e => e ≤ epoch
  | _ => reservation ≤ epoch

/-- What the local variables say about the records. -/
def Pc.Local (heap : Addr → Option Cell) : Pc → Prop
  | .casHead item node head => ∃ e, heap node = some ⟨e, head, item⟩
  | .casTop top next => (heap top).map Cell.next = some next
  | .crashed => False
  | _ => True

/-- A scan that has passed the thread `t` has seen that it holds on to what was retired in
`epoch`. -/
def Pc.Passed (t : ThreadId) (epoch : ℕ) : Pc → Prop
  | .scan _ i lasttid lowest => t < lasttid ∧ (t < i → lowest ≤ epoch)
  | _ => True

/-- The thread `t` may read the record. -/
def Guarded (s : State) (owner : Addr → Option Place) (t : ThreadId) (a : Addr) : Prop :=
  owner a ≠ none ∧ ∀ u, owner a = some (.thread u) →
    a ∉ (s.thread u).pc.own ∧ (a ∈ (s.thread u).retireList →
      s.reservations t ≤ epochOf s.heap a ∧ (s.thread u).pc.Passed t (epochOf s.heap a))

/-- The records from `head` on. -/
def Linked (heap : Addr → Option Cell) : Addr → List Addr → Prop
  | head, [] => head = 0
  | head, a :: rest => head = a ∧ ∃ c, heap a = some c ∧ Linked heap c.next rest

/-- What holds of each thread. -/
structure ThreadOk (s : State) (owner : Addr → Option Place) (t : ThreadId) : Prop where
  born : (s.thread t).pc ≠ .unborn → t < s.nexttid
  reserved : (s.thread t).pc.Reserved s.epoch (s.reservations t)
  sorted : (s.thread t).retireList.Pairwise fun a b => epochOf s.heap b ≤ epochOf s.heap a
  retired : ∀ a ∈ (s.thread t).retireList, epochOf s.heap a ≤ s.epoch
  locals : (s.thread t).pc.Local s.heap
  guarded : ∀ a, (s.thread t).pc.hazard = some a → Guarded s owner t a

/-- **The invariant**, for the records on the stack and the places of all records. -/
structure Inv (s : State) (nodes : List Addr) (owner : Addr → Option Place) : Prop where
  null : s.heap 0 = none
  live : ∀ a, owner a = none ↔ s.heap a = none
  stack : ∀ a, owner a = some .stack ↔ a ∈ nodes
  mine : ∀ t a, owner a = some (.thread t) ↔ a ∈ (s.thread t).mine
  nodes_nodup : nodes.Nodup
  mine_nodup : ∀ t, (s.thread t).mine.Nodup
  linked : Linked s.heap s.head nodes
  tids : s.nexttid ≤ threadsMax
  threads : ∀ t, ThreadOk s owner t

variable {s s' : State} {nodes nodes' l : List Addr} {owner owner' : Addr → Option Place}
  {heap heap' : Addr → Option Cell} {t u : ThreadId} {a x head : Addr}

/-! ## Links -/

theorem Linked.congr (h : Linked heap head nodes) (hheap : ∀ a ∈ nodes, heap' a = heap a) :
    Linked heap' head nodes := by
  induction nodes generalizing head with
  | nil => exact h
  | cons a rest ih =>
    obtain ⟨rfl, c, hc, hrest⟩ := h
    refine ⟨rfl, c, (hheap _ List.mem_cons_self).trans hc, ih hrest fun b hb => ?_⟩
    exact hheap b (List.mem_cons_of_mem _ hb)

theorem Linked.eq_nil (h : Linked heap 0 nodes) (hnull : heap 0 = none) : nodes = [] := by
  rcases nodes with _ | ⟨a, rest⟩
  · rfl
  · obtain ⟨rfl, c, hc, -⟩ := h
    rw [hnull] at hc
    cases hc

theorem Linked.eq_cons (h : Linked heap head nodes) (hne : head ≠ 0) :
    ∃ c rest, nodes = head :: rest ∧ heap head = some c ∧ Linked heap c.next rest := by
  rcases nodes with _ | ⟨a, rest⟩
  · exact absurd h hne
  · obtain ⟨rfl, c, hc, hrest⟩ := h
    exact ⟨c, rest, rfl, hc, hrest⟩

/-! ## Places -/

theorem Inv.ne_zero (h : Inv s nodes owner) (ha : owner a ≠ none) : a ≠ 0 := by
  rintro rfl
  exact ha ((h.live 0).mpr h.null)

theorem Inv.own_place (h : Inv s nodes owner) (ha : a ∈ (s.thread t).pc.own) :
    owner a = some (.thread t) :=
  (h.mine t a).mpr (List.mem_append_left _ ha)

theorem Inv.retired_place (h : Inv s nodes owner) (ha : a ∈ (s.thread t).retireList) :
    owner a = some (.thread t) :=
  (h.mine t a).mpr (List.mem_append_right _ (List.mem_append_right _ ha))

theorem Inv.not_mine (h : Inv s nodes owner) (ha : owner a = none ∨ owner a = some .stack) :
    a ∉ (s.thread t).mine := by
  intro hmem
  have hth := (h.mine t a).mpr hmem
  rcases ha with ha | ha <;> rw [ha] at hth <;> cases hth

theorem Inv.not_nodes (h : Inv s nodes owner) (ha : owner a = none ∨ owner a = some (.thread t)) :
    a ∉ nodes := by
  intro hmem
  have hst := (h.stack a).mpr hmem
  rcases ha with ha | ha <;> rw [ha] at hst <;> cases hst

/-- The first record of a thread. -/
theorem Inv.first_mine (h : Inv s nodes owner) (hmine : (s.thread t).mine = x :: l) :
    owner x = some (.thread t) ∧ x ≠ 0 ∧ x ∉ l ∧ l.Nodup := by
  have hplace := (h.mine t x).mpr (hmine ▸ List.mem_cons_self)
  have hnodup := h.mine_nodup t
  rw [hmine] at hnodup
  obtain ⟨hnot, hnodup⟩ := List.nodup_cons.mp hnodup
  exact ⟨hplace, h.ne_zero (by rw [hplace]; exact Option.some_ne_none _), hnot, hnodup⟩

/-! ## Guards -/

theorem guarded_stack (h : owner a = some .stack) : Guarded s owner t a := by
  refine ⟨by rw [h]; exact Option.some_ne_none _, fun u hu => ?_⟩
  rw [h] at hu
  cases hu

theorem Guarded.not_own (h : Inv s nodes owner) (hg : Guarded s owner u a) :
    a ∉ (s.thread t).pc.own :=
  fun ha => (hg.2 t (h.own_place ha)).1 ha

/-- A record stays guarded if its place stays as it is, and its thread has not moved it from its
retired ones. -/
theorem Guarded.keep (hg : Guarded s owner u a) (howner : owner' a = owner a)
    (hepoch : epochOf s'.heap a = epochOf s.heap a)
    (hres : s'.reservations u = s.reservations u)
    (hth : ∀ v, owner a = some (.thread v) → a ∉ (s.thread v).pc.own →
      (a ∈ (s.thread v).retireList → (s.thread v).pc.Passed u (epochOf s.heap a)) →
      a ∉ (s'.thread v).pc.own ∧ (a ∈ (s'.thread v).retireList →
        a ∈ (s.thread v).retireList ∧ (s'.thread v).pc.Passed u (epochOf s.heap a))) :
    Guarded s' owner' u a := by
  refine ⟨by rw [howner]; exact hg.1, fun v hv => ?_⟩
  rw [howner] at hv
  obtain ⟨hown, hret⟩ := hg.2 v hv
  obtain ⟨hown', hret'⟩ := hth v hv hown fun ha => (hret ha).2
  refine ⟨hown', fun ha => ?_⟩
  obtain ⟨hmem, hpassed⟩ := hret' ha
  rw [hepoch, hres]
  exact ⟨(hret hmem).1, hpassed⟩

/-! ## Steps of one thread -/

/-- **The step rule**: one thread changes at most one record, which no other thread has. -/
theorem Inv.update (h : Inv s nodes owner)
    (hthread : ∀ u, u ≠ t → s'.thread u = s.thread u ∧ s'.reservations u = s.reservations u)
    (hcell : ∀ b, b ≠ x → s'.heap b = s.heap b ∧ owner' b = owner b)
    (hx : ∀ u, u ≠ t → owner x ≠ some (.thread u) ∧ owner' x ≠ some (.thread u))
    (hepoch : s.epoch ≤ s'.epoch) (htid : s.nexttid ≤ s'.nexttid) (htids : s'.nexttid ≤ threadsMax)
    (hnull : s'.heap 0 = none) (hlive : owner' x = none ↔ s'.heap x = none)
    (hstack : ∀ a, owner' a = some .stack ↔ a ∈ nodes') (hnodes : nodes'.Nodup)
    (hlinked : Linked s'.heap s'.head nodes')
    (hmine : ∀ a, owner' a = some (.thread t) ↔ a ∈ (s'.thread t).mine)
    (hnodup : (s'.thread t).mine.Nodup)
    (hguard : ∀ u a, u ≠ t → (s.thread u).pc.hazard = some a → Guarded s owner u a →
      Guarded s' owner' u a ∧ (s'.heap a).map Cell.next = (s.heap a).map Cell.next)
    (hok : ThreadOk s' owner' t) : Inv s' nodes' owner' := by
  have hnot : ∀ u, u ≠ t → x ∉ (s.thread u).mine := fun u hu hmem =>
    (hx u hu).1 ((h.mine u x).mpr hmem)
  refine ⟨hnull, fun b => ?_, hstack, fun u b => ?_, hnodes, fun u => ?_, hlinked, htids,
    fun u => ?_⟩
  · rcases eq_or_ne b x with rfl | hb
    · exact hlive
    · rw [(hcell b hb).1, (hcell b hb).2]
      exact h.live b
  · rcases eq_or_ne u t with rfl | hu
    · exact hmine b
    · rw [(hthread u hu).1]
      rcases eq_or_ne b x with rfl | hb
      · exact iff_of_false (hx u hu).2 (hnot u hu)
      · rw [(hcell b hb).2]
        exact h.mine u b
  · rcases eq_or_ne u t with rfl | hu
    · exact hnodup
    · rw [(hthread u hu).1]
      exact h.mine_nodup u
  · rcases eq_or_ne u t with rfl | hu
    · exact hok
    obtain ⟨hth, hres⟩ := hthread u hu
    have hu' := h.threads u
    have hsame : ∀ b ∈ (s.thread u).mine, s'.heap b = s.heap b := fun b hb =>
      (hcell b (ne_of_mem_of_not_mem hb (hnot u hu))).1
    have hret : ∀ b ∈ (s.thread u).retireList, epochOf s'.heap b = epochOf s.heap b := by
      intro b hb
      rw [epochOf, epochOf, hsame b (List.mem_append_right _ (List.mem_append_right _ hb))]
    refine ⟨?_, ?_, ?_, ?_, ?_, ?_⟩ <;> rw [hth]
    · exact fun hb => Nat.lt_of_lt_of_le (hu'.born hb) htid
    · rw [hres]
      have hreserved := hu'.reserved
      cases hpc : (s.thread u).pc <;> rw [hpc] at hreserved <;>
        first | trivial | exact Nat.le_trans hreserved hepoch
    · refine hu'.sorted.imp_of_mem fun ha hb hab => ?_
      rw [hret _ ha, hret _ hb]
      exact hab
    · intro b hb
      rw [hret b hb]
      exact Nat.le_trans (hu'.retired b hb) hepoch
    · have hlocal := hu'.locals
      cases hpc : (s.thread u).pc <;> rw [hpc] at hlocal
      case casHead item node head =>
        obtain ⟨e, he⟩ := hlocal
        refine ⟨e, (hsame node ?_).trans he⟩
        simp [Thread.mine, hpc, Pc.own]
      case casTop top next =>
        have hhaz : (s.thread u).pc.hazard = some top := by rw [hpc]; rfl
        exact ((hguard u top hu hhaz (hu'.guarded top hhaz)).2).trans hlocal
      all_goals exact hlocal
    · exact fun b hb => (hguard u b hu hb (hu'.guarded b hb)).1

/-- **A step of a thread** that may change one record, or its place, and may retire it. -/
theorem Inv.change {n e r : ℕ} {c : Option Cell} {th : Thread} {place : Option Place}
    (h : Inv s nodes owner)
    (hs' : s' = ⟨n, e, Function.update s.reservations t r, Function.update s.heap x c, head,
      Function.update s.thread t th⟩)
    (hepoch : s.epoch ≤ e) (htid : s.nexttid ≤ n) (htids : n ≤ threadsMax)
    (hplace : ∀ u, u ≠ t → owner x ≠ some (.thread u) ∧ place ≠ some (.thread u))
    (hnull : x = 0 → c = none) (hlive : place = none ↔ c = none)
    (hstack : ∀ a, a ≠ x → (a ∈ nodes' ↔ a ∈ nodes)) (hstackx : place = some .stack ↔ x ∈ nodes')
    (hnodes : nodes'.Nodup) (hlinked : Linked (Function.update s.heap x c) head nodes')
    (hmine : ∀ a, a ≠ x → (a ∈ th.mine ↔ a ∈ (s.thread t).mine))
    (hminex : place = some (.thread t) ↔ x ∈ th.mine) (hnodup : th.mine.Nodup)
    (hown : ∀ a ∈ th.pc.own, a ≠ x → a ∈ (s.thread t).pc.own)
    (hx : x ∉ (s.thread t).retireList)
    (hlist : th.retireList = (s.thread t).retireList ∨
      th.retireList = x :: (s.thread t).retireList ∧ c.elim 0 Cell.retireEpoch = s.epoch)
    (hpassed : ∀ u a, (s.thread u).pc.hazard = some a → a ∈ (s.thread t).retireList →
      Guarded s owner u a → th.pc.Passed u (epochOf s.heap a))
    (hguard : ∀ u, (s.thread u).pc.hazard = some x → Guarded s owner u x →
      Guarded s' (Function.update owner x place) u x ∧
        c.map Cell.next = (s.heap x).map Cell.next)
    (hborn : t < n) (hreserved : th.pc.Reserved e r)
    (hlocal : th.pc.Local (Function.update s.heap x c))
    (hhazard : ∀ a, th.pc.hazard = some a → owner a = some .stack ∧ a ≠ x ∨
      (s.thread t).pc.hazard = some a ∧ r = s.reservations t) :
    Inv s' nodes' (Function.update owner x place) := by
  have ht := h.threads t
  have hself : s'.thread t = th := by rw [hs']; exact Function.update_self ..
  have hres : s'.reservations t = r := by rw [hs']; exact Function.update_self ..
  have hthread : ∀ u, u ≠ t → s'.thread u = s.thread u ∧ s'.reservations u = s.reservations u := by
    intro u hu
    rw [hs']
    exact ⟨Function.update_of_ne hu .., Function.update_of_ne hu ..⟩
  have hheap : s'.heap = Function.update s.heap x c := by rw [hs']
  have hcell : ∀ b, b ≠ x → s'.heap b = s.heap b := fun b hb => by
    rw [hheap]
    exact Function.update_of_ne hb ..
  have he : s'.epoch = e := by rw [hs']
  have hn : s'.nexttid = n := by rw [hs']
  have hcx : s'.heap x = c := by rw [hheap]; exact Function.update_self ..
  have hsame : ∀ a ∈ (s.thread t).retireList, epochOf s'.heap a = epochOf s.heap a := by
    intro a ha
    rw [epochOf, epochOf, hcell a (ne_of_mem_of_not_mem ha hx)]
  have hzero : s'.heap 0 = none := by
    rcases eq_or_ne x 0 with rfl | hne
    · exact hcx.trans (hnull rfl)
    · exact (hcell 0 hne.symm).trans h.null
  have hkeep : ∀ u a, (s.thread u).pc.hazard = some a → s'.reservations u = s.reservations u →
      Guarded s owner u a → Guarded s' (Function.update owner x place) u a := by
    intro u a hhaz hru hg
    rcases eq_or_ne a x with rfl | ha
    · exact (hguard u hhaz hg).1
    refine hg.keep (Function.update_of_ne ha ..) (by rw [epochOf, epochOf, hcell a ha]) hru
      fun v _ hv hpass => ?_
    rcases eq_or_ne v t with rfl | hne
    · rw [hself]
      have hmem : a ∈ th.retireList → a ∈ (s.thread v).retireList := fun hmem => by
        rcases hlist with hlist | ⟨hlist, -⟩ <;> rw [hlist] at hmem
        · exact hmem
        · exact (List.mem_cons.mp hmem).resolve_left ha
      exact ⟨fun hin => hv (hown a hin ha), fun hin => ⟨hmem hin, hpassed u a hhaz (hmem hin) hg⟩⟩
    · rw [(hthread v hne).1]
      exact ⟨hv, fun hmem => ⟨hmem, hpass hmem⟩⟩
  refine h.update (x := x) hthread (fun b hb => ⟨hcell b hb, Function.update_of_ne hb ..⟩)
    (fun u hu => ?_) (he ▸ hepoch) (hn ▸ htid) (hn ▸ htids) hzero
    (by rw [Function.update_self, hcx]; exact hlive) (fun a => ?_) hnodes
    (by rw [hs']; exact hlinked) (fun a => ?_) (hself ▸ hnodup) (fun u a hu hhaz hg => ?_)
    ⟨fun _ => hn ▸ hborn, ?_, ?_, ?_, ?_, fun a ha => ?_⟩
  · rw [Function.update_self]
    exact hplace u hu
  · rcases eq_or_ne a x with rfl | ha
    · rw [Function.update_self]
      exact hstackx
    · rw [Function.update_of_ne ha, hstack a ha]
      exact h.stack a
  · rw [hself]
    rcases eq_or_ne a x with rfl | ha
    · rw [Function.update_self]
      exact hminex
    · rw [Function.update_of_ne ha, hmine a ha]
      exact h.mine t a
  · refine ⟨hkeep u a hhaz (hthread u hu).2 hg, ?_⟩
    rcases eq_or_ne a x with rfl | ha
    · rw [hcx]
      exact (hguard u hhaz hg).2
    · rw [hcell a ha]
  · rw [hself, he, hres]
    exact hreserved
  · have hold : (s.thread t).retireList.Pairwise
        fun a b => epochOf s'.heap b ≤ epochOf s'.heap a :=
      ht.sorted.imp_of_mem fun ha hb hab => by rw [hsame _ ha, hsame _ hb]; exact hab
    rw [hself]
    rcases hlist with hlist | ⟨hlist, hnew⟩ <;> rw [hlist]
    · exact hold
    · have hxe : epochOf s'.heap x = s.epoch := by rw [epochOf, hcx, hnew]
      refine List.pairwise_cons.mpr ⟨fun a ha => ?_, hold⟩
      rw [hsame a ha, hxe]
      exact ht.retired a ha
  · rw [hself, he]
    have hold : ∀ a ∈ (s.thread t).retireList, epochOf s'.heap a ≤ e := fun a ha => by
      rw [hsame a ha]
      exact Nat.le_trans (ht.retired a ha) hepoch
    rcases hlist with hlist | ⟨hlist, hnew⟩ <;> rw [hlist]
    · exact hold
    · exact List.forall_mem_cons.mpr ⟨by rw [epochOf, hcx, hnew]; exact hepoch, hold⟩
  · rw [hself, hheap]
    exact hlocal
  · rw [hself] at ha
    rcases hhazard a ha with ⟨hst, hne⟩ | ⟨hhaz, hr⟩
    · exact guarded_stack ((Function.update_of_ne hne ..).trans hst)
    · exact hkeep t a hhaz (hres.trans hr) (ht.guarded a hhaz)

end N00b.Hatrack.LlStack
