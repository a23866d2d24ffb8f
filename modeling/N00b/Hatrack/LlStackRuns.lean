import N00b.Hatrack.LlStackInvariant

/-!
# Runs of the lock-free stack

Each step of a thread keeps the invariant. The exchanges of the head that succeed, and the reads
that find the stack empty, are the steps in which the operations take effect.

## Main results

* `Inv.step`: each step keeps the invariant, and is one of a stack whose operations are atomic.
* `llstack_linearizable`: the calls and the returns of every run are those of such a stack.
* `no_use_after_free`: no thread uses a record that is not in use.
-/

namespace N00b.Hatrack.LlStack

open N00b.Lib

variable {s s' : State} {nodes kept freed cells : List Addr} {owner : Addr → Option Place}
  {heap : Addr → Option Cell} {t u : ThreadId} {pc : Pc} {th : Thread} {c : Option Cell}
  {a x addr node top next item e r : ℕ}

/-! ## What is seen of the stack -/

def Pc.phase : Pc → Phase Op Reply
  | .unborn | .acquired | .idle | .crashed => .idle
  | .start op | .reserve op _ => .called op
  | .alloc item | .readHead item _ | .casHead item _ _ => .called (.push item)
  | .readTop | .readNext _ | .casTop _ _ => .called .pop
  | .retire _ item | .scanStart item | .scan item _ _ _ | .free item _ =>
    .done (.popped (some item))
  | .endOp reply => .done reply

/-- The items on the stack, and the operations on it. -/
def view (s : State) (nodes : List Addr) : Atomic (List ℕ) ThreadId Op Reply :=
  ⟨nodes.map (itemOf s.heap), fun t => (s.thread t).pc.phase⟩

/-- The step leads to a state with the invariant, and is one of the stack that is seen. -/
def Matched (s s' : State) (shown : Option (Event ThreadId Op Reply)) (nodes : List Addr) : Prop :=
  ∃ nodes' owner', Inv s' nodes' owner' ∧
    (shown = none ∧ view s' nodes' = view s nodes ∨
      (view s nodes).Step apply shown (view s' nodes'))

/-- A step of one thread is one of its phase. -/
theorem view_eq {nodes' : List Addr} (hth : s'.thread = Function.update s.thread t th) :
    view s' nodes' =
      Atomic.goto ⟨nodes'.map (itemOf s'.heap), (view s nodes).phase⟩ t th.pc.phase := by
  refine congrArg (Atomic.mk _) (funext fun u => ?_)
  rw [hth]
  rcases eq_or_ne u t with rfl | hu
  · rw [Function.update_self, Function.update_self]
  · rw [Function.update_of_ne hu, Function.update_of_ne hu]
    rfl

/-- **A step that the stack does not see** changes nothing in it. -/
theorem matched_silent {owner' : Addr → Option Place} (hinv : Inv s' nodes owner')
    (hth : s'.thread = Function.update s.thread t th)
    (hheap : ∀ b ∈ nodes, s'.heap b = s.heap b) (hphase : th.pc.phase = (s.thread t).pc.phase) :
    Matched s s' none nodes := by
  have hitems : nodes.map (itemOf s'.heap) = nodes.map (itemOf s.heap) :=
    List.map_congr_left fun b hb => by rw [itemOf, itemOf, hheap b hb]
  have hview := @view_eq s s' nodes t th nodes hth
  rw [hitems, hphase] at hview
  exact ⟨nodes, owner', hinv, .inl ⟨rfl, hview.trans (Atomic.goto_self (view s nodes) t)⟩⟩

/-- **A step that takes effect** is the operation on the abstract stack. -/
theorem matched_effect {nodes' : List Addr} {owner' : Addr → Option Place} {op : Op}
    (hinv : Inv s' nodes' owner') (hth : s'.thread = Function.update s.thread t th)
    (hop : (s.thread t).pc.phase = .called op)
    (hobject : nodes'.map (itemOf s'.heap) = (apply (nodes.map (itemOf s.heap)) op).1)
    (hreply : th.pc.phase = .done (apply (nodes.map (itemOf s.heap)) op).2) :
    Matched s s' none nodes := by
  refine ⟨nodes', owner', hinv, .inr ?_⟩
  rw [view_eq hth, hobject, hreply]
  exact .effect hop

/-- A call or a return is shown. -/
theorem matched_shown {shown : Option (Event ThreadId Op Reply)} (hinv : Inv s' nodes owner)
    (hth : s'.thread = Function.update s.thread t th) (hheap : s'.heap = s.heap)
    (hstep : (view s nodes).Step apply shown ((view s nodes).goto t th.pc.phase)) :
    Matched s s' shown nodes := by
  refine ⟨nodes, owner, hinv, .inr ?_⟩
  rw [@view_eq s s' nodes t th nodes hth, hheap]
  exact hstep

/-! ## Steps that change no record -/

/-- **A thread goes on**, and may change its reservation. -/
theorem Inv.goto {n : ℕ} (h : Inv s nodes owner) (hpc : (s.thread t).pc = pc) (pc' : Pc)
    (hs' : s' = ⟨n, s.epoch, Function.update s.reservations t r, s.heap, s.head,
      Function.update s.thread t { s.thread t with pc := pc' }⟩)
    (htid : s.nexttid ≤ n) (htids : n ≤ threadsMax) (hborn : t < n) (hown : pc'.own = pc.own)
    (hpopped : pc'.popped = pc.popped)
    (hpassed : ∀ u a, (s.thread u).pc.hazard = some a → a ∈ (s.thread t).retireList →
      Guarded s owner u a → pc'.Passed u (epochOf s.heap a))
    (hreserved : pc'.Reserved s.epoch r) (hlocal : pc'.Local s.heap)
    (hhazard : ∀ a, pc'.hazard = some a → owner a = some .stack ∨
      pc.hazard = some a ∧ r = s.reservations t) :
    Inv s' nodes owner := by
  have hmine : Thread.mine { s.thread t with pc := pc' } = (s.thread t).mine := by
    rw [Thread.mine, Thread.mine, hpc, hown, hpopped]
  have hnone : owner 0 = none := (h.live 0).mpr h.null
  have hzero : 0 ∉ (s.thread t).mine := h.not_mine (.inl hnone)
  have hheap : Function.update s.heap 0 none = s.heap := by
    rw [← h.null, Function.update_eq_self]
  have howner : Function.update owner 0 none = owner := by rw [← hnone, Function.update_eq_self]
  have hs'' : s' = ⟨n, s.epoch, Function.update s.reservations t r, Function.update s.heap 0 none,
      s.head, Function.update s.thread t { s.thread t with pc := pc' }⟩ := by rw [hheap, hs']
  rw [← howner]
  refine h.change hs'' (Nat.le_refl _) htid htids
    (fun u _ => ⟨by rw [hnone]; rintro ⟨⟩, by rintro ⟨⟩⟩) (fun _ => rfl) (iff_of_true rfl rfl)
    (fun _ _ => Iff.rfl) (iff_of_false (by rintro ⟨⟩) (h.not_nodes (t := t) (.inl hnone)))
    h.nodes_nodup (by rw [hheap]; exact h.linked) (fun a _ => by rw [hmine])
    (iff_of_false (by rintro ⟨⟩) (by rw [hmine]; exact hzero)) (by rw [hmine]; exact h.mine_nodup t)
    (fun a ha _ => by rw [hpc, ← hown]; exact ha)
    (fun hin => hzero (List.mem_append_right _ (List.mem_append_right _ hin))) (.inl rfl) hpassed
    (fun u _ hg => absurd hnone hg.1) hborn hreserved (by rw [hheap]; exact hlocal) fun a ha => ?_
  rcases hhazard a ha with hst | hold
  · exact .inl ⟨hst, h.ne_zero (by rw [hst]; rintro ⟨⟩)⟩
  · exact .inr ⟨by rw [hpc]; exact hold.1, hold.2⟩

theorem Inv.goto_silent (h : Inv s nodes owner) (hpc : (s.thread t).pc = pc) (pc' : Pc)
    (hborn : pc ≠ .unborn) (hown : pc'.own = pc.own) (hpopped : pc'.popped = pc.popped)
    (hpassed : ∀ u a, (s.thread u).pc.hazard = some a → a ∈ (s.thread t).retireList →
      Guarded s owner u a → pc'.Passed u (epochOf s.heap a))
    (hreserved : pc'.Reserved s.epoch (s.reservations t)) (hlocal : pc'.Local s.heap)
    (hhazard : ∀ a, pc'.hazard = some a → owner a = some .stack ∨ pc.hazard = some a)
    (hphase : pc'.phase = pc.phase) : Matched s (s.goto t pc') none nodes := by
  have hinv : Inv (s.goto t pc') nodes owner := h.goto hpc pc'
    (by rw [Function.update_eq_self]; rfl) (Nat.le_refl _) h.tids
    ((h.threads t).born (hpc ▸ hborn)) hown hpopped hpassed hreserved hlocal
    fun a ha => (hhazard a ha).imp_right fun hold => ⟨hold, rfl⟩
  exact matched_silent hinv rfl (fun _ _ => rfl) (hphase.trans (congrArg Pc.phase hpc.symm))

/-- **A thread goes on**, and its reservation changes. -/
theorem Inv.reserve (h : Inv s nodes owner) (hpc : (s.thread t).pc = pc) (pc' : Pc)
    (hborn : pc ≠ .unborn) (hown : pc'.own = pc.own) (hpopped : pc'.popped = pc.popped)
    (hpassed : ∀ u a, pc'.Passed u a) (hreserved : pc'.Reserved s.epoch r)
    (hlocal : pc'.Local s.heap) (hhazard : pc'.hazard = none) :
    Inv ((s.setReservation t r).goto t pc') nodes owner :=
  h.goto hpc pc' rfl (Nat.le_refl _) h.tids ((h.threads t).born (hpc ▸ hborn)) hown hpopped
    (fun u a _ _ _ => hpassed u _) hreserved hlocal fun a ha => by rw [hhazard] at ha; cases ha

/-! ## Steps that change one record -/

/-- A record changes that is not on the stack, before and after. -/
theorem Inv.touch {place : Option Place} (h : Inv s nodes owner) (hpc : (s.thread t).pc = pc)
    (hs' : s' = ⟨s.nexttid, e, s.reservations, Function.update s.heap x c, s.head,
      Function.update s.thread t th⟩)
    (hepoch : s.epoch ≤ e) (hplace : owner x = none ∨ owner x = some (.thread t))
    (hplace' : place = none ∨ place = some (.thread t)) (hnull : x ≠ 0)
    (hlive : place = none ↔ c = none)
    (hmine : ∀ a, a ≠ x → (a ∈ th.mine ↔ a ∈ (s.thread t).mine))
    (hminex : place = some (.thread t) ↔ x ∈ th.mine) (hnodup : th.mine.Nodup)
    (hown : ∀ a ∈ th.pc.own, a ≠ x → a ∈ pc.own) (hx : x ∉ (s.thread t).retireList)
    (hlist : th.retireList = (s.thread t).retireList ∨
      th.retireList = x :: (s.thread t).retireList ∧ c.elim 0 Cell.retireEpoch = s.epoch)
    (hpassed : ∀ u a, th.pc.Passed u a)
    (hguard : ∀ u, (s.thread u).pc.hazard = some x → Guarded s owner u x →
      Guarded s' (Function.update owner x place) u x ∧
        c.map Cell.next = (s.heap x).map Cell.next)
    (hborn : pc ≠ .unborn) (hreserved : th.pc.Reserved e (s.reservations t))
    (hlocal : th.pc.Local (Function.update s.heap x c)) (hhazard : th.pc.hazard = none)
    (hphase : th.pc.phase = pc.phase) : Matched s s' none nodes := by
  have hnot := h.not_nodes hplace
  have hcell : ∀ b ∈ nodes, Function.update s.heap x c b = s.heap b := fun b hb =>
    Function.update_of_ne (ne_of_mem_of_not_mem hb hnot) ..
  have hothers : ∀ u, u ≠ t → owner x ≠ some (.thread u) ∧ place ≠ some (.thread u) := by
    intro u hu
    rcases hplace with hp | hp <;> rcases hplace' with hp' | hp' <;> rw [hp, hp'] <;>
      simp [hu.symm]
  have hstack : place ≠ some .stack := by
    rcases hplace' with hp | hp <;> rw [hp] <;> rintro ⟨⟩
  have hinv := h.change (r := s.reservations t) (by rw [Function.update_eq_self]; exact hs') hepoch
    (Nat.le_refl _) h.tids hothers (fun hzero => absurd hzero hnull) hlive (fun _ _ => Iff.rfl)
    (iff_of_false hstack hnot) h.nodes_nodup (h.linked.congr hcell) hmine hminex hnodup
    (fun a ha hne => hpc ▸ hown a ha hne) hx hlist (fun u a _ _ _ => hpassed u _) hguard
    ((h.threads t).born (hpc ▸ hborn)) hreserved hlocal fun a ha => by rw [hhazard] at ha; cases ha
  refine matched_silent hinv (by rw [hs']) (fun b hb => ?_) (hphase.trans (congrArg _ hpc.symm))
  rw [hs']
  exact hcell b hb

/-- **A record comes into use**, and the epoch goes on. -/
theorem Inv.alloc (h : Inv s nodes owner) (hpc : (s.thread t).pc = .alloc item) (hne : addr ≠ 0)
    (hfree : s.heap addr = none) :
    Matched s ({ s.setCell addr (some ⟨0, 0, 0⟩) with epoch := s.epoch + 1 }.goto t
      (.readHead item addr)) none nodes := by
  have hnone : owner addr = none := (h.live addr).mpr hfree
  have hold : (s.thread t).mine = (s.thread t).retireList := by
    rw [Thread.mine, hpc]
    rfl
  have hnot := h.not_mine (t := t) (.inl hnone)
  have hnodup := h.mine_nodup t
  have hreserved : s.reservations t ≤ s.epoch + 1 :=
    Nat.le_succ_of_le (hpc ▸ (h.threads t).reserved : Pc.Reserved _ _ (.alloc item))
  rw [hold] at hnot hnodup
  exact h.touch hpc rfl (Nat.le_succ _) (.inl hnone) (.inr rfl) hne (by simp)
    (fun a ha => by rw [hold]; exact List.mem_cons.trans (or_iff_right ha))
    (iff_of_true rfl List.mem_cons_self) (List.nodup_cons.mpr ⟨hnot, hnodup⟩)
    (fun a ha hne' => absurd (List.mem_singleton.mp ha) hne') hnot (.inl rfl) (fun _ _ => trivial)
    (fun u _ hg => absurd hnone hg.1) (by rintro ⟨⟩) hreserved trivial rfl rfl

/-- **A node is prepared** for the head that was found. -/
theorem Inv.writeNode (h : Inv s nodes owner) (hpc : (s.thread t).pc = pc) (hown : pc.own = [node])
    (hpopped : pc.popped = []) (hphase : pc.phase = .called (.push item))
    (hreserved : s.reservations t ≤ s.epoch) :
    Matched s ((s.setCell node (some ⟨e, s.head, item⟩)).goto t (.casHead item node s.head)) none
      nodes := by
  have hmine : (s.thread t).mine = node :: (s.thread t).retireList := by
    rw [Thread.mine, hpc, hown, hpopped]
    rfl
  obtain ⟨hplace, hne, hnot, hnodup⟩ := h.first_mine hmine
  have hmem : node ∈ (s.thread t).pc.own := by
    rw [hpc, hown]
    exact List.mem_cons_self
  exact h.touch hpc rfl (Nat.le_refl _) (.inr hplace) (.inr rfl) hne (by simp)
    (fun a _ => by rw [hmine]; rfl) (iff_of_true rfl List.mem_cons_self)
    (List.nodup_cons.mpr ⟨hnot, hnodup⟩) (fun a ha _ => hown ▸ ha) hnot (.inl rfl)
    (fun _ _ => trivial) (fun u _ hg => absurd hmem (hg.not_own h))
    (fun hun => by rw [hun] at hown; cases hown) hreserved ⟨e, Function.update_self ..⟩ rfl
    hphase.symm

/-- The exchange of the head by a push takes effect. -/
theorem Inv.push (h : Inv s nodes owner) (hpc : (s.thread t).pc = .casHead item node s.head) :
    Matched s ({ s with head := node }.goto t (.endOp .pushed)) none nodes := by
  obtain ⟨e, he⟩ : ∃ e, s.heap node = some ⟨e, s.head, item⟩ := by
    have hlocal := (h.threads t).locals
    rwa [hpc] at hlocal
  have hmine : (s.thread t).mine = node :: (s.thread t).retireList := by
    rw [Thread.mine, hpc]
    rfl
  obtain ⟨hplace, hne, hnot, hnodup⟩ := h.first_mine hmine
  have hmem : node ∈ (s.thread t).pc.own := by rw [hpc]; exact List.mem_cons_self
  have hreserved : Pc.Reserved s.epoch (s.reservations t) (.casHead item node s.head) :=
    hpc ▸ (h.threads t).reserved
  have hs' : { s with head := node }.goto t (.endOp .pushed) = ⟨s.nexttid, s.epoch,
      Function.update s.reservations t (s.reservations t),
      Function.update s.heap node (s.heap node), node,
      Function.update s.thread t { s.thread t with pc := .endOp .pushed }⟩ := by
    rw [Function.update_eq_self, Function.update_eq_self]
    rfl
  have hinv := @Inv.change s _ nodes (node :: nodes) owner t node node _ _ _ _ _ (some .stack) h hs'
    (Nat.le_refl _) (Nat.le_refl _) h.tids
    (fun u hu => ⟨by rw [hplace]; simp [hu.symm], by rintro ⟨⟩⟩)
    (fun hzero => absurd hzero hne) (by simp [he])
    (fun a ha => List.mem_cons.trans (or_iff_right ha)) (iff_of_true rfl List.mem_cons_self)
    (List.nodup_cons.mpr ⟨h.not_nodes (.inr hplace), h.nodes_nodup⟩)
    (by rw [Function.update_eq_self]; exact ⟨rfl, _, he, h.linked⟩)
    (fun a ha => by rw [hmine]; exact (List.mem_cons.trans (or_iff_right ha)).symm)
    (iff_of_false (by rintro ⟨⟩) hnot) hnodup (fun a ha _ => absurd ha List.not_mem_nil) hnot
    (.inl rfl) (fun _ _ _ _ _ => trivial) (fun u _ hg => absurd hmem (hg.not_own h))
    ((h.threads t).born (by rw [hpc]; rintro ⟨⟩)) hreserved trivial (by rintro _ ⟨⟩)
  refine matched_effect hinv rfl (by rw [hpc]; rfl) ?_ rfl
  show itemOf s.heap node :: _ = _
  rw [itemOf, he]
  rfl

/-- So does that by a pop. -/
theorem Inv.pop (h : Inv s nodes owner) (hpc : (s.thread t).pc = .casTop s.head next) {c : Cell}
    (hc : s.heap s.head = some c) :
    Matched s ({ s with head := next }.goto t (.retire s.head c.item)) none nodes := by
  have hguarded := (h.threads t).guarded s.head (by rw [hpc]; rfl)
  have hnext : c.next = next := by
    have hlocal := (h.threads t).locals
    rw [hpc, Pc.Local, hc] at hlocal
    exact Option.some.inj hlocal
  have hne := h.ne_zero hguarded.1
  obtain ⟨c', rest, rfl, hc', hlinked⟩ := h.linked.eq_cons hne
  obtain rfl : c = c' := Option.some.inj (hc.symm.trans hc')
  have hplace : owner s.head = some .stack := (h.stack _).mpr List.mem_cons_self
  obtain ⟨hnew, hnodes⟩ := List.nodup_cons.mp h.nodes_nodup
  have hmine : (s.thread t).mine = (s.thread t).retireList := by
    rw [Thread.mine, hpc]
    rfl
  have hnodup := h.mine_nodup t
  have hnot := h.not_mine (t := t) (.inr hplace)
  rw [hmine] at hnodup hnot
  have hreserved : Pc.Reserved s.epoch (s.reservations t) (.casTop s.head next) :=
    hpc ▸ (h.threads t).reserved
  have hs' : { s with head := next }.goto t (.retire s.head c.item) = ⟨s.nexttid, s.epoch,
      Function.update s.reservations t (s.reservations t),
      Function.update s.heap s.head (s.heap s.head), next,
      Function.update s.thread t { s.thread t with pc := .retire s.head c.item }⟩ := by
    rw [Function.update_eq_self, Function.update_eq_self]
    rfl
  have hguard : ∀ u, Guarded ({ s with head := next }.goto t (.retire s.head c.item))
      (Function.update owner s.head (some (.thread t))) u s.head := by
    refine fun u => ⟨by simp, fun v hv => ?_⟩
    rw [Function.update_self] at hv
    obtain rfl : t = v := by simpa using hv
    rw [hs']
    simp only [Function.update_self]
    exact ⟨List.not_mem_nil, fun hmem => absurd hmem hnot⟩
  have hinv := @Inv.change s _ _ rest owner t s.head next _ _ _ _ _ (some (.thread t)) h hs'
    (Nat.le_refl _) (Nat.le_refl _) h.tids
    (fun u hu => ⟨by rw [hplace]; rintro ⟨⟩, by simp [hu.symm]⟩)
    (fun hzero => absurd hzero hne) (by simp [hc])
    (fun a ha => (List.mem_cons.trans (or_iff_right ha)).symm) (iff_of_false (by rintro ⟨⟩) hnew)
    hnodes (by rw [Function.update_eq_self, ← hnext]; exact hlinked)
    (fun a ha => by rw [hmine]; exact List.mem_cons.trans (or_iff_right ha))
    (iff_of_true rfl List.mem_cons_self) (List.nodup_cons.mpr ⟨hnot, hnodup⟩)
    (fun a ha _ => absurd ha List.not_mem_nil) hnot (.inl rfl) (fun _ _ _ _ _ => trivial)
    (fun u _ _ => ⟨hguard u, rfl⟩) ((h.threads t).born (by rw [hpc]; rintro ⟨⟩)) hreserved trivial
    (by rintro _ ⟨⟩)
  have hitem : c.item = itemOf s.heap s.head := by
    rw [itemOf, hc]
    rfl
  have hop : (s.thread t).pc.phase = .called .pop := by rw [hpc]; rfl
  refine matched_effect hinv rfl hop rfl ?_
  show Phase.done (Reply.popped (some c.item)) = .done (.popped (some (itemOf s.heap s.head)))
  rw [hitem]

/-- **The loop of `llstack_pop_mmm`** ends on an empty stack, or goes on with the record on top. -/
theorem Inv.loop (h : Inv s nodes owner) (hpc : (s.thread t).pc = pc) (hown : pc.own = [])
    (hpopped : pc.popped = []) (hphase : pc.phase = .called .pop)
    (hreserved : s.reservations t ≤ s.epoch) :
    Matched s (s.loop t) none nodes := by
  have hborn : pc ≠ .unborn := fun hun => by
    rw [hun] at hphase
    cases hphase
  unfold State.loop
  split
  next hzero =>
    have hnil : nodes = [] := Linked.eq_nil (hzero ▸ h.linked) h.null
    have hinv : Inv (s.goto t (.endOp (.popped none))) nodes owner := h.goto hpc
      (.endOp (.popped none)) (by rw [Function.update_eq_self]; rfl) (Nat.le_refl _) h.tids
      ((h.threads t).born (hpc ▸ hborn)) hown.symm hpopped.symm (fun _ _ _ _ _ => trivial) hreserved
      trivial (by rintro _ ⟨⟩)
    subst hnil
    exact matched_effect hinv rfl (by rw [hpc]; exact hphase) rfl rfl
  next hne =>
    obtain ⟨c, rest, rfl, -, -⟩ := h.linked.eq_cons hne
    have hstack : owner s.head = some .stack := (h.stack _).mpr List.mem_cons_self
    exact h.goto_silent hpc (.readNext s.head) hborn hown.symm hpopped.symm
      (fun _ _ _ _ _ => trivial) hreserved trivial (fun a ha => .inl (by cases ha; exact hstack))
      hphase.symm

/-! ## Retired records -/

/-- Retiring a record takes it out of the hands of the thread. -/
theorem Inv.retire {c : Cell} (h : Inv s nodes owner) (hpc : (s.thread t).pc = .retire top item)
    (hc : s.heap top = some c)
    (hth : th.pc = .scanStart item ∨ th.pc = .endOp (.popped (some item)))
    (hlist : th.retireList = top :: (s.thread t).retireList) :
    Matched s ((s.setCell top (some { c with retireEpoch := s.epoch })).setThread t th) none
      nodes := by
  have hreserved : s.reservations t ≤ s.epoch :=
    (hpc ▸ (h.threads t).reserved : Pc.Reserved _ _ (.retire top item))
  have hold : (s.thread t).mine = top :: (s.thread t).retireList := by
    rw [Thread.mine, hpc]
    rfl
  obtain ⟨hplace, hne, hnot, hnodup⟩ := h.first_mine hold
  have hown : th.pc.own = [] := by rcases hth with hth | hth <;> rw [hth] <;> rfl
  have hmine : th.mine = (s.thread t).mine := by
    rw [hold, Thread.mine, hown, hlist]
    rcases hth with hth | hth <;> rw [hth] <;> rfl
  have hpassed : ∀ u e, th.pc.Passed u e := fun u e => by
    rcases hth with hth | hth <;> rw [hth] <;> trivial
  refine h.touch hpc rfl (Nat.le_refl _) (.inr hplace) (.inr rfl) hne (by simp)
    (fun a _ => by rw [hmine]) (iff_of_true rfl (by rw [hmine, hold]; exact List.mem_cons_self))
    (by rw [hmine]; exact h.mine_nodup t) (fun a ha _ => by rw [hown] at ha; cases ha) hnot
    (.inr ⟨hlist, rfl⟩) hpassed (fun u hhaz _ => ⟨⟨by simp, fun v hv => ?_⟩, by rw [hc]; rfl⟩)
    (by rintro ⟨⟩) ?_ ?_ ?_ ?_
  · rw [Function.update_self] at hv
    obtain rfl : t = v := by simpa using hv
    -- who still reads the record has reserved an epoch that is over
    have hreserved' : s.reservations u ≤ s.epoch := by
      have hu' := (h.threads u).reserved
      cases hpcu : (s.thread u).pc <;> rw [hpcu] at hu' hhaz <;> first | exact hu' | cases hhaz
    simp only [State.setThread, State.setCell, Function.update_self, epochOf, Option.elim_some]
    exact ⟨by rw [hown]; exact List.not_mem_nil, fun _ => ⟨hreserved', hpassed u _⟩⟩
  · rcases hth with hth | hth <;> rw [hth] <;> exact hreserved
  · rcases hth with hth | hth <;> rw [hth] <;> trivial
  · rcases hth with hth | hth <;> rw [hth] <;> rfl
  · rcases hth with hth | hth <;> rw [hth] <;> rfl

@[simp] theorem own_freeing : (Pc.freeing item cells).own = cells := by cases cells <;> rfl

@[simp] theorem popped_freeing : (Pc.freeing item cells).popped = [] := by cases cells <;> rfl

theorem hazard_freeing : (Pc.freeing item cells).hazard = none := by cases cells <;> rfl

theorem phase_freeing : (Pc.freeing item cells).phase = .done (.popped (some item)) := by
  cases cells <;> rfl

theorem reserved_freeing (h : r ≤ e) : (Pc.freeing item cells).Reserved e r := by
  cases cells <;> exact h

theorem passed_freeing : (Pc.freeing item cells).Passed t r := by cases cells <;> trivial

theorem local_freeing : (Pc.freeing item cells).Local heap := by cases cells <;> trivial

theorem mine_freeing : Thread.mine ⟨.freeing item cells, r, kept⟩ = cells ++ kept := by
  simp [Thread.mine]

/-- Freeing a record that nobody can reach keeps the invariant. -/
theorem Inv.free (h : Inv s nodes owner) (hpc : (s.thread t).pc = .free item (x :: cells)) :
    Matched s ((s.setCell x none).goto t (.freeing item cells)) none nodes := by
  have hold : (s.thread t).mine = x :: (cells ++ (s.thread t).retireList) := by
    rw [Thread.mine, hpc]
    rfl
  obtain ⟨hplace, hne, hnot, hnodup⟩ := h.first_mine hold
  have hmem : x ∈ (s.thread t).pc.own := by
    rw [hpc]
    exact List.mem_cons_self
  have hreserved : s.reservations t ≤ s.epoch :=
    (hpc ▸ (h.threads t).reserved : Pc.Reserved _ _ (.free item (x :: cells)))
  have hmine : Thread.mine ⟨.freeing item cells, (s.thread t).retireCtr, (s.thread t).retireList⟩ =
      cells ++ (s.thread t).retireList := mine_freeing
  have hown : (Pc.freeing item cells).own = cells := own_freeing
  exact h.touch hpc rfl (Nat.le_refl _) (.inr hplace) (.inl rfl) hne (by simp)
    (fun a ha => by rw [hold]; exact hmine ▸ (List.mem_cons.trans (or_iff_right ha)).symm)
    (iff_of_false (by rintro ⟨⟩) (hmine ▸ hnot)) (hmine ▸ hnodup)
    (fun a ha _ => List.mem_cons_of_mem x (hown ▸ ha))
    (fun hx => hnot (List.mem_append_right _ hx)) (.inl rfl) (fun _ _ => passed_freeing)
    (fun u _ hg => absurd hmem (hg.not_own h)) (by rintro ⟨⟩) (reserved_freeing hreserved)
    local_freeing hazard_freeing phase_freeing

/-- What is expired was retired before every reservation. -/
theorem expired_spec {lowest : ℕ} {l : List Addr} (h : expired heap lowest l = some (kept, freed))
    (hsorted : l.Pairwise fun a b => epochOf heap b ≤ epochOf heap a) :
    l = kept ++ freed ∧ ∀ a ∈ freed, epochOf heap a < lowest := by
  induction l generalizing kept with
  | nil =>
    cases h
    exact ⟨rfl, fun a ha => absurd ha List.not_mem_nil⟩
  | cons a rest ih =>
    obtain ⟨hfirst, hrest⟩ := List.pairwise_cons.mp hsorted
    obtain ⟨c, hc, hcell⟩ := Option.bind_eq_some_iff.mp h
    split at hcell
    next hlt =>
      cases hcell
      have hepoch : epochOf heap a < lowest := by rwa [epochOf, hc]
      exact ⟨rfl, List.forall_mem_cons.mpr
        ⟨hepoch, fun b hb => Nat.lt_of_le_of_lt (hfirst b hb) hepoch⟩⟩
    · obtain ⟨⟨kept', freed'⟩, hrec, heq⟩ := Option.map_eq_some_iff.mp hcell
      cases heq
      obtain ⟨hl, hfreed⟩ := ih hrec hrest
      exact ⟨by rw [hl]; rfl, hfreed⟩

theorem expired_isSome {lowest : ℕ} {l : List Addr} (h : ∀ a ∈ l, heap a ≠ none) :
    expired heap lowest l ≠ none := by
  induction l with
  | nil => rintro ⟨⟩
  | cons a rest ih =>
    obtain ⟨ha, hrest⟩ := List.forall_mem_cons.mp h
    obtain ⟨c, hc⟩ := Option.ne_none_iff_exists'.mp ha
    rw [expired, hc, Option.bind_some]
    split
    · rintro ⟨⟩
    · rw [Ne, Option.map_eq_none_iff]
      exact ih hrest

/-- **A scan is over**, and the records that no thread can read any more are to be freed. -/
theorem Inv.sweep {i lasttid lowest : ℕ} (h : Inv s nodes owner)
    (hpc : (s.thread t).pc = .scan item i lasttid lowest) (hi : lasttid ≤ i)
    (hexp : expired s.heap lowest (s.thread t).retireList = some (kept, freed)) :
    Matched s (s.setThread t ⟨.freeing item freed, (s.thread t).retireCtr, kept⟩) none nodes := by
  have ht := h.threads t
  obtain ⟨hl, hfreed⟩ := expired_spec hexp ht.sorted
  have hreserved : s.reservations t ≤ s.epoch :=
    (hpc ▸ ht.reserved : Pc.Reserved _ _ (.scan item i lasttid lowest))
  have hold : (s.thread t).mine = kept ++ freed := by
    rw [Thread.mine, hpc, hl]
    rfl
  have hself : (s.setThread t ⟨.freeing item freed, (s.thread t).retireCtr, kept⟩).thread t =
      ⟨.freeing item freed, (s.thread t).retireCtr, kept⟩ := Function.update_self ..
  have hkept : ∀ a ∈ kept, a ∈ (s.thread t).retireList := fun a ha =>
    hl ▸ List.mem_append_left _ ha
  have hnone : owner 0 = none := (h.live 0).mpr h.null
  refine matched_silent (h.update (t := t) (x := 0)
    (fun u hu => ⟨Function.update_of_ne hu .., rfl⟩) (fun _ _ => ⟨rfl, rfl⟩)
    (fun u _ => by rw [hnone]; exact ⟨(by rintro ⟨⟩), (by rintro ⟨⟩)⟩) (Nat.le_refl _)
    (Nat.le_refl _) h.tids h.null (h.live 0) h.stack h.nodes_nodup h.linked (fun a => ?_) ?_
    (fun u a hu hhaz hg => ⟨hg.keep rfl rfl rfl fun v hv hown hpass => ?_, rfl⟩) ?_) rfl
    (fun _ _ => rfl) (by rw [hpc]; exact phase_freeing)
  · rw [hself, mine_freeing, h.mine, hold, List.mem_append, List.mem_append, or_comm]
  · rw [hself, mine_freeing]
    exact List.nodup_append_comm.mp (hold ▸ h.mine_nodup t)
  · rcases eq_or_ne v t with rfl | hne
    · rw [hself]
      refine ⟨fun hmem => ?_, fun hmem => ⟨hkept a hmem, passed_freeing⟩⟩
      -- the scan has seen the reservation of the thread that reads the record
      have hmem' : a ∈ freed := by simpa using hmem
      have hpassed := hpass (hl ▸ List.mem_append_right _ hmem')
      rw [hpc] at hpassed
      have hlow := hpassed.2 (Nat.lt_of_lt_of_le hpassed.1 hi)
      exact absurd (hfreed a hmem') (Nat.not_lt.mpr hlow)
    · rw [show (s.setThread t _).thread v = s.thread v from Function.update_of_ne hne ..]
      exact ⟨hown, fun hmem => ⟨hmem, hpass hmem⟩⟩
  · refine ⟨fun _ => ht.born (by rw [hpc]; rintro ⟨⟩), ?_, ?_, ?_, ?_, ?_⟩ <;> rw [hself]
    · exact reserved_freeing hreserved
    · exact (List.pairwise_append.mp (hl ▸ ht.sorted)).1
    · exact fun a ha => ht.retired a (hkept a ha)
    · exact local_freeing
    · exact fun a ha => absurd (hazard_freeing.symm.trans ha) (by rintro ⟨⟩)

/-! ## Every step -/

/-- A record in use can be read. -/
theorem Inv.access_eq (h : Inv s nodes owner) (ha : owner a ≠ none) :
    ∃ c, s.heap a = some c ∧ ∀ k, s.access t a k = k c := by
  obtain ⟨c, hc⟩ := Option.ne_none_iff_exists'.mp (mt (h.live a).mpr ha)
  exact ⟨c, hc, fun k => by rw [State.access, hc]⟩

/-- **One step of an operation.** -/
theorem Inv.go (h : Inv s nodes owner) (hyoung : s.Young)
    (hstep : s.go t addr (s.thread t).pc = some s') :
    Matched s s' (s.shown (t, .go addr)) nodes := by
  have hres := (h.threads t).reserved
  have hlocal := (h.threads t).locals
  have hmem : ∀ a, a ∈ (s.thread t).mine → owner a ≠ none := fun a ha => by
    rw [(h.mine t a).mpr ha]
    exact Option.some_ne_none _
  unfold State.shown
  cases hpc : (s.thread t).pc <;> rw [hpc] at hstep hres hlocal <;>
    simp only [State.go, Option.some.injEq, reduceCtorEq] at hstep
  case acquired =>
    subst hstep
    exact matched_silent
      (h.reserve hpc .idle (by rintro ⟨⟩) rfl rfl (fun _ _ => trivial) trivial trivial rfl) rfl
      (fun _ _ => rfl) (by rw [hpc]; rfl)
  case start op =>
    subst hstep
    exact h.goto_silent hpc (.reserve op s.epoch) (by rintro ⟨⟩) rfl rfl (fun _ _ _ _ _ => trivial)
      (Nat.le_refl _) trivial (by rintro _ ⟨⟩) rfl
  case reserve op epoch =>
    subst hstep
    cases op with
    | push item =>
      exact matched_silent (h.reserve hpc (.alloc item) (by rintro ⟨⟩) rfl rfl (fun _ _ => trivial)
        hres trivial rfl) rfl (fun _ _ => rfl) (by rw [hpc]; rfl)
    | pop =>
      exact matched_silent (h.reserve hpc .readTop (by rintro ⟨⟩) rfl rfl (fun _ _ => trivial)
        hres trivial rfl) rfl (fun _ _ => rfl) (by rw [hpc]; rfl)
  case alloc item =>
    split at hstep
    · cases hstep
    next hfree =>
      obtain ⟨hne, hnone⟩ := not_or.mp hfree
      rw [show (s.epoch + 1) % 2 ^ 64 = s.epoch + 1 from Nat.mod_eq_of_lt hyoung] at hstep
      cases hstep
      exact h.alloc hpc hne (by simpa using hnone)
  case readHead item node =>
    obtain ⟨c, hc, haccess⟩ := h.access_eq (t := t) (a := node)
      (hmem node (List.mem_append_left _ (by rw [hpc]; exact List.mem_singleton_self _)))
    rw [haccess] at hstep
    subst hstep
    exact h.writeNode hpc rfl rfl rfl hres
  case casHead item node head =>
    split at hstep
    next heq =>
      cases hstep
      exact h.push (heq ▸ hpc)
    · obtain ⟨e, he⟩ := hlocal
      rw [State.access, he] at hstep
      cases hstep
      exact h.writeNode hpc rfl rfl rfl hres
  case readTop =>
    subst hstep
    exact h.loop hpc rfl rfl rfl hres
  case readNext top =>
    obtain ⟨c, hc, haccess⟩ := h.access_eq (t := t) (a := top)
      ((h.threads t).guarded top (by rw [hpc]; rfl)).1
    rw [haccess] at hstep
    subst hstep
    exact h.goto_silent hpc (.casTop top c.next) (by rintro ⟨⟩) rfl rfl (fun _ _ _ _ _ => trivial)
      hres (by rw [Pc.Local, hc]; rfl) (fun a ha => .inr ha) rfl
  case casTop top next =>
    split at hstep
    next heq =>
      obtain ⟨c, hc, haccess⟩ := h.access_eq (t := t) (a := top)
        ((h.threads t).guarded top (by rw [hpc]; rfl)).1
      rw [haccess] at hstep
      cases hstep
      subst heq
      exact h.pop hpc hc
    · cases hstep
      exact h.loop hpc rfl rfl rfl hres
  case retire top item =>
    obtain ⟨c, hc, haccess⟩ := h.access_eq (t := t) (a := top)
      (hmem top (by rw [Thread.mine, hpc]; exact List.mem_cons_self))
    rw [haccess] at hstep
    subst hstep
    exact h.retire hpc hc (ite_eq_or_eq _ _ _) rfl
  case scanStart item =>
    subst hstep
    rw [Nat.min_eq_left h.tids]
    exact h.goto_silent hpc (.scan item 0 s.nexttid epochUnreserved) (by rintro ⟨⟩) rfl rfl
      (fun u a hhaz _ _ => ⟨(h.threads u).born (fun hu => by rw [hu] at hhaz; cases hhaz),
        fun hlt => absurd hlt (Nat.not_lt_zero u)⟩) hres trivial (by rintro _ ⟨⟩) rfl
  case scan item i lasttid lowest =>
    split at hstep
    next hi =>
      cases hstep
      refine h.goto_silent hpc (.scan item (i + 1) lasttid
        (if s.reservations i < lowest then s.reservations i else lowest)) (by rintro ⟨⟩) rfl rfl
        (fun u a hhaz ha hg => ?_) hres trivial (by rintro _ ⟨⟩) rfl
      -- the reservation of a thread that reads the record is seen, or was seen before
      obtain ⟨hreserved, hpassed⟩ := (hg.2 t (h.retired_place ha)).2 ha
      rw [hpc] at hpassed
      obtain ⟨hlast, hlow⟩ := hpassed
      refine ⟨hlast, fun hu => ?_⟩
      rcases Nat.lt_succ_iff_lt_or_eq.mp hu with hlt | rfl
      · have := hlow hlt
        split <;> omega
      · split <;> omega
    next hi =>
      cases hexp : expired s.heap lowest (s.thread t).retireList with
      | none =>
        refine absurd hexp (expired_isSome fun a ha => mt (h.live a).mpr (hmem a ?_))
        exact List.mem_append_right _ (List.mem_append_right _ ha)
      | some parts =>
        rw [hexp] at hstep
        cases hstep
        exact h.sweep hpc (Nat.not_lt.mp hi) hexp
  case free item cells =>
    rcases cells with _ | ⟨a, cells⟩
    · cases hstep
    · obtain ⟨c, hc, haccess⟩ := h.access_eq (t := t) (a := a)
        (hmem a (List.mem_append_left _ (by rw [hpc]; exact List.mem_cons_self)))
      simp only [haccess, Option.some.injEq] at hstep
      subst hstep
      exact h.free hpc
  case endOp reply =>
    subst hstep
    exact matched_shown
      (h.reserve hpc .idle (by rintro ⟨⟩) rfl rfl (fun _ _ => trivial) trivial trivial rfl) rfl rfl
      (.ret (congrArg Pc.phase hpc))

/-- **Every step** keeps the invariant and is matched. -/
theorem Inv.step (h : Inv s nodes owner) (hyoung : s.Young) {act : Act}
    (hstep : s.step (t, act) = some s') : Matched s s' (s.shown (t, act)) nodes := by
  cases act with
  | acquire =>
    obtain ⟨⟨hnext, hmax⟩, hs'⟩ := Option.ite_none_right_eq_some.mp hstep
    have hpc : (s.thread t).pc = .unborn := by
      by_contra hne
      exact absurd hnext ((h.threads t).born hne).ne
    cases hs'
    have hinv : Inv ({ s with nexttid := s.nexttid + 1 }.goto t .acquired) nodes owner :=
      h.goto hpc .acquired (by rw [Function.update_eq_self]; rfl) (Nat.le_succ _)
        (Nat.succ_le_of_lt (hnext ▸ hmax)) (Nat.lt_succ_of_le hnext.le) rfl rfl
        (fun _ _ _ _ _ => trivial) trivial trivial (by rintro _ ⟨⟩)
    exact matched_silent hinv rfl (fun _ _ => rfl) (by rw [hpc]; rfl)
  | call op =>
    obtain ⟨hpc, hs'⟩ := Option.ite_none_right_eq_some.mp hstep
    cases hs'
    have hinv : Inv (s.goto t (.start op)) nodes owner :=
      h.goto hpc (.start op) (by rw [Function.update_eq_self]; rfl) (Nat.le_refl _) h.tids
        ((h.threads t).born (by rw [hpc]; rintro ⟨⟩)) rfl rfl (fun _ _ _ _ _ => trivial) trivial
        trivial (by rintro _ ⟨⟩)
    exact matched_shown hinv rfl rfl (.call op (congrArg Pc.phase hpc))
  | go addr => exact h.go hyoung hstep

/-- It holds at the start. -/
theorem inv_init : Inv .init [] fun _ => none := by
  refine ⟨rfl, fun _ => iff_of_true rfl rfl, fun a => ?_, fun t a => ?_, List.nodup_nil,
    fun _ => List.nodup_nil, rfl, Nat.zero_le _, fun t => ?_⟩
  · exact iff_of_false (by rintro ⟨⟩) List.not_mem_nil
  · exact iff_of_false (by rintro ⟨⟩) List.not_mem_nil
  · exact ⟨fun hpc => absurd rfl hpc, trivial, .nil, fun a ha => absurd ha List.not_mem_nil,
      trivial, (by rintro _ ⟨⟩)⟩

/-! ## Runs -/

variable {events : List (Event ThreadId Op Reply)}

/-- **The invariant of runs**, with the stack that is seen. -/
theorem traced_inv (h : Traced State.step State.Young State.shown .init events s) :
    ∃ nodes owner, Inv s nodes owner ∧
      (view .init []).History apply events (view s nodes) := by
  obtain ⟨b, hb, nodes, owner, hinv, rfl⟩ := h.history (a := view .init [])
    (R := fun s b => ∃ nodes owner, Inv s nodes owner ∧ b = view s nodes)
    ⟨[], _, inv_init, rfl⟩ (by
      rintro s ⟨t, act⟩ s' b ⟨nodes, owner, hinv, rfl⟩ hyoung hstep
      obtain ⟨nodes', owner', hinv', hmatch⟩ := hinv.step hyoung hstep
      rcases hmatch with ⟨hshown, hview⟩ | hone
      · exact .inl ⟨hshown, nodes', owner', hinv', hview.symm⟩
      · exact .inr ⟨_, hone, nodes', owner', hinv', rfl⟩)
  exact ⟨nodes, owner, hinv, hb⟩

instance : DecidablePred State.Young := fun s => inferInstanceAs (Decidable (s.epoch + 1 < 2 ^ 64))

/-- One thread pops what the other one is still pushing. -/
theorem traced_push_pop : ∃ s, Traced State.step State.Young State.shown .init
    [.call 0 (.push 7), .call 1 .pop, .ret 1 (.popped (some 7)), .ret 0 .pushed] s :=
  traced_trace (l := [(0, .acquire), (0, .go 0), (1, .acquire), (1, .go 0), (0, .call (.push 7)),
    (1, .call .pop), (0, .go 0), (0, .go 0), (0, .go 8), (0, .go 0), (0, .go 0), (1, .go 0),
    (1, .go 0), (1, .go 0), (1, .go 0), (1, .go 0), (1, .go 0), (1, .go 0), (0, .go 0)])
    .refl (by decide)

/-- **The stack is linearizable**: what the threads see of it in any order of their steps, they can
see of a stack whose operations are atomic. -/
theorem llstack_linearizable (h : Traced State.step State.Young State.shown .init events s) :
    ∃ b, Atomic.History apply ⟨[], fun _ => .idle⟩ events b := by
  obtain ⟨nodes, owner, -, hhistory⟩ := traced_inv h
  exact ⟨_, hhistory⟩

theorem llstack_linearizable_push_pop : ∃ b, Atomic.History apply ⟨[], fun _ => .idle⟩
    [.call (0 : ThreadId) (.push 7), .call 1 .pop, .ret 1 (.popped (some 7)), .ret 0 .pushed] b :=
  let ⟨_, h⟩ := traced_push_pop
  llstack_linearizable h

/-- **No thread uses a record that is not in use**, and what a thread is about to read is in use. -/
theorem no_use_after_free (h : Traced State.step State.Young State.shown .init events s)
    (t : ThreadId) :
    (s.thread t).pc ≠ .crashed ∧
      ∀ a ∈ (s.thread t).pc.hazard.toList ++ (s.thread t).mine, (s.heap a).isSome := by
  obtain ⟨nodes, owner, hinv, -⟩ := traced_inv h
  constructor
  · intro hpc
    have hlocal := (hinv.threads t).locals
    rw [hpc] at hlocal
    exact hlocal
  · intro a ha
    rw [Option.isSome_iff_ne_none]
    refine mt (hinv.live a).mpr ?_
    rcases List.mem_append.mp ha with ha | ha
    · exact ((hinv.threads t).guarded a (Option.mem_toList.mp ha)).1
    · rw [(hinv.mine t a).mpr ha]
      exact Option.some_ne_none _

theorem no_use_after_free_push_pop : ∃ s, Traced State.step State.Young State.shown .init
    [.call 0 (.push 7), .call 1 .pop, .ret 1 (.popped (some 7)), .ret 0 .pushed] s ∧
      ∀ t, (s.thread t).pc ≠ .crashed ∧
        ∀ a ∈ (s.thread t).pc.hazard.toList ++ (s.thread t).mine, (s.heap a).isSome :=
  let ⟨s, h⟩ := traced_push_pop
  ⟨s, h, no_use_after_free h⟩

end N00b.Hatrack.LlStack
