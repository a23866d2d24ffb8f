import N00b.Mt.Mutex

/-!
# The invariant of the mutexes

What holds between the atomic steps of the threads. A thread owns a mutex from the step that takes its
futex to the step that gives it back, and only the owner changes the mutex and its links. What the
links look like while the owner changes them is told by the stores that it has already made to a list.

## Main results

* `Inv.keep`, `Inv.take`, `Inv.release`: what a step has to show that changes no owner, takes a futex
  or gives one back.
-/

namespace N00b.Mt

open N00b.Lib

variable {M : Type} [DecidableEq M]

/-! ## Owners -/

/-- The thread has the futex of its target, whatever its depth. -/
def Pc.ownsTarget : Pc M → Bool
  | .leaveWait _ | .acquire _ | .linkPrev _ _ _ | .linkNext _ _ | .storeAcquired _ _
  | .ensureOwnership _ | .unlockStart _ | .readPrev _ _ | .readNext _ _ _ | .storePrevNext _ _ _ _
  | .storeNextPrev _ _ _ _ | .clearPrev _ _ _ | .clearNext _ _ _ | .storeReleased _ _ _
  | .storeFutex _ => true
  | _ => false

/-- `data` counts a lock that has not returned, or one whose unlock has begun. -/
def Pc.pending : Pc M → Bool
  | .ensureOwnership _ | .unlockStart _ | .readPrev _ _ | .readNext _ _ _ | .storePrevNext _ _ _ _
  | .storeNextPrev _ _ _ _ | .clearPrev _ _ _ | .clearNext _ _ _ | .storeReleased _ _ _ => true
  | _ => false

def Thread.Owns (th : Thread M) (m : M) : Prop :=
  0 < th.depth m ∨ (th.pc.ownsTarget = true ∧ th.pc.target = some m)

/-- The nesting depth that `data` has. -/
def Thread.counted (th : Thread M) (m : M) : Nat :=
  th.depth m + if th.pc.pending = true ∧ th.pc.target = some m then 1 else 0

def Thread.Linked (th : Thread M) (m : M) : Prop :=
  match th.pc with
  | .storeAcquired m' _ => 0 < th.depth m ∨ m = m'
  | .storeReleased _ _ _ => 0 < th.depth m
  | _ => 0 < th.counted m

/-- `data` at a nesting depth. -/
def infoOf (t : ThreadId) (n : Nat) : LockInfo :=
  if n = 0 then ⟨noOwner, 0⟩ else ⟨t, n⟩

/-! ## Threads -/

def Thread.PcOk (t : ThreadId) (th : Thread M) : Prop :=
  match th.pc with
  | .lockStart m | .acquire m => th.depth m < 2 ^ 15 - 1
  | .spin m _ | .waitFutex m | .tryTake m | .leaveWait m | .storeFutex m | .assertFutex m
  | .readWake m => th.depth m = 0
  | .linkPrev m info topHeld => th.depth m = 0 ∧ info = ⟨t, 1⟩ ∧ th.exclusiveLocks = some topHeld
  | .linkNext m info => th.depth m = 0 ∧ info = ⟨t, 1⟩
  | .storeAcquired m info => th.depth m < 2 ^ 15 - 1 ∧ info = ⟨t, th.depth m + 1⟩
  | .readPrev m info | .readNext m info _ | .storePrevNext m info _ _ | .storeNextPrev m info _ _
  | .clearPrev m info _ | .clearNext m info _ => th.depth m = 0 ∧ info = ⟨noOwner, 0⟩
  | .storeReleased m info unlock =>
    info = infoOf t (th.depth m) ∧ (unlock = true ↔ th.depth m = 0)
  | .returned m result => result = true ↔ th.depth m = 0
  | .aborted => False
  | .idle | .ensureOwnership _ | .unlockStart _ => True

/-- What a thread knows of the links of its list before it began to change them. -/
def Pc.LinksRead (lk : Links M) : Pc M → Prop
  | .readNext m _ prev => prev = lk.prev m
  | .storePrevNext m _ prev next | .storeNextPrev m _ prev next =>
    prev = lk.prev m ∧ next = lk.next m
  | .clearPrev m _ next | .clearNext m _ next => next = lk.next m
  | _ => True

/-- The links after the stores that a thread has made already. -/
def Thread.linksNow (th : Thread M) (lk : Links M) : Links M :=
  let relinked (prev next : Option M) :=
    if prev = next then lk else (lk.setNextOf prev next).setPrevOf next prev
  match th.pc with
  | .linkNext m _ => lk.setPrevOf th.exclusiveLocks (some m)
  | .storeNextPrev _ _ prev next => if prev = next then lk else lk.setNextOf prev next
  | .clearPrev m _ next => relinked (lk.prev m) next
  | .clearNext m _ next => (relinked (lk.prev m) next).setPrev m none
  | _ => lk

def SameLinks (lk lk' : Links M) (m : M) : Prop :=
  lk'.next m = lk.next m ∧ lk'.prev m = lk.prev m

/-- What holds for one thread and the mutexes that it owns. -/
structure Local (s : State M) (t : ThreadId) : Prop where
  pc : (s.thread t).PcOk t
  depth : ∀ m, (s.thread t).counted m ≤ 2 ^ 15 - 1
  data : ∀ m, (s.thread t).Owns m → (s.mutex m).data = infoOf t ((s.thread t).counted m)
  logs : ∀ m, (s.thread t).Linked m → (s.thread t).counted m ≤ (s.mutex m).logs.length
  unlinked : ∀ m, (s.thread t).Owns m → ¬ (s.thread t).Linked m →
    s.links.next m = none ∧ s.links.prev m = none
  list : ∃ lk ms, lk.IsList none (s.thread t).exclusiveLocks ms ∧ ms.Nodup ∧
    (∀ m, m ∈ ms ↔ (s.thread t).Linked m) ∧ (s.thread t).pc.LinksRead lk ∧
    ∀ m ∈ ms, SameLinks ((s.thread t).linksNow lk) s.links m

/-- **The invariant.** -/
structure Inv (s : State M) : Prop where
  unique : ∀ m t u, (s.thread t).Owns m → (s.thread u).Owns m → t = u
  taken : ∀ m t, (s.thread t).Owns m → (s.mutex m).futex = 1
  free : ∀ m, (∀ t, ¬ (s.thread t).Owns m) → (s.mutex m).futex = 0 ∧
    (s.mutex m).data = infoOf 0 0 ∧ s.links.next m = none ∧ s.links.prev m = none
  asserting : ∀ t m, (s.thread t).pc = .assertFutex m → ∀ u, ¬ (s.thread u).Owns m
  local' : ∀ t, Local s t

variable {s s' : State M} {t u : ThreadId} {m : M} {th : Thread M}

theorem infoOf_zero (t u : ThreadId) : infoOf t 0 = infoOf u 0 := rfl

/-- A mutex in the list of a thread is owned by it. -/
theorem Thread.Linked.owns (h : th.Linked m) : th.Owns m := by
  have hcounted : 0 < th.counted m → th.Owns m := by
    intro hpos
    unfold Thread.counted at hpos
    by_cases hdepth : 0 < th.depth m
    · exact .inl hdepth
    · split at hpos
      next hpending =>
        obtain ⟨hpending, htarget⟩ := hpending
        refine .inr ⟨?_, htarget⟩
        cases hpc : th.pc <;> simp_all [Pc.pending, Pc.ownsTarget]
      · omega
  unfold Thread.Linked at h
  split at h
  next m' info hpc =>
    rcases h with hdepth | rfl
    · exact .inl hdepth
    · exact .inr ⟨by rw [hpc]; rfl, by rw [hpc]; rfl⟩
  · exact .inl h
  · exact hcounted h

/-! ## What other threads see -/

/-- What holds of a thread alone depends on its own mutexes. -/
theorem Local.congr (h : Local s u) (hth : s'.thread u = s.thread u)
    (hsame : ∀ m, (s.thread u).Owns m → (s'.mutex m).data = (s.mutex m).data ∧
      (s'.mutex m).logs = (s.mutex m).logs ∧ SameLinks s.links s'.links m) : Local s' u where
  pc := hth ▸ h.pc
  depth := hth ▸ h.depth
  data := by
    rw [hth]
    intro m hm
    rw [(hsame m hm).1]
    exact h.data m hm
  logs := by
    rw [hth]
    intro m hm
    rw [(hsame m hm.owns).2.1]
    exact h.logs m hm
  unlinked := by
    rw [hth]
    intro m hm hnot
    obtain ⟨hnext, hprev⟩ := (hsame m hm).2.2
    rw [hnext, hprev]
    exact h.unlinked m hm hnot
  list := by
    rw [hth]
    obtain ⟨lk, ms, hlist, hnodup, hmem, hread, hlinks⟩ := h.list
    refine ⟨lk, ms, hlist, hnodup, hmem, hread, fun m hm => ?_⟩
    obtain ⟨hnext, hprev⟩ := (hsame m ((hmem m).mp hm).owns).2.2
    exact ⟨hnext.trans (hlinks m hm).1, hprev.trans (hlinks m hm).2⟩

def SameMutex (s s' : State M) (m : M) : Prop :=
  (s'.mutex m).data = (s.mutex m).data ∧ (s'.mutex m).logs = (s.mutex m).logs ∧
    (s'.mutex m).futex = (s.mutex m).futex ∧ SameLinks s.links s'.links m

/-- **A step that takes and releases nothing** keeps the invariant, if it leaves the mutexes of
others. -/
theorem Inv.keep (h : Inv s) (hother : ∀ u, u ≠ t → s'.thread u = s.thread u)
    (howns : ∀ m, (s'.thread t).Owns m ↔ (s.thread t).Owns m)
    (hsame : ∀ m, ¬ (s.thread t).Owns m → SameMutex s s' m)
    (hfutex : ∀ m, (s.thread t).Owns m → (s'.mutex m).futex = (s.mutex m).futex)
    (hassert : ∀ m, (s'.thread t).pc ≠ .assertFutex m) (hlocal : Local s' t) : Inv s' := by
  have howns_all : ∀ u m, (s'.thread u).Owns m ↔ (s.thread u).Owns m := by
    intro u m
    by_cases hu : u = t
    · rw [hu]
      exact howns m
    · rw [hother u hu]
  refine ⟨fun m t u => ?_, fun m u => ?_, fun m hfree => ?_, fun u m hpc v => ?_, fun u => ?_⟩
  · rw [howns_all, howns_all]
    exact h.unique m t u
  · rw [howns_all]
    intro hu
    by_cases ht : (s.thread t).Owns m
    · rw [hfutex m ht]
      exact h.taken m u hu
    · rw [(hsame m ht).2.2.1]
      exact h.taken m u hu
  · have hfree' : ∀ u, ¬ (s.thread u).Owns m := fun u => mt (howns_all u m).mpr (hfree u)
    obtain ⟨hdata, -, hfutex', hnext, hprev⟩ := hsame m (hfree' t)
    rw [hdata, hfutex', hnext, hprev]
    exact h.free m hfree'
  · rw [howns_all]
    by_cases hu : u = t
    · exact absurd (hu ▸ hpc) (hassert m)
    · rw [hother u hu] at hpc
      exact h.asserting u m hpc v
  · by_cases hu : u = t
    · rw [hu]
      exact hlocal
    · refine (h.local' u).congr (hother u hu) fun m hm => ?_
      have ht : ¬ (s.thread t).Owns m := fun ht => hu (h.unique m u t hm ht)
      obtain ⟨hdata, hlogs, -, hlinks⟩ := hsame m ht
      exact ⟨hdata, hlogs, hlinks⟩

/-- So does one that takes a free mutex. -/
theorem Inv.take (h : Inv s) (hother : ∀ u, u ≠ t → s'.thread u = s.thread u)
    (howns : ∀ m', (s'.thread t).Owns m' ↔ m' = m ∨ (s.thread t).Owns m')
    (hfree : ∀ u, ¬ (s.thread u).Owns m) (hasserting : ∀ u, (s.thread u).pc ≠ .assertFutex m)
    (hsame : ∀ m', m' ≠ m → SameMutex s s' m') (hfutex : (s'.mutex m).futex = 1)
    (hassert : ∀ m, (s'.thread t).pc ≠ .assertFutex m) (hlocal : Local s' t) : Inv s' := by
  have howns_other : ∀ u m', u ≠ t → ((s'.thread u).Owns m' ↔ (s.thread u).Owns m') := by
    intro u m' hu
    rw [hother u hu]
  refine ⟨fun m' u v hu hv => ?_, fun m' u hu => ?_, fun m' hfree' => ?_, fun u m' hpc v hv => ?_,
    fun u => ?_⟩
  · by_cases hm : m' = m
    · -- only the thread that takes it owns `m`
      have honly : ∀ w, (s'.thread w).Owns m' → w = t := by
        intro w hw
        by_contra hwt
        rw [howns_other w m' hwt, hm] at hw
        exact hfree w hw
      rw [honly u hu, honly v hv]
    · have hback : ∀ w, (s'.thread w).Owns m' → (s.thread w).Owns m' := by
        intro w hw
        by_cases hwt : w = t
        · rw [hwt] at hw ⊢
          exact ((howns m').mp hw).resolve_left hm
        · exact (howns_other w m' hwt).mp hw
      exact h.unique m' u v (hback u hu) (hback v hv)
  · by_cases hm : m' = m
    · rw [hm]
      exact hfutex
    · rw [(hsame m' hm).2.2.1]
      by_cases hut : u = t
      · rw [hut] at hu
        exact h.taken m' t (((howns m').mp hu).resolve_left hm)
      · exact h.taken m' u ((howns_other u m' hut).mp hu)
  · have hm : m' ≠ m := by
      rintro rfl
      exact hfree' t ((howns m').mpr (.inl rfl))
    obtain ⟨hdata, -, hfutex', hnext, hprev⟩ := hsame m' hm
    rw [hdata, hfutex', hnext, hprev]
    refine h.free m' fun u hu => ?_
    by_cases hut : u = t
    · rw [hut] at hu
      exact hfree' t ((howns m').mpr (.inr hu))
    · exact hfree' u ((howns_other u m' hut).mpr hu)
  · by_cases hut : u = t
    · exact hassert m' (hut ▸ hpc)
    · rw [hother u hut] at hpc
      by_cases hvt : v = t
      · rw [hvt] at hv
        rcases (howns m').mp hv with rfl | hv
        · exact hasserting u hpc
        · exact h.asserting u m' hpc t hv
      · exact h.asserting u m' hpc v ((howns_other v m' hvt).mp hv)
  · by_cases hut : u = t
    · rw [hut]
      exact hlocal
    · refine (h.local' u).congr (hother u hut) fun m' hm' => ?_
      have hm : m' ≠ m := by
        rintro rfl
        exact hfree u hm'
      obtain ⟨hdata, hlogs, -, hlinks⟩ := hsame m' hm
      exact ⟨hdata, hlogs, hlinks⟩

/-- So does one that gives a mutex back. -/
theorem Inv.release (h : Inv s) (hother : ∀ u, u ≠ t → s'.thread u = s.thread u)
    (howned : (s.thread t).Owns m)
    (howns : ∀ m', (s'.thread t).Owns m' ↔ m' ≠ m ∧ (s.thread t).Owns m')
    (hsame : ∀ m', m' ≠ m → SameMutex s s' m')
    (hnow : (s'.mutex m).futex = 0 ∧ (s'.mutex m).data = infoOf 0 0 ∧ s'.links.next m = none ∧
      s'.links.prev m = none)
    (hassert : ∀ m', (s'.thread t).pc = .assertFutex m' → m' = m) (hlocal : Local s' t) :
    Inv s' := by
  have howns_other : ∀ u m', u ≠ t → ((s'.thread u).Owns m' ↔ (s.thread u).Owns m') := by
    intro u m' hu
    rw [hother u hu]
  have hback : ∀ u m', (s'.thread u).Owns m' → (s.thread u).Owns m' := by
    intro u m' hu
    by_cases hut : u = t
    · rw [hut] at hu ⊢
      exact ((howns m').mp hu).2
    · exact (howns_other u m' hut).mp hu
  have hnobody : ∀ u, ¬ (s'.thread u).Owns m := by
    intro u hu
    obtain rfl := h.unique m u t (hback u m hu) howned
    exact ((howns m).mp hu).1 rfl
  refine ⟨fun m' u v hu hv => ?_, fun m' u hu => ?_, fun m' hfree' => ?_, fun u m' hpc v hv => ?_,
    fun u => ?_⟩
  · exact h.unique m' u v (hback u m' hu) (hback v m' hv)
  · have hm : m' ≠ m := by
      rintro rfl
      exact hnobody u hu
    rw [(hsame m' hm).2.2.1]
    exact h.taken m' u (hback u m' hu)
  · by_cases hm : m' = m
    · rw [hm]
      exact hnow
    · obtain ⟨hdata, -, hfutex', hnext, hprev⟩ := hsame m' hm
      rw [hdata, hfutex', hnext, hprev]
      refine h.free m' fun u hu => ?_
      by_cases hut : u = t
      · rw [hut] at hu
        exact hfree' t ((howns m').mpr ⟨hm, hu⟩)
      · exact hfree' u ((howns_other u m' hut).mpr hu)
  · by_cases hut : u = t
    · obtain rfl := hassert m' (hut ▸ hpc)
      exact hnobody v hv
    · rw [hother u hut] at hpc
      exact h.asserting u m' hpc v (hback v m' hv)
  · by_cases hut : u = t
    · rw [hut]
      exact hlocal
    · refine (h.local' u).congr (hother u hut) fun m' hm' => ?_
      have hm : m' ≠ m := by
        rintro rfl
        exact hut (h.unique m' u t hm' howned)
      obtain ⟨hdata, hlogs, -, hlinks⟩ := hsame m' hm
      exact ⟨hdata, hlogs, hlinks⟩

/-! ## Steps that leave the list alone -/

/-- A thread goes on in the code and owns no more than before. -/
theorem Local.move (h : Local s t) {th' : Thread M} (hth : s'.thread t = th')
    (hexcl : th'.exclusiveLocks = (s.thread t).exclusiveLocks) (hpc : th'.PcOk t)
    (howns : ∀ m, th'.Owns m → (s.thread t).Owns m)
    (hcounted : ∀ m, th'.counted m = (s.thread t).counted m)
    (hlinked : ∀ m, th'.Linked m ↔ (s.thread t).Linked m)
    (hsame : ∀ m, (s.thread t).Owns m → (s'.mutex m).data = (s.mutex m).data ∧
      (s.mutex m).logs.length ≤ (s'.mutex m).logs.length ∧ SameLinks s.links s'.links m)
    (hread : ∀ lk : Links M, (s.thread t).pc.LinksRead lk →
      (∀ m, (s.thread t).Linked m → SameLinks ((s.thread t).linksNow lk) s.links m) →
      th'.pc.LinksRead lk ∧
        ∀ m, (s.thread t).Linked m → SameLinks (th'.linksNow lk) s.links m) :
    Local s' t where
  pc := hth ▸ hpc
  depth := by
    rw [hth]
    intro m
    rw [hcounted]
    exact h.depth m
  data := by
    rw [hth]
    intro m hm
    rw [(hsame m (howns m hm)).1, hcounted]
    exact h.data m (howns m hm)
  logs := by
    rw [hth]
    intro m hm
    rw [hlinked] at hm
    rw [hcounted]
    exact Nat.le_trans (h.logs m hm) (hsame m hm.owns).2.1
  unlinked := by
    rw [hth]
    intro m hm hnot
    rw [hlinked] at hnot
    obtain ⟨hnext, hprev⟩ := (hsame m (howns m hm)).2.2
    rw [hnext, hprev]
    exact h.unlinked m (howns m hm) hnot
  list := by
    rw [hth]
    obtain ⟨lk, ms, hlist, hnodup, hmem, hread', hlinks⟩ := h.list
    obtain ⟨hread_now, hnow⟩ := hread lk hread' fun m hm => hlinks m ((hmem m).mpr hm)
    refine ⟨lk, ms, hexcl ▸ hlist, hnodup, fun m => ?_, hread_now, fun m hm => ?_⟩
    · rw [hlinked]
      exact hmem m
    · obtain ⟨hnext, hprev⟩ := (hsame m ((hmem m).mp hm).owns).2.2
      obtain ⟨hnext', hprev'⟩ := hnow m ((hmem m).mp hm)
      exact ⟨hnext.trans hnext', hprev.trans hprev'⟩

omit [DecidableEq M] in
theorem setThread_of_ne (s : State M) (th : Thread M) (hu : u ≠ t) :
    (s.setThread t th).thread u = s.thread u :=
  Function.update_of_ne hu ..

omit [DecidableEq M] in
theorem setThread_self (s : State M) (t : ThreadId) (th : Thread M) :
    (s.setThread t th).thread t = th :=
  Function.update_self ..

theorem setMutex_self (s : State M) (m : M) (mu : Mutex) : (s.setMutex m mu).mutex m = mu :=
  Function.update_self ..

theorem setMutex_of_ne (s : State M) (mu : Mutex) {m m' : M} (hm : m' ≠ m) :
    (s.setMutex m mu).mutex m' = s.mutex m' :=
  Function.update_of_ne hm ..

structure Thread.Stays (th : Thread M) (pc' : Pc M) : Prop where
  owns : ∀ m, Thread.Owns { th with pc := pc' } m ↔ th.Owns m
  counted : ∀ m, Thread.counted { th with pc := pc' } m = th.counted m
  linked : ∀ m, Thread.Linked { th with pc := pc' } m ↔ th.Linked m
  noAssert : ∀ m, pc' ≠ .assertFutex m

theorem stays_of {pc pc' : Pc M} (hpc : th.pc = pc) (howns : pc'.ownsTarget = pc.ownsTarget)
    (hpending : pc'.pending = pc.pending) (htarget : pc'.target = pc.target)
    (hlinked : ∀ m, Thread.Linked { th with pc } m = (0 < Thread.counted { th with pc } m))
    (hlinked' : ∀ m, Thread.Linked { th with pc := pc' } m =
      (0 < Thread.counted { th with pc := pc' } m))
    (hassert : ∀ m, pc' ≠ .assertFutex m) : th.Stays pc' := by
  subst hpc
  have hcounted : ∀ m, Thread.counted { th with pc := pc' } m = th.counted m := fun m => by
    unfold Thread.counted
    rw [hpending, htarget]
  refine ⟨fun m => ?_, hcounted, fun m => ?_, hassert⟩
  · unfold Thread.Owns
    rw [howns, htarget]
  · rw [hlinked', hcounted]
    exact iff_of_eq (hlinked m).symm

/-- A step to another place with the same mutexes keeps the invariant. -/
theorem Inv.move (h : Inv s) (pc' : Pc M)
    (hself : s'.thread t = { s.thread t with pc := pc' })
    (hother : ∀ u, u ≠ t → s'.thread u = s.thread u) (hlinks : s'.links = s.links)
    (hmutex : ∀ m, (s'.mutex m).data = (s.mutex m).data ∧
      (s'.mutex m).futex = (s.mutex m).futex ∧
      ((s'.mutex m).logs = (s.mutex m).logs ∨
        ((s.thread t).Owns m ∧ (s.mutex m).logs.length ≤ (s'.mutex m).logs.length)))
    (hpc : Thread.PcOk t { s.thread t with pc := pc' })
    (hstays : (s.thread t).Stays pc')
    (hread : ∀ lk : Links M, (s.thread t).pc.LinksRead lk →
      (∀ m, (s.thread t).Linked m → SameLinks ((s.thread t).linksNow lk) s.links m) →
      pc'.LinksRead lk ∧
        ∀ m, (s.thread t).Linked m →
          SameLinks (Thread.linksNow { s.thread t with pc := pc' } lk) s.links m) : Inv s' := by
  have hsame_links : ∀ m, SameLinks s.links s'.links m := fun m => by
    rw [hlinks]
    exact ⟨rfl, rfl⟩
  refine h.keep hother (fun m => by rw [hself]; exact hstays.owns m) (fun m hm => ?_)
    (fun m _ => (hmutex m).2.1) (fun m => by rw [hself]; exact hstays.noAssert m) ?_
  · obtain ⟨hdata, hfutex, hlogs⟩ := hmutex m
    exact ⟨hdata, hlogs.resolve_right fun hlogs => hm hlogs.1, hfutex, hsame_links m⟩
  · refine (h.local' t).move hself rfl hpc (fun m => (hstays.owns m).mp) hstays.counted
      hstays.linked (fun m _ => ?_) hread
    obtain ⟨hdata, -, hlogs⟩ := hmutex m
    refine ⟨hdata, ?_, hsame_links m⟩
    rcases hlogs with hlogs | hlogs
    · rw [hlogs]
    · exact hlogs.2

theorem Inv.goto (h : Inv s) (pc' : Pc M) (hpc : Thread.PcOk t { s.thread t with pc := pc' })
    (hstays : (s.thread t).Stays pc')
    (hread : ∀ lk : Links M, (s.thread t).pc.LinksRead lk →
      (∀ m, (s.thread t).Linked m → SameLinks ((s.thread t).linksNow lk) s.links m) →
      pc'.LinksRead lk ∧
        ∀ m, (s.thread t).Linked m →
          SameLinks (Thread.linksNow { s.thread t with pc := pc' } lk) s.links m) :
    Inv (s.goto t pc') :=
  h.move pc' (setThread_self ..) (fun _ hu => setThread_of_ne s _ hu) rfl
    (fun _ => ⟨rfl, rfl, .inl rfl⟩) hpc hstays hread

/-! ## Taking the futex -/

/-- **The owner in the record** is the thread that has counted its lock. -/
theorem Inv.owner_iff (h : Inv s) :
    (s.mutex m).data.owner = t ↔ (s.thread t).Owns m ∧ 0 < (s.thread t).counted m := by
  constructor
  · intro howner
    by_cases hany : ∃ u, (s.thread u).Owns m
    · obtain ⟨u, hu⟩ := hany
      rw [(h.local' u).data m hu, infoOf] at howner
      split at howner
      · exact absurd howner (by show (-1 : Int) ≠ t; omega)
      next hcounted =>
        have hut : u = t := by
          have howner : (u : Int) = t := howner
          exact_mod_cast howner
        rw [hut] at hu hcounted
        exact ⟨hu, Nat.pos_of_ne_zero hcounted⟩
    · rw [(h.free m fun u hu => hany ⟨u, hu⟩).2.1] at howner
      exact absurd howner (by show (-1 : Int) ≠ t; omega)
  · rintro ⟨howns, hcounted⟩
    rw [(h.local' t).data m howns, infoOf, if_neg (by omega)]

/-- Nobody owns a mutex whose futex is zero. -/
theorem Inv.futex_zero (h : Inv s) (hfutex : (s.mutex m).futex = 0) (u : ThreadId) :
    ¬ (s.thread u).Owns m := by
  intro hu
  have hone := h.taken m u hu
  omega

theorem Inv.futex_le_one (h : Inv s) (m : M) : (s.mutex m).futex = 0 ∨ (s.mutex m).futex = 1 := by
  by_cases hany : ∃ u, (s.thread u).Owns m
  · obtain ⟨u, hu⟩ := hany
    exact .inr (h.taken m u hu)
  · exact .inl (h.free m fun u hu => hany ⟨u, hu⟩).1

/-- **A thread that finds the futex at zero** takes the mutex, if nobody has still to assert that it
is. -/
theorem Inv.takes (h : Inv s) {pc' : Pc M} (hfutex : (s.mutex m).futex = 0)
    (hasserting : ∀ u, (s.thread u).pc ≠ .assertFutex m)
    (hpc : (∃ i, (s.thread t).pc = .spin m i) ∨ (s.thread t).pc = .tryTake m)
    (hpc' : pc' = .acquire m ∨ pc' = .leaveWait m) : Inv ((s.fetchOr m).goto t pc') := by
  have hfree := h.futex_zero hfutex
  obtain ⟨-, hdata, hnext, hprev⟩ := h.free m hfree
  have hlocal := h.local' t
  have hdepth : (s.thread t).depth m = 0 := Nat.eq_zero_of_not_pos fun hpos => hfree t (.inl hpos)
  have hself : ((s.fetchOr m).goto t pc').thread t = { s.thread t with pc := pc' } :=
    setThread_self ..
  have hcounted : ∀ m',
      Thread.counted { s.thread t with pc := pc' } m' = (s.thread t).counted m' := by
    intro m'
    rcases hpc with ⟨i, hpc⟩ | hpc <;> rcases hpc' with rfl | rfl <;>
      simp [Thread.counted, Pc.pending, hpc]
  have hlinked : ∀ m', Thread.Linked { s.thread t with pc := pc' } m' ↔ (s.thread t).Linked m' := by
    intro m'
    have hnow := hcounted m'
    rcases hpc with ⟨i, hpc⟩ | hpc <;> rcases hpc' with rfl | rfl <;>
      simp [Thread.Linked, hpc, hnow]
  have howns : ∀ m',
      Thread.Owns { s.thread t with pc := pc' } m' ↔ m' = m ∨ (s.thread t).Owns m' := by
    intro m'
    rcases hpc with ⟨i, hpc⟩ | hpc <;> rcases hpc' with rfl | rfl <;>
      simp [Thread.Owns, Pc.ownsTarget, Pc.target, hpc, or_comm, eq_comm]
  have hmutex : ∀ m', (((s.fetchOr m).goto t pc').mutex m').data = (s.mutex m').data ∧
      (((s.fetchOr m).goto t pc').mutex m').logs = (s.mutex m').logs := by
    intro m'
    show ((s.fetchOr m).mutex m').data = _ ∧ ((s.fetchOr m).mutex m').logs = _
    by_cases hm : m' = m
    · rw [hm, State.fetchOr, setMutex_self]
      exact ⟨rfl, rfl⟩
    · rw [State.fetchOr, setMutex_of_ne _ _ hm]
      exact ⟨rfl, rfl⟩
  refine h.take (m := m) (fun _ hu => setThread_of_ne _ _ hu)
    (fun m' => by rw [hself]; exact howns m') hfree hasserting (fun m' hm => ?_) ?_ ?_ ?_
  · refine ⟨(hmutex m').1, (hmutex m').2, ?_, rfl, rfl⟩
    show ((s.fetchOr m).mutex m').futex = _
    rw [State.fetchOr, setMutex_of_ne _ _ hm]
  · show ((s.fetchOr m).mutex m).futex = 1
    rw [State.fetchOr, setMutex_self, hfutex]
    rfl
  · rw [hself]
    rintro m' rfl
    rcases hpc' with hpc' | hpc' <;> cases hpc'
  · refine ⟨?_, ?_, ?_, ?_, ?_, ?_⟩
    · rw [hself]
      rcases hpc' with rfl | rfl
      · show (s.thread t).depth m < 2 ^ 15 - 1
        omega
      · exact hdepth
    · rw [hself]
      intro m'
      rw [hcounted]
      exact hlocal.depth m'
    · rw [hself]
      intro m' hm'
      rw [(hmutex m').1, hcounted]
      rcases (howns m').mp hm' with rfl | hm'
      · rw [hdata, infoOf_zero 0 t]
        congr 1
        rcases hpc with ⟨i, hpc⟩ | hpc <;> simp [Thread.counted, Pc.pending, hpc, hdepth]
      · exact hlocal.data m' hm'
    · rw [hself]
      intro m' hm'
      rw [(hmutex m').2, hcounted]
      exact hlocal.logs m' ((hlinked m').mp hm')
    · rw [hself]
      intro m' hm' hnot
      rcases (howns m').mp hm' with rfl | hm'
      · exact ⟨hnext, hprev⟩
      · exact hlocal.unlinked m' hm' (mt (hlinked m').mpr hnot)
    · rw [hself]
      obtain ⟨lk, ms, hlist, hnodup, hmem, -, hlinks⟩ := hlocal.list
      refine ⟨lk, ms, hlist, hnodup, fun m' => (hmem m').trans (hlinked m').symm, ?_,
        fun m' hm' => ?_⟩
      · rcases hpc' with rfl | rfl <;> trivial
      · have hnow := hlinks m' hm'
        show SameLinks _ s.links m'
        rcases hpc with ⟨i, hpc⟩ | hpc <;> rcases hpc' with rfl | rfl <;>
          simpa [Thread.linksNow, hpc] using hnow

/-! ## Places outside of the accounting -/

/-- The places at which a thread neither has the futex of its target nor changes anything. -/
def Pc.quiet : Pc M → Bool
  | .idle | .lockStart _ | .spin _ _ | .waitFutex _ | .tryTake _ | .assertFutex _ | .readWake _
  | .returned _ _ => true
  | _ => false

/-- Between its calls a thread owns what it has locked, and its list has just that. -/
theorem quiet_spec (th : Thread M) (hq : th.pc.quiet = true) (m : M) :
    (th.Owns m ↔ 0 < th.depth m) ∧ th.counted m = th.depth m ∧ (th.Linked m ↔ 0 < th.depth m) ∧
      ∀ lk : Links M, th.pc.LinksRead lk ∧ th.linksNow lk = lk := by
  cases hpc : th.pc <;> simp [hpc, Pc.quiet] at hq <;>
    simp [Thread.Owns, Thread.counted, Thread.Linked, Thread.linksNow, Pc.LinksRead, Pc.ownsTarget,
      Pc.pending, hpc]

/-- Steps between the calls keep the invariant. -/
theorem Inv.quiet (h : Inv s) (pc' : Pc M) (hq : (s.thread t).pc.quiet = true)
    (hq' : pc'.quiet = true) (hself : s'.thread t = { s.thread t with pc := pc' })
    (hother : ∀ u, u ≠ t → s'.thread u = s.thread u) (hlinks : s'.links = s.links)
    (hmutex : ∀ m, (s'.mutex m).data = (s.mutex m).data ∧
      (s'.mutex m).futex = (s.mutex m).futex ∧ (s'.mutex m).logs = (s.mutex m).logs)
    (hpc : Thread.PcOk t { s.thread t with pc := pc' }) (hassert : ∀ m, pc' ≠ .assertFutex m) :
    Inv s' := by
  have hspec := quiet_spec (s.thread t) hq
  have hspec' := quiet_spec { s.thread t with pc := pc' } hq'
  refine h.move pc' hself hother hlinks
    (fun m => ⟨(hmutex m).1, (hmutex m).2.1, .inl (hmutex m).2.2⟩)
    hpc ⟨fun m => ?_, fun m => ?_, fun m => ?_, hassert⟩ fun lk hread hnow => ?_
  · exact (hspec' m).1.trans (hspec m).1.symm
  · exact (hspec' m).2.1.trans (hspec m).2.1.symm
  · exact (hspec' m).2.2.1.trans (hspec m).2.2.1.symm
  · refine ⟨?_, fun m hm => ?_⟩
    · cases pc' <;> trivial
    · rw [((hspec' m).2.2.2 lk).2]
      have := hnow m hm
      rwa [((hspec m).2.2.2 lk).2] at this

theorem setMutex_same (mu : Mutex) (hdata : mu.data = (s.mutex m).data)
    (hfutex : mu.futex = (s.mutex m).futex) (hlogs : mu.logs = (s.mutex m).logs) (m' : M) :
    ((s.setMutex m mu).mutex m').data = (s.mutex m').data ∧
      ((s.setMutex m mu).mutex m').futex = (s.mutex m').futex ∧
      ((s.setMutex m mu).mutex m').logs = (s.mutex m').logs := by
  by_cases hm : m' = m
  · rw [hm, setMutex_self]
    exact ⟨hdata, hfutex, hlogs⟩
  · rw [setMutex_of_ne _ _ hm]
    exact ⟨rfl, rfl, rfl⟩

/-- Setting a futex that is set changes nothing. -/
theorem Inv.fetchOr_same (h : Inv s) (hfutex : (s.mutex m).futex ≠ 0) :
    ((s.mutex m).futex ||| 1) = (s.mutex m).futex := by
  rw [(h.futex_le_one m).resolve_left hfutex]
  rfl

/-! ## Links -/

theorem setPrev_of_ne (lk : Links M) {m m' : M} (v : Option M) (hm : m' ≠ m) :
    SameLinks lk (lk.setPrev m v) m' :=
  ⟨rfl, Function.update_of_ne hm ..⟩

theorem setNext_of_ne (lk : Links M) {m m' : M} (v : Option M) (hm : m' ≠ m) :
    SameLinks lk (lk.setNext m v) m' :=
  ⟨Function.update_of_ne hm .., rfl⟩

variable {lk lk' : Links M} {m' : M}

/-- A store to one link leaves the links of others. -/
theorem SameLinks.setPrev (h : SameLinks lk lk' m') (v : Option M) :
    SameLinks (lk.setPrev m v) (lk'.setPrev m v) m' := by
  by_cases hm : m' = m
  · rw [hm] at h ⊢
    exact ⟨h.1, by simp [Links.setPrev]⟩
  · obtain ⟨hnext, hprev⟩ := setPrev_of_ne lk v hm
    obtain ⟨hnext', hprev'⟩ := setPrev_of_ne lk' v hm
    exact ⟨hnext'.trans (h.1.trans hnext.symm), hprev'.trans (h.2.trans hprev.symm)⟩

theorem SameLinks.setNext (h : SameLinks lk lk' m') (v : Option M) :
    SameLinks (lk.setNext m v) (lk'.setNext m v) m' := by
  by_cases hm : m' = m
  · rw [hm] at h ⊢
    exact ⟨by simp [Links.setNext], h.2⟩
  · obtain ⟨hnext, hprev⟩ := setNext_of_ne lk v hm
    obtain ⟨hnext', hprev'⟩ := setNext_of_ne lk' v hm
    exact ⟨hnext'.trans (h.1.trans hnext.symm), hprev'.trans (h.2.trans hprev.symm)⟩

theorem setNextOf_of_ne (lk : Links M) {o : Option M} (v : Option M) (hm : o ≠ some m') :
    SameLinks lk (lk.setNextOf o v) m' :=
  ⟨by rw [Links.next_setNextOf, if_neg hm], by rw [Links.prev_setNextOf]⟩

theorem setPrevOf_of_ne (lk : Links M) {o : Option M} (v : Option M) (hm : o ≠ some m') :
    SameLinks lk (lk.setPrevOf o v) m' :=
  ⟨by rw [Links.next_setPrevOf], by rw [Links.prev_setPrevOf, if_neg hm]⟩

theorem SameLinks.setNextOf (h : SameLinks lk lk' m')
    (o v : Option M) : SameLinks (lk.setNextOf o v) (lk'.setNextOf o v) m' := by
  cases o with
  | none => exact h
  | some x => exact h.setNext v

theorem SameLinks.setPrevOf (h : SameLinks lk lk' m')
    (o v : Option M) : SameLinks (lk.setPrevOf o v) (lk'.setPrevOf o v) m' := by
  cases o with
  | none => exact h
  | some x => exact h.setPrev v

/-- **A step that changes the links** keeps the invariant, if it changes none of others. -/
theorem Inv.relink (h : Inv s) (pc' : Pc M) {links : Links M}
    (hpc : Thread.PcOk t { s.thread t with pc := pc' })
    (hstays : (s.thread t).Stays pc')
    (hkeep : ∀ m, ¬ (s.thread t).Linked m → SameLinks s.links links m)
    (hlist : ∀ (lk : Links M) ms, lk.IsList none (s.thread t).exclusiveLocks ms → ms.Nodup →
      (∀ m, m ∈ ms ↔ (s.thread t).Linked m) → (s.thread t).pc.LinksRead lk →
      (∀ m ∈ ms, SameLinks ((s.thread t).linksNow lk) s.links m) →
      pc'.LinksRead lk ∧
        ∀ m ∈ ms, SameLinks (Thread.linksNow { s.thread t with pc := pc' } lk) links m) :
    Inv ({ s with links }.goto t pc') := by
  have hlocal := h.local' t
  have hself : ({ s with links }.goto t pc').thread t = { s.thread t with pc := pc' } :=
    setThread_self ..
  refine h.keep (t := t) (fun u hu => setThread_of_ne _ _ hu)
    (fun m => by rw [hself]; exact hstays.owns m)
    (fun m hm => ⟨rfl, rfl, rfl, hkeep m fun hlinked => hm hlinked.owns⟩) (fun _ _ => rfl)
    (fun m => by rw [hself]; exact hstays.noAssert m) ⟨?_, ?_, ?_, ?_, ?_, ?_⟩
  · rw [hself]
    exact hpc
  · rw [hself]
    intro m
    rw [hstays.counted]
    exact hlocal.depth m
  · rw [hself]
    intro m hm
    rw [hstays.counted]
    exact hlocal.data m ((hstays.owns m).mp hm)
  · rw [hself]
    intro m hm
    rw [hstays.counted]
    exact hlocal.logs m ((hstays.linked m).mp hm)
  · rw [hself]
    intro m hm hnot
    have hnot' := mt (hstays.linked m).mpr hnot
    obtain ⟨hnext, hprev⟩ := hkeep m hnot'
    show links.next m = none ∧ links.prev m = none
    rw [hnext, hprev]
    exact hlocal.unlinked m ((hstays.owns m).mp hm) hnot'
  · rw [hself]
    obtain ⟨lk, ms, hlk, hnodup, hmem, hread, hlinks⟩ := hlocal.list
    obtain ⟨hread', hlinks'⟩ := hlist lk ms hlk hnodup hmem hread hlinks
    exact ⟨lk, ms, hlk, hnodup, fun m => (hmem m).trans (hstays.linked m).symm, hread', hlinks'⟩

end N00b.Mt
