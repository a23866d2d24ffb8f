import N00b.Mt.Locking

/-!
# Unlocking a mutex

Each step of `n00b_mutex_unlock` keeps the invariant: the accounting, which takes the mutex out of the
list of the thread when it gives up the last lock, and the store to the futex.

## Main results

* `Inv.unlockStart`, `Inv.readLinks`, `Inv.storeNeighbours`, `Inv.clearPrev`, `Inv.clearNext`,
  `Inv.storeReleased`: the steps of the accounting, in their order.
-/

namespace N00b.Mt

open N00b.Lib

variable {M : Type} [DecidableEq M] {s s' : State M} {t u : ThreadId} {m : M} {th : Thread M}

/-! ## The steps of an unlock -/

theorem Inv.unlockStart (h : Inv s) (hpc : (s.thread t).pc = .unlockStart m)
    (hstep : s.goRelease true t (.unlockStart m) = some s') : Inv s' := by
  have hlocal := h.local' t
  have hm_owned : (s.thread t).Owns m := .inr ⟨by rw [hpc]; rfl, by rw [hpc]; rfl⟩
  have hcounted : ∀ m', (s.thread t).counted m' =
      (s.thread t).depth m' + if m = m' then 1 else 0 := by
    intro m'
    simp [Thread.counted, Pc.pending, Pc.target, hpc]
  have hcounted_m : (s.thread t).counted m = (s.thread t).depth m + 1 := by
    rw [hcounted, if_pos rfl]
  have hbound := hlocal.depth m
  have hdata := hlocal.data m hm_owned
  rw [hcounted_m] at hbound
  rw [hcounted_m, infoOf_pos t (Nat.succ_pos _)] at hdata
  have howner : (s.mutex m).data.owner = t := by rw [hdata]
  have hnesting : (s.mutex m).data.nesting = (s.thread t).depth m + 1 := by
    rw [hdata]
    push_cast
    rfl
  have hnext : toInt16 ((s.mutex m).data.nesting - 1) = (s.thread t).depth m := by
    rw [hnesting, add_sub_cancel_right]
    exact toInt16_of_lt (by omega) (by omega)
  simp only [State.goRelease] at hstep
  rw [if_neg (by rw [howner]; show ¬ ((t : Int) = -1 ∨ (t : Int) ≠ t); omega),
    if_neg (by simp [hnesting]), hnext, howner] at hstep
  split at hstep
  next hzero =>
    cases hstep
    have hdepth : (s.thread t).depth m = 0 := by exact_mod_cast hzero
    refine h.goto _ ⟨hdepth, rfl⟩
      (stays_of hpc rfl rfl rfl (fun _ => rfl) (fun _ => rfl) (by rintro _ ⟨⟩)) ?_
    · intro lk _ hlinks
      refine ⟨trivial, ?_⟩
      simpa [Thread.linksNow, hpc] using hlinks
  next hnonzero =>
    cases hstep
    have hdepth : 0 < (s.thread t).depth m := by
      have : (s.thread t).depth m ≠ 0 := by exact_mod_cast hnonzero
      omega
    refine h.move (.storeReleased m ⟨t, (s.thread t).depth m⟩ false) (setThread_self ..)
      (fun _ hu => setThread_of_ne _ _ hu) rfl (fun m' => ?_) ?_
      ⟨fun m' => ?_, fun m' => ?_, fun m' => ?_, by rintro _ ⟨⟩⟩ ?_
    · show ((s.setMutex m _).mutex m').data = _ ∧ ((s.setMutex m _).mutex m').futex = _ ∧
        (((s.setMutex m _).mutex m').logs = _ ∨ _ ∧ _ ≤ ((s.setMutex m _).mutex m').logs.length)
      by_cases hne : m' = m
      · rw [hne, setMutex_self]
        exact ⟨rfl, rfl, .inr ⟨hm_owned, Nat.le_succ _⟩⟩
      · rw [setMutex_of_ne _ _ hne]
        exact ⟨rfl, rfl, .inl rfl⟩
    · refine ⟨(infoOf_pos t hdepth).symm, ?_⟩
      show false = true ↔ (s.thread t).depth m = 0
      simp
      omega
    · simp [Thread.Owns, Pc.ownsTarget, Pc.target, hpc]
    · simp [Thread.counted, Pc.pending, Pc.target, hpc]
    · have hnow : (s.thread t).Linked m' ↔ 0 < (s.thread t).counted m' := by
        simp [Thread.Linked, hpc]
      rw [hnow, hcounted]
      show 0 < (s.thread t).depth m' ↔ _
      split
      next hm =>
        rw [← hm]
        omega
      next => rfl
    · intro lk _ hlinks
      refine ⟨trivial, ?_⟩
      simpa [Thread.linksNow, hpc] using hlinks

variable {info : LockInfo}

theorem Inv.readLinks (h : Inv s) (prev : Option M)
    (hpc : (s.thread t).pc = .readPrev m info ∨ (s.thread t).pc = .readNext m info prev)
    (hstep : s.goRelease true t (s.thread t).pc = some s') : Inv s' := by
  have hlocal := h.local' t
  have hm_linked : (s.thread t).Linked m := by
    rcases hpc with hpc | hpc <;> simp [Thread.Linked, Thread.counted, Pc.pending, Pc.target, hpc]
  have hpcOk := hlocal.pc
  rw [Thread.PcOk] at hpcOk
  rcases hpc with hpc | hpc
  · rw [hpc] at hstep hpcOk
    cases hstep
    refine h.goto (.readNext m info (s.links.prev m)) hpcOk
        (stays_of hpc rfl rfl rfl (fun _ => rfl) (fun _ => rfl) (by rintro _ ⟨⟩)) ?_
    · intro lk _ hlinks
      simp only [Thread.linksNow, hpc] at hlinks ⊢
      exact ⟨(hlinks m hm_linked).2, hlinks⟩
  · rw [hpc] at hstep hpcOk
    cases hstep
    refine h.goto (.storePrevNext m info prev (s.links.next m)) hpcOk
        (stays_of hpc rfl rfl rfl (fun _ => rfl) (fun _ => rfl) (by rintro _ ⟨⟩)) ?_
    · intro lk hread hlinks
      rw [hpc] at hread
      simp only [Thread.linksNow, hpc] at hlinks ⊢
      exact ⟨⟨hread, (hlinks m hm_linked).1⟩, hlinks⟩

theorem Inv.neighbours (h : Inv s) (hm_linked : (s.thread t).Linked m) (prev next : Option M)
    (hread : ∀ lk : Links M, (s.thread t).pc.LinksRead lk → prev = lk.prev m ∧ next = lk.next m)
    (m' : M) (hm' : ¬ (s.thread t).Linked m') : prev ≠ some m' ∧ next ≠ some m' := by
  obtain ⟨lk, ms, hlist, hnodup, hmem, hread', -⟩ := (h.local' t).list
  obtain ⟨rfl, rfl⟩ := hread lk hread'
  obtain ⟨hprev, hnext, -⟩ := hlist.neighbours_mem hnodup ((hmem m).mpr hm_linked)
  exact ⟨fun heq => hm' ((hmem m').mp (hprev m' heq)), fun heq => hm' ((hmem m').mp (hnext m' heq))⟩

theorem Inv.storeNeighbours (h : Inv s) {prev next : Option M}
    (hpc : (s.thread t).pc = .storePrevNext m info prev next ∨
      (s.thread t).pc = .storeNextPrev m info prev next)
    (hstep : s.goRelease true t (s.thread t).pc = some s') : Inv s' := by
  have hlocal := h.local' t
  have hm_linked : (s.thread t).Linked m := by
    rcases hpc with hpc | hpc <;> simp [Thread.Linked, Thread.counted, Pc.pending, Pc.target, hpc]
  have hneighbours := fun m' => h.neighbours hm_linked prev next
    (fun lk hread => by rcases hpc with hpc | hpc <;> rw [hpc] at hread <;> exact hread) m'
  have hpcOk := hlocal.pc
  rw [Thread.PcOk] at hpcOk
  rcases hpc with hpc | hpc
  · rw [hpc] at hstep hpcOk
    cases hstep
    refine h.relink (.storeNextPrev m info prev next) hpcOk
        (stays_of hpc rfl rfl rfl (fun _ => rfl) (fun _ => rfl) (by rintro _ ⟨⟩))
        (fun m' hm' => ?_) fun lk ms _ _ _ hread hlinks =>
        ⟨?_, ?_⟩
    · split
      · exact ⟨rfl, rfl⟩
      · exact setNextOf_of_ne s.links _ (hneighbours m' hm').1
    · rw [hpc] at hread
      exact hread
    · intro m' hm'
      have hnow := hlinks m' hm'
      simp only [Thread.linksNow, hpc] at hnow ⊢
      split
      · exact hnow
      · exact hnow.setNextOf _ _
  · rw [hpc] at hstep hpcOk
    cases hstep
    refine h.relink (.clearPrev m info next) hpcOk
        (stays_of hpc rfl rfl rfl (fun _ => rfl) (fun _ => rfl) (by rintro _ ⟨⟩))
        (fun m' hm' => ?_) fun lk ms _ _ _ hread hlinks =>
        ⟨?_, ?_⟩
    · split
      · exact ⟨rfl, rfl⟩
      · exact setPrevOf_of_ne s.links _ (hneighbours m' hm').2
    · rw [hpc] at hread
      exact hread.2
    · rw [hpc] at hread
      obtain ⟨rfl, rfl⟩ := hread
      intro m' hm'
      have hnow := hlinks m' hm'
      simp only [Thread.linksNow, hpc] at hnow ⊢
      by_cases heq : lk.prev m = lk.next m
      · rw [if_pos heq] at hnow ⊢
        rw [if_pos heq]
        exact hnow
      · rw [if_neg heq] at hnow ⊢
        rw [if_neg heq]
        exact hnow.setPrevOf _ _

theorem Inv.clearPrev (h : Inv s) {next : Option M}
    (hpc : (s.thread t).pc = .clearPrev m info next)
    (hstep : s.goRelease true t (.clearPrev m info next) = some s') : Inv s' := by
  cases hstep
  have hm_linked : (s.thread t).Linked m := by
    simp [Thread.Linked, Thread.counted, Pc.pending, Pc.target, hpc]
  have hpcOk := (h.local' t).pc
  rw [Thread.PcOk, hpc] at hpcOk
  refine h.relink (.clearNext m info next) hpcOk
      (stays_of hpc rfl rfl rfl (fun _ => rfl) (fun _ => rfl) (by rintro _ ⟨⟩))
      (fun m' hm' => ?_) fun lk ms _ _ _ hread hlinks =>
      ⟨?_, ?_⟩
  · refine setPrev_of_ne s.links _ ?_
    rintro rfl
    exact hm' hm_linked
  · rw [hpc] at hread
    exact hread
  · intro m' hm'
    have hnow := hlinks m' hm'
    simp only [Thread.linksNow, hpc] at hnow ⊢
    exact hnow.setPrev none

theorem Inv.clearNext (h : Inv s) {next : Option M}
    (hpc : (s.thread t).pc = .clearNext m info next)
    (hstep : s.goRelease true t (.clearNext m info next) = some s') : Inv s' := by
  have hlocal := h.local' t
  obtain ⟨hdepth, hinfo⟩ : (s.thread t).depth m = 0 ∧ info = ⟨noOwner, 0⟩ := by
    have := hlocal.pc
    rwa [Thread.PcOk, hpc] at this
  have hm_owned : (s.thread t).Owns m := .inr ⟨by rw [hpc]; rfl, by rw [hpc]; rfl⟩
  have hlinked_old : ∀ m', (s.thread t).Linked m' ↔ 0 < (s.thread t).depth m' ∨ m' = m := by
    intro m'
    by_cases hm : m' = m
    · simp [Thread.Linked, Thread.counted, Pc.pending, Pc.target, hpc, hm]
    · simp [Thread.Linked, Thread.counted, Pc.pending, Pc.target, hpc, hm, Ne.symm hm]
  obtain ⟨lk, ms, hlist, hnodup, hmem, hread, hlinks⟩ := hlocal.list
  rw [hpc] at hread
  obtain rfl : next = lk.next m := hread
  have hm_mem : m ∈ ms := (hmem m).mpr ((hlinked_old m).mpr (.inr rfl))
  obtain ⟨-, -, hnext_ne⟩ := hlist.neighbours_mem hnodup hm_mem
  -- the second look at `exclusive_locks` never finds the mutex
  have hexcl : (if (if (s.thread t).exclusiveLocks = some m then lk.next m
        else (s.thread t).exclusiveLocks) = some m then none
      else if (s.thread t).exclusiveLocks = some m then lk.next m
        else (s.thread t).exclusiveLocks) =
      if (s.thread t).exclusiveLocks = some m then lk.next m else (s.thread t).exclusiveLocks := by
    refine if_neg ?_
    split
    · exact hnext_ne
    next hne => exact hne
  simp only [State.goRelease, if_true, hexcl] at hstep
  cases hstep
  let th' : Thread M := { s.thread t with
    exclusiveLocks := if (s.thread t).exclusiveLocks = some m then lk.next m
      else (s.thread t).exclusiveLocks
    pc := .storeReleased m info true }
  let s₁ : State M := { s with links := s.links.setNext m none }
  let s₂ : State M := s₁.setMutex m { s.mutex m with logs := [] }
  have hself : (s₂.setThread t th').thread t = th' := setThread_self ..
  have hcounted : ∀ m', th'.counted m' = (s.thread t).counted m' := by
    intro m'
    simp [th', Thread.counted, Pc.pending, Pc.target, hpc]
  have howns : ∀ m', th'.Owns m' ↔ (s.thread t).Owns m' := by
    intro m'
    simp [th', Thread.Owns, Pc.ownsTarget, Pc.target, hpc]
  have hlinked : ∀ m', th'.Linked m' ↔ m' ≠ m ∧ (s.thread t).Linked m' := by
    intro m'
    rw [hlinked_old]
    show 0 < (s.thread t).depth m' ↔ _
    by_cases hm : m' = m
    · rw [hm]
      simp [hdepth]
    · simp [hm]
  have hmutex : ∀ m', m' ≠ m → (s₂.setThread t th').mutex m' = s.mutex m' :=
    fun m' hm' => setMutex_of_ne s₁ _ hm'
  have hmutex_m : (s₂.setThread t th').mutex m = { s.mutex m with logs := [] } := setMutex_self ..
  have hother_links : ∀ m', m' ≠ m → SameLinks s.links s₁.links m' :=
    fun m' hm' => setNext_of_ne s.links none hm'
  refine h.keep (t := t) (fun u hu => setThread_of_ne s₂ _ hu)
    (fun m' => by rw [hself]; exact howns m')
    (fun m' hm' => ?_) (fun m' _ => ?_) (fun m' => by rw [hself]; rintro ⟨⟩)
    ⟨?_, ?_, ?_, ?_, ?_, ?_⟩
  · have hne : m' ≠ m := by
      rintro rfl
      exact hm' hm_owned
    refine ⟨?_, ?_, ?_, hother_links m' hne⟩
    · rw [hmutex m' hne]
    · rw [hmutex m' hne]
    · rw [hmutex m' hne]
  · by_cases hne : m' = m
    · rw [hne, hmutex_m]
    · rw [hmutex m' hne]
  · rw [hself]
    show info = infoOf t ((s.thread t).depth m) ∧ (true = true ↔ (s.thread t).depth m = 0)
    rw [hdepth, hinfo]
    exact ⟨rfl, by simp⟩
  · rw [hself]
    intro m'
    rw [hcounted]
    exact hlocal.depth m'
  · rw [hself]
    intro m' hm'
    rw [hcounted, ← hlocal.data m' ((howns m').mp hm')]
    by_cases hne : m' = m
    · rw [hne, hmutex_m]
    · rw [hmutex m' hne]
  · rw [hself]
    intro m' hm'
    obtain ⟨hne, hm'⟩ := (hlinked m').mp hm'
    rw [hcounted, hmutex m' hne]
    exact hlocal.logs m' hm'
  · rw [hself]
    intro m' hm' hnot
    show s₁.links.next m' = none ∧ s₁.links.prev m' = none
    by_cases hne : m' = m
    · rw [hne]
      have hnow := hlinks m hm_mem
      simp only [Thread.linksNow, hpc] at hnow
      refine ⟨Function.update_self .., ?_⟩
      exact hnow.2.trans (Function.update_self ..)
    · obtain ⟨hnext, hprev⟩ := hother_links m' hne
      rw [hnext, hprev]
      exact hlocal.unlinked m' ((howns m').mp hm') fun hold => hnot ((hlinked m').mpr ⟨hne, hold⟩)
  · rw [hself]
    refine ⟨_, ms.erase m, hlist.unlink hnodup hm_mem, hnodup.erase m, fun m' => ?_, trivial,
      fun m' hm' => ?_⟩
    · rw [hlinked, hnodup.mem_erase_iff, hmem]
    · have hm'_mem := ((hnodup.mem_erase_iff).mp hm').2
      have hnow := hlinks m' hm'_mem
      simp only [Thread.linksNow, hpc] at hnow
      exact hnow.setNext none

theorem Inv.storeReleased (h : Inv s) {unlock : Bool}
    (hpc : (s.thread t).pc = .storeReleased m info unlock)
    (hstep : s.goRelease true t (.storeReleased m info unlock) = some s') : Inv s' := by
  cases hstep
  have hlocal := h.local' t
  obtain ⟨hinfo, hunlock⟩ : info = infoOf t ((s.thread t).depth m) ∧
      (unlock = true ↔ (s.thread t).depth m = 0) := by
    have := hlocal.pc
    rwa [Thread.PcOk, hpc] at this
  have hm_owned : (s.thread t).Owns m := .inr ⟨by rw [hpc]; rfl, by rw [hpc]; rfl⟩
  let pc' : Pc M := if unlock then .storeFutex m else .returned m false
  let th' : Thread M := { s.thread t with pc := pc' }
  let mu : Mutex := { s.mutex m with data := info }
  have hself : ((s.setMutex m mu).goto t pc').thread t = th' := setThread_self ..
  have hcounted : ∀ m', (s.thread t).counted m' =
      (s.thread t).depth m' + if m' = m then 1 else 0 := by
    intro m'
    simp [Thread.counted, Pc.pending, Pc.target, hpc, eq_comm]
  have hcounted' : ∀ m', th'.counted m' = (s.thread t).depth m' := by
    intro m'
    cases unlock <;> simp [th', pc', Thread.counted, Pc.pending]
  have howns : ∀ m', th'.Owns m' ↔ (s.thread t).Owns m' := by
    intro m'
    cases unlock with
    | true => simp [th', pc', Thread.Owns, Pc.ownsTarget, Pc.target, hpc]
    | false =>
      have hpos : 0 < (s.thread t).depth m := by
        have : ¬ (s.thread t).depth m = 0 := mt hunlock.mpr Bool.false_ne_true
        omega
      simp only [th', pc', Thread.Owns, Pc.ownsTarget, Pc.target, hpc, Bool.false_eq_true,
        if_false, false_and, or_false, true_and, Option.some.injEq]
      refine ⟨.inl, fun hor => ?_⟩
      rcases hor with hor | rfl
      · exact hor
      · exact hpos
  have hlinked : ∀ m', th'.Linked m' ↔ (s.thread t).Linked m' := by
    intro m'
    have hold : (s.thread t).Linked m' ↔ 0 < (s.thread t).depth m' := by
      rw [Thread.Linked, hpc]
    rw [hold, ← hcounted']
    cases unlock <;> simp [th', pc', Thread.Linked]
  have hmutex : ∀ m', m' ≠ m → ((s.setMutex m mu).goto t pc').mutex m' = s.mutex m' :=
    fun m' hm' => setMutex_of_ne s mu hm'
  have hmutex_m : ((s.setMutex m mu).goto t pc').mutex m = mu := setMutex_self ..
  refine h.keep (t := t) (fun u hu => setThread_of_ne _ _ hu)
    (fun m' => by rw [hself]; exact howns m')
    (fun m' hm' => ?_) (fun m' _ => ?_) (fun m' => ?_) ⟨?_, ?_, ?_, ?_, ?_, ?_⟩
  · have hne : m' ≠ m := by
      rintro rfl
      exact hm' hm_owned
    refine ⟨?_, ?_, ?_, rfl, rfl⟩
    · rw [hmutex m' hne]
    · rw [hmutex m' hne]
    · rw [hmutex m' hne]
  · by_cases hne : m' = m
    · rw [hne, hmutex_m]
    · rw [hmutex m' hne]
  · rw [hself]
    cases unlock <;> rintro ⟨⟩
  · rw [hself]
    cases unlock with
    | true => exact hunlock.mp rfl
    | false => exact hunlock
  · rw [hself]
    intro m'
    have hold := hlocal.depth m'
    rw [hcounted] at hold
    rw [hcounted']
    omega
  · rw [hself]
    intro m' hm'
    rw [hcounted']
    by_cases hne : m' = m
    · rw [hne, hmutex_m]
      exact hinfo
    · rw [hmutex m' hne, hlocal.data m' ((howns m').mp hm'), hcounted, if_neg hne]
      rfl
  · rw [hself]
    intro m' hm'
    have hold := hlocal.logs m' ((hlinked m').mp hm')
    rw [hcounted] at hold
    have hlogs : (((s.setMutex m mu).goto t pc').mutex m').logs = (s.mutex m').logs := by
      by_cases hne : m' = m
      · rw [hne, hmutex_m]
      · rw [hmutex m' hne]
    rw [hcounted', hlogs]
    omega
  · rw [hself]
    intro m' hm' hnot
    exact hlocal.unlinked m' ((howns m').mp hm') (mt (hlinked m').mpr hnot)
  · rw [hself]
    obtain ⟨lk, ms, hlist, hnodup, hmem, -, hlinks⟩ := hlocal.list
    refine ⟨lk, ms, hlist, hnodup, fun m' => (hmem m').trans (hlinked m').symm, ?_, ?_⟩
    · cases unlock <;> trivial
    · intro m' hm'
      have hnow := hlinks m' hm'
      simp only [Thread.linksNow, hpc] at hnow
      show SameLinks (th'.linksNow lk) s.links m'
      cases unlock <;> exact hnow

theorem Inv.storeFutex (h : Inv s) (hpc : (s.thread t).pc = .storeFutex m)
    (hstep : s.goUnlock t (.storeFutex m) = some s') : Inv s' := by
  cases hstep
  have hlocal := h.local' t
  have hdepth : (s.thread t).depth m = 0 := by
    have := hlocal.pc
    rwa [Thread.PcOk, hpc] at this
  have hm_owned : (s.thread t).Owns m := .inr ⟨by rw [hpc]; rfl, by rw [hpc]; rfl⟩
  have hcounted : ∀ m', (s.thread t).counted m' = (s.thread t).depth m' := by
    intro m'
    simp [Thread.counted, Pc.pending, hpc]
  have hlinked_iff : ∀ m', (s.thread t).Linked m' ↔ 0 < (s.thread t).depth m' := by
    intro m'
    simp [Thread.Linked, hpc, hcounted]
  have hm_unlinked : ¬ (s.thread t).Linked m := by
    rw [hlinked_iff, hdepth]
    exact lt_irrefl 0
  let mu : Mutex := { s.mutex m with futex := 0 }
  let th' : Thread M := { s.thread t with pc := .assertFutex m }
  have hspec := quiet_spec th' rfl
  have hself : ((s.setMutex m mu).goto t (.assertFutex m)).thread t = th' := setThread_self ..
  have hmutex : ∀ m', m' ≠ m → ((s.setMutex m mu).goto t (.assertFutex m)).mutex m' = s.mutex m' :=
    fun m' hm' => setMutex_of_ne s mu hm'
  have hmutex_m : ((s.setMutex m mu).goto t (.assertFutex m)).mutex m = mu := setMutex_self ..
  have howns : ∀ m', th'.Owns m' ↔ m' ≠ m ∧ (s.thread t).Owns m' := by
    intro m'
    rw [(hspec m').1]
    show 0 < (s.thread t).depth m' ↔ _
    by_cases hm : m' = m
    · simp [hm, hdepth]
    · simp [Thread.Owns, Pc.ownsTarget, Pc.target, hpc, hm, Ne.symm hm]
  have hsame : ∀ m', (((s.setMutex m mu).goto t (.assertFutex m)).mutex m').data =
        (s.mutex m').data ∧
      (((s.setMutex m mu).goto t (.assertFutex m)).mutex m').logs = (s.mutex m').logs := by
    intro m'
    by_cases hne : m' = m
    · rw [hne, hmutex_m]
      exact ⟨rfl, rfl⟩
    · rw [hmutex m' hne]
      exact ⟨rfl, rfl⟩
  refine h.release (t := t) (m := m) (fun u hu => setThread_of_ne _ _ hu) hm_owned
    (fun m' => by rw [hself]; exact howns m')
    (fun m' hm' => ⟨(hsame m').1, (hsame m').2, by rw [hmutex m' hm'], rfl, rfl⟩) ?_
    (fun m' => by rw [hself]; intro heq; cases heq; rfl) ?_
  · refine ⟨by rw [hmutex_m], ?_, hlocal.unlinked m hm_owned hm_unlinked⟩
    rw [(hsame m).1, hlocal.data m hm_owned, hcounted, hdepth]
    rfl
  · refine hlocal.move hself rfl hdepth (fun m' hm' => ((howns m').mp hm').2) (fun m' => ?_)
      (fun m' => ?_) (fun m' _ => ⟨(hsame m').1, Nat.le_of_eq (by rw [(hsame m').2]), rfl, rfl⟩)
      fun lk _ hnow => ⟨trivial, ?_⟩
    · rw [(hspec m').2.1, hcounted]
    · rw [(hspec m').2.2.1, hlinked_iff]
    · simpa [th', Thread.linksNow, hpc] using hnow

theorem Inv.goUnlock (h : Inv s) (hstep : s.goUnlock t (s.thread t).pc = some s') : Inv s' := by
  have hpcOk := (h.local' t).pc
  rw [Thread.PcOk] at hpcOk
  cases hpc : (s.thread t).pc with
  | storeFutex m =>
    rw [hpc] at hstep
    exact h.storeFutex hpc hstep
  | assertFutex m =>
    rw [hpc] at hstep hpcOk
    simp only [State.goUnlock] at hstep
    rw [if_pos (h.free m (h.asserting t m hpc)).1] at hstep
    cases hstep
    exact h.quiet (.readWake m) (by rw [hpc]; rfl) rfl (setThread_self ..)
      (fun _ hu => setThread_of_ne _ _ hu) rfl (fun _ => ⟨rfl, rfl, rfl⟩) hpcOk
        fun _ hp => by cases hp
  | readWake m =>
    rw [hpc] at hstep hpcOk
    cases hstep
    exact h.quiet (.returned m true) (by rw [hpc]; rfl) rfl (setThread_self ..)
      (fun _ hu => setThread_of_ne _ _ hu) rfl (fun _ => ⟨rfl, rfl, rfl⟩)
      ⟨fun _ => hpcOk, fun _ => rfl⟩ fun _ hp => by cases hp
  | returned m result =>
    rw [hpc] at hstep
    cases hstep
    exact h.quiet .idle (by rw [hpc]; rfl) rfl (setThread_self ..)
      (fun _ hu => setThread_of_ne _ _ hu) rfl (fun _ => ⟨rfl, rfl, rfl⟩) trivial
        fun _ hp => by cases hp
  | _ =>
    rw [hpc] at hstep
    cases hstep

end N00b.Mt
