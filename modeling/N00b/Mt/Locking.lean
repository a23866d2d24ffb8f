import N00b.Mt.Invariant

/-!
# Locking a mutex

Each step of `n00b_mutex_lock` keeps the invariant: the spinning and waiting, the acquisition of the
futex, and the accounting, which puts the mutex in front of the list of the thread before it counts
the lock.

## Main results

* `Inv.acquire`, `Inv.linkPrev`, `Inv.linkNext`, `Inv.storeAcquired`, `Inv.ensureOwnership`: the steps
  of the accounting, in their order.
-/

namespace N00b.Mt

open N00b.Lib

variable {M : Type} [DecidableEq M] {s s' : State M} {t u : ThreadId} {m : M} {th : Thread M}

/-! ## The steps of a lock -/

theorem Inv.goLock (h : Inv s)
    (hasserting : ∀ m, TakesFutex s t m → ∀ u, (s.thread u).pc ≠ .assertFutex m)
    (hstep : s.goLock t (s.thread t).pc = some s') : Inv s' := by
  have hpcOk := (h.local' t).pc
  rw [Thread.PcOk] at hpcOk
  cases hpc : (s.thread t).pc with
  | lockStart m =>
    rw [hpc] at hstep hpcOk
    simp only [State.goLock] at hstep
    split at hstep
    next howner =>
      cases hstep
      obtain ⟨-, hcounted⟩ := h.owner_iff.mp howner
      have hdepth : 0 < (s.thread t).depth m := by
        simpa [Thread.counted, Pc.pending, hpc] using hcounted
      refine h.goto _ hpcOk ⟨fun m' => ?_, fun m' => ?_, fun m' => ?_, by rintro _ ⟨⟩⟩ ?_
      · simp only [Thread.Owns, hpc, Pc.ownsTarget, Pc.target, Bool.false_eq_true, false_and,
          or_false, true_and, Option.some.injEq]
        refine ⟨fun hor => ?_, .inl⟩
        rcases hor with hor | rfl
        · exact hor
        · exact hdepth
      · simp [Thread.counted, Pc.pending, hpc]
      · simp [Thread.Linked, Thread.counted, Pc.pending, hpc]
      · intro lk _ hlinks
        refine ⟨trivial, ?_⟩
        simpa [Thread.linksNow, hpc] using hlinks
    next howner =>
      cases hstep
      have hdepth : (s.thread t).depth m = 0 := by
        by_contra hpos
        refine howner (h.owner_iff.mpr ⟨.inl (Nat.pos_of_ne_zero hpos), ?_⟩)
        unfold Thread.counted
        omega
      exact h.quiet (.spin m 0) (by rw [hpc]; rfl) rfl (setThread_self ..)
        (fun _ hu => setThread_of_ne s _ hu) rfl (fun _ => ⟨rfl, rfl, rfl⟩) hdepth
          fun _ hp => by cases hp
  | spin m i =>
    rw [hpc] at hstep hpcOk
    simp only [State.goLock] at hstep
    split at hstep
    next hi =>
      split at hstep
      next hfutex =>
        cases hstep
        exact h.takes hfutex (hasserting m ⟨hfutex, .inl ⟨i, hi, hpc⟩⟩) (.inl ⟨i, hpc⟩) (.inl rfl)
      next hfutex =>
        cases hstep
        exact h.quiet (.spin m (i + 1)) (by rw [hpc]; rfl) rfl (setThread_self ..)
          (fun _ hu => setThread_of_ne _ _ hu) rfl
          (setMutex_same _ rfl (h.fetchOr_same hfutex) rfl) hpcOk fun _ hp => by cases hp
    next hi =>
      cases hstep
      exact h.quiet (.waitFutex m) (by rw [hpc]; rfl) rfl (setThread_self ..)
        (fun _ hu => setThread_of_ne _ _ hu) rfl (setMutex_same _ rfl rfl rfl) hpcOk
          fun _ hp => by cases hp
  | waitFutex m =>
    rw [hpc] at hstep hpcOk
    simp only [State.goLock] at hstep
    split at hstep
    · cases hstep
      exact h.quiet (.tryTake m) (by rw [hpc]; rfl) rfl (setThread_self ..)
        (fun _ hu => setThread_of_ne _ _ hu) rfl (fun _ => ⟨rfl, rfl, rfl⟩) hpcOk
          fun _ hp => by cases hp
    · cases hstep
      exact h
  | tryTake m =>
    rw [hpc] at hstep hpcOk
    simp only [State.goLock] at hstep
    split at hstep
    next hfutex =>
      cases hstep
      exact h.takes hfutex (hasserting m ⟨hfutex, .inr hpc⟩) (.inr hpc) (.inr rfl)
    next hfutex =>
      cases hstep
      exact h.quiet (.waitFutex m) (by rw [hpc]; rfl) rfl (setThread_self ..)
        (fun _ hu => setThread_of_ne _ _ hu) rfl
        (setMutex_same _ rfl (h.fetchOr_same hfutex) rfl) hpcOk fun _ hp => by cases hp
  | leaveWait m =>
    rw [hpc] at hstep hpcOk
    simp only [State.goLock] at hstep
    cases hstep
    refine h.move (.acquire m) (setThread_self ..) (fun _ hu => setThread_of_ne _ _ hu) rfl
      (fun m' => ?_) ?_ (stays_of hpc rfl rfl rfl (fun _ => rfl) (fun _ => rfl) (by rintro _ ⟨⟩)) ?_
    · obtain ⟨hdata, hfutex, hlogs⟩ := setMutex_same (s := s) (m := m)
        { s.mutex m with shouldWake := ((s.mutex m).shouldWake + 2 ^ 32 - 1) % 2 ^ 32 } rfl
        rfl rfl m'
      exact ⟨hdata, hfutex, .inl hlogs⟩
    · show (s.thread t).depth m < 2 ^ 15 - 1
      have hdepth : (s.thread t).depth m = 0 := hpcOk
      omega
    · intro lk _ hlinks
      refine ⟨trivial, ?_⟩
      simpa [Thread.linksNow, hpc] using hlinks
  | _ =>
    rw [hpc] at hstep
    cases hstep

theorem toInt16_of_lt {n : Int} (hn : 0 ≤ n) (hlt : n < 32768) : toInt16 n = n := by
  have hpow : ((2 ^ 16 : Nat) : Int) = 65536 := by norm_num
  unfold toInt16
  rw [Int.bmod_eq_of_le]
  · omega
  · omega

theorem infoOf_pos (t : ThreadId) {n : Nat} (hn : 0 < n) : infoOf t n = ⟨t, n⟩ := by
  rw [infoOf, if_neg (by omega)]

theorem Inv.acquire (h : Inv s) (hpc : (s.thread t).pc = .acquire m)
    (hstep : s.goAcquire true t (.acquire m) = some s') : Inv s' := by
  have hlocal := h.local' t
  have hbound : (s.thread t).depth m < 2 ^ 15 - 1 := by
    have := hlocal.pc
    rwa [Thread.PcOk, hpc] at this
  have howns : (s.thread t).Owns m := .inr ⟨by rw [hpc]; rfl, by rw [hpc]; rfl⟩
  have hdata := hlocal.data m howns
  have hcounted : (s.thread t).counted m = (s.thread t).depth m := by
    simp [Thread.counted, Pc.pending, hpc]
  rw [hcounted] at hdata
  simp only [State.goAcquire] at hstep
  split at hstep
  next howner =>
    have hdepth : 0 < (s.thread t).depth m := hcounted ▸ (h.owner_iff.mp howner).2
    rw [infoOf_pos t hdepth] at hdata
    have hlinked : (s.thread t).Linked m := by
      simpa [Thread.Linked, hpc, hcounted] using hdepth
    have hlogs := hlocal.logs m hlinked
    rw [hcounted] at hlogs
    have hnesting : (s.mutex m).data.nesting = (s.thread t).depth m := by rw [hdata]
    rw [if_neg (by simp [hnesting]; omega)] at hstep
    cases hstep
    have hnext : toInt16 ((s.mutex m).data.nesting + 1) = (s.thread t).depth m + 1 := by
      rw [hnesting]
      exact toInt16_of_lt (by omega) (by omega)
    rw [hnext, howner]
    refine h.goto _ ⟨hbound, rfl⟩ ⟨fun m' => ?_, fun m' => ?_, fun m' => ?_, by rintro _ ⟨⟩⟩ ?_
    · simp [Thread.Owns, Pc.ownsTarget, Pc.target, hpc]
    · simp [Thread.counted, Pc.pending, hpc]
    · simp only [Thread.Linked, Thread.counted, Pc.pending, hpc, Bool.false_eq_true, false_and,
        if_false, Nat.add_zero]
      refine ⟨fun hor => ?_, .inl⟩
      rcases hor with hor | rfl
      · exact hor
      · exact hdepth
    · intro lk _ hlinks
      refine ⟨trivial, ?_⟩
      simpa [Thread.linksNow, hpc] using hlinks
  next howner =>
    have hdepth : (s.thread t).depth m = 0 := by
      by_contra hpos
      exact howner (h.owner_iff.mpr ⟨howns, by omega⟩)
    rw [hdepth] at hdata
    rw [if_neg (by rw [hdata]; simp [infoOf])] at hstep
    split at hstep
    next topHeld htop =>
      cases hstep
      refine h.goto _ ⟨hdepth, rfl, htop⟩
          (stays_of hpc rfl rfl rfl (fun _ => rfl) (fun _ => rfl) (by rintro _ ⟨⟩)) ?_
      · intro lk _ hlinks
        refine ⟨trivial, ?_⟩
        simpa [Thread.linksNow, hpc] using hlinks
    next htop =>
      cases hstep
      refine h.goto _ ⟨hdepth, rfl⟩
          (stays_of hpc rfl rfl rfl (fun _ => rfl) (fun _ => rfl) (by rintro _ ⟨⟩)) ?_
      · intro lk _ hlinks
        refine ⟨trivial, ?_⟩
        simpa [Thread.linksNow, hpc, htop, Links.setPrevOf] using hlinks

theorem Inv.linkPrev (h : Inv s) {info : LockInfo} {topHeld : M}
    (hpc : (s.thread t).pc = .linkPrev m info topHeld)
    (hstep : s.goAcquire true t (.linkPrev m info topHeld) = some s') : Inv s' := by
  cases hstep
  have hlocal := h.local' t
  obtain ⟨hdepth, hinfo, htop⟩ : (s.thread t).depth m = 0 ∧ info = ⟨t, 1⟩ ∧
      (s.thread t).exclusiveLocks = some topHeld := by
    have := hlocal.pc
    rwa [Thread.PcOk, hpc] at this
  have htop_linked : (s.thread t).Linked topHeld := by
    obtain ⟨lk, ms, hlist, -, hmem, -⟩ := hlocal.list
    have hhead := hlist.head_eq
    rw [htop] at hhead
    exact (hmem topHeld).mp (List.mem_of_mem_head? hhead.symm)
  refine h.relink (.linkNext m info) ⟨hdepth, hinfo⟩
      (stays_of hpc rfl rfl rfl (fun _ => rfl) (fun _ => rfl) (by rintro _ ⟨⟩))
      (fun m' hm' => ?_) fun lk ms _ _ _ _ hlinks =>
      ⟨trivial, ?_⟩
  · refine setPrev_of_ne s.links _ ?_
    rintro rfl
    exact hm' htop_linked
  · intro m' hm'
    have hnow := hlinks m' hm'
    simp only [Thread.linksNow, hpc] at hnow
    show SameLinks (lk.setPrevOf (s.thread t).exclusiveLocks (some m)) _ m'
    rw [htop]
    exact hnow.setPrev (some m)

theorem Inv.linkNext (h : Inv s) {info : LockInfo} (hpc : (s.thread t).pc = .linkNext m info)
    (hstep : s.goAcquire true t (.linkNext m info) = some s') : Inv s' := by
  cases hstep
  have hlocal := h.local' t
  obtain ⟨hdepth, hinfo⟩ : (s.thread t).depth m = 0 ∧ info = ⟨t, 1⟩ := by
    have := hlocal.pc
    rwa [Thread.PcOk, hpc] at this
  have hm_owned : (s.thread t).Owns m := .inr ⟨by rw [hpc]; rfl, by rw [hpc]; rfl⟩
  have hcounted_m : (s.thread t).counted m = 0 := by
    simp [Thread.counted, Pc.pending, hpc, hdepth]
  have hm_unlinked : ¬ (s.thread t).Linked m := by
    simp [Thread.Linked, hpc, hcounted_m]
  obtain ⟨lk, ms, hlist, hnodup, hmem, -, hlinks⟩ := hlocal.list
  have hm_notin : m ∉ ms := mt (hmem m).mp hm_unlinked
  obtain ⟨-, hm_prev⟩ := hlocal.unlinked m hm_owned hm_unlinked
  let th' : Thread M :=
    { s.thread t with exclusiveLocks := some m, pc := .storeAcquired m info }
  let s₁ : State M := { s with links := s.links.setNext m (s.thread t).exclusiveLocks }
  have hself : (s₁.setThread t th').thread t = th' := setThread_self ..
  have hcounted : ∀ m', th'.counted m' = (s.thread t).counted m' := by
    intro m'
    simp [th', Thread.counted, Pc.pending, hpc]
  have hlinked : ∀ m', th'.Linked m' ↔ m' = m ∨ (s.thread t).Linked m' := by
    intro m'
    simp [th', Thread.Linked, Thread.counted, Pc.pending, hpc, or_comm]
  have howns : ∀ m', th'.Owns m' ↔ (s.thread t).Owns m' := by
    intro m'
    simp [th', Thread.Owns, Pc.ownsTarget, Pc.target, hpc]
  have hother_links : ∀ m', m' ≠ m → SameLinks s.links s₁.links m' :=
    fun m' hm' => setNext_of_ne s.links _ hm'
  refine h.keep (t := t) (fun u hu => setThread_of_ne s₁ _ hu)
    (fun m' => by rw [hself]; exact howns m')
    (fun m' hm' => ⟨rfl, rfl, rfl, hother_links m' ?_⟩) (fun _ _ => rfl)
    (fun m' => by rw [hself]; rintro ⟨⟩) ⟨?_, ?_, ?_, ?_, ?_, ?_⟩
  · rintro rfl
    exact hm' hm_owned
  · rw [hself]
    show (s.thread t).depth m < 2 ^ 15 - 1 ∧ info = ⟨t, (s.thread t).depth m + 1⟩
    rw [hdepth, hinfo]
    exact ⟨by omega, rfl⟩
  · rw [hself]
    intro m'
    rw [hcounted]
    exact hlocal.depth m'
  · rw [hself]
    intro m' hm'
    rw [hcounted]
    exact hlocal.data m' ((howns m').mp hm')
  · rw [hself]
    intro m' hm'
    rw [hcounted]
    rcases (hlinked m').mp hm' with rfl | hm'
    · rw [hcounted_m]
      exact Nat.zero_le _
    · exact hlocal.logs m' hm'
  · rw [hself]
    intro m' hm' hnot
    obtain ⟨hne, hnot'⟩ := not_or.mp (mt (hlinked m').mpr hnot)
    obtain ⟨hnext, hprev⟩ := hother_links m' hne
    show s₁.links.next m' = none ∧ s₁.links.prev m' = none
    rw [hnext, hprev]
    exact hlocal.unlinked m' ((howns m').mp hm') hnot'
  · rw [hself]
    -- the links before the push, with the null pointer that `m` has in front
    let lk₀ := lk.setPrev m none
    have hne : ∀ m' ∈ ms, m' ≠ m := fun m' hm' heq => hm_notin (heq ▸ hm')
    have hlist₀ : lk₀.IsList none (s.thread t).exclusiveLocks ms :=
      hlist.congr fun m' hm' => setPrev_of_ne lk none (hne m' hm')
    have hpush := hlist₀.push hm_notin (Function.update_self ..) hnodup
    refine ⟨_, m :: ms, hpush, List.nodup_cons.mpr ⟨hm_notin, hnodup⟩, fun m' => ?_, trivial, ?_⟩
    · rw [hlinked, List.mem_cons, hmem]
    · intro m' hm'
      show SameLinks ((lk₀.setPrevOf (s.thread t).exclusiveLocks (some m)).setNext m
        (s.thread t).exclusiveLocks) (s.links.setNext m (s.thread t).exclusiveLocks) m'
      rcases List.mem_cons.mp hm' with rfl | hm'
      · refine ⟨by simp [Links.setNext], ?_⟩
        exact hm_prev.trans hpush.2.1.symm
      · refine SameLinks.setNext ?_ _
        have hnow := hlinks m' hm'
        simp only [Thread.linksNow, hpc] at hnow
        refine ⟨?_, ?_⟩
        · rw [hnow.1, Links.next_setPrevOf, Links.next_setPrevOf]
          rfl
        · rw [hnow.2, Links.prev_setPrevOf, Links.prev_setPrevOf,
            show lk₀.prev m' = lk.prev m' from (setPrev_of_ne lk none (hne m' hm')).2]

theorem Inv.storeAcquired (h : Inv s) {info : LockInfo}
    (hpc : (s.thread t).pc = .storeAcquired m info)
    (hstep : s.goAcquire true t (.storeAcquired m info) = some s') : Inv s' := by
  cases hstep
  have hlocal := h.local' t
  obtain ⟨hbound, hinfo⟩ : (s.thread t).depth m < 2 ^ 15 - 1 ∧
      info = ⟨t, (s.thread t).depth m + 1⟩ := by
    have := hlocal.pc
    rwa [Thread.PcOk, hpc] at this
  have hm_owned : (s.thread t).Owns m := .inr ⟨by rw [hpc]; rfl, by rw [hpc]; rfl⟩
  have hm_linked : (s.thread t).Linked m := by
    rw [Thread.Linked, hpc]
    exact .inr rfl
  have hcounted : ∀ m', (s.thread t).counted m' = (s.thread t).depth m' := by
    intro m'
    simp [Thread.counted, Pc.pending, hpc]
  let th' : Thread M := { s.thread t with pc := .ensureOwnership m }
  have hcounted' : ∀ m', th'.counted m' = (s.thread t).depth m' + if m' = m then 1 else 0 := by
    intro m'
    simp [th', Thread.counted, Pc.pending, Pc.target, eq_comm]
  have hlinked : ∀ m', th'.Linked m' ↔ (s.thread t).Linked m' := by
    intro m'
    show 0 < th'.counted m' ↔ _
    rw [hcounted', Thread.Linked, hpc]
    by_cases hm : m' = m
    · simp [hm]
    · simp [hm]
  have howns : ∀ m', th'.Owns m' ↔ (s.thread t).Owns m' := by
    intro m'
    simp [th', Thread.Owns, Pc.ownsTarget, Pc.target, hpc]
  let mu : Mutex := { s.mutex m with data := info, logs := ⟨true, t⟩ :: (s.mutex m).logs }
  have hself : ((s.setMutex m mu).goto t (.ensureOwnership m)).thread t = th' := setThread_self ..
  have hmutex : ∀ m', m' ≠ m →
      ((s.setMutex m mu).goto t (.ensureOwnership m)).mutex m' = s.mutex m' :=
    fun m' hm' => setMutex_of_ne s mu hm'
  have hmutex_m : ((s.setMutex m mu).goto t (.ensureOwnership m)).mutex m = mu := setMutex_self ..
  refine h.keep (t := t) (fun u hu => setThread_of_ne _ _ hu)
    (fun m' => by rw [hself]; exact howns m')
    (fun m' hm' => ?_) (fun m' _ => ?_) (fun m' => by rw [hself]; rintro ⟨⟩)
    ⟨?_, ?_, ?_, ?_, ?_, ?_⟩
  · have hne : m' ≠ m := by
      rintro rfl
      exact hm' hm_owned
    refine ⟨?_, ?_, ?_, rfl, rfl⟩
    · rw [hmutex m' hne]
    · rw [hmutex m' hne]
    · rw [hmutex m' hne]
  · by_cases hne : m' = m
    · rw [hne, hmutex_m]
    · rw [hmutex m' hne]
  · rw [hself]
    trivial
  · rw [hself]
    intro m'
    have hold := hlocal.depth m'
    rw [hcounted] at hold
    rw [hcounted']
    split
    next hm =>
      rw [hm]
      omega
    next => exact hold
  · rw [hself]
    intro m' hm'
    rw [hcounted']
    by_cases hne : m' = m
    · rw [hne, hmutex_m, if_pos rfl, infoOf_pos t (Nat.succ_pos _)]
      exact hinfo
    · rw [hmutex m' hne, if_neg hne, hlocal.data m' ((howns m').mp hm'), hcounted]
      rfl
  · rw [hself]
    intro m' hm'
    have hold := hlocal.logs m' ((hlinked m').mp hm')
    rw [hcounted] at hold
    rw [hcounted']
    by_cases hne : m' = m
    · rw [hne] at hold ⊢
      rw [hmutex_m, if_pos rfl]
      exact Nat.succ_le_succ hold
    · rw [hmutex m' hne, if_neg hne]
      exact hold
  · rw [hself]
    intro m' hm' hnot
    exact hlocal.unlinked m' ((howns m').mp hm') (mt (hlinked m').mpr hnot)
  · rw [hself]
    obtain ⟨lk, ms, hlist, hnodup, hmem, -, hlinks⟩ := hlocal.list
    refine ⟨lk, ms, hlist, hnodup, fun m' => (hmem m').trans (hlinked m').symm, trivial, ?_⟩
    intro m' hm'
    have hnow := hlinks m' hm'
    show SameLinks (th'.linksNow lk) s.links m'
    simpa [th', Thread.linksNow, hpc] using hnow

theorem Inv.recount (h : Inv s) {th' : Thread M}
    (hexcl : th'.exclusiveLocks = (s.thread t).exclusiveLocks) (hpc : th'.PcOk t)
    (hcounted : ∀ m, th'.counted m = (s.thread t).counted m)
    (howns : ∀ m, th'.Owns m ↔ (s.thread t).Owns m)
    (hlinked : ∀ m, th'.Linked m ↔ (s.thread t).Linked m) (hassert : ∀ m, th'.pc ≠ .assertFutex m)
    (hread : ∀ lk : Links M, th'.pc.LinksRead lk ∧ th'.linksNow lk = (s.thread t).linksNow lk) :
    Inv (s.setThread t th') := by
  have hself : (s.setThread t th').thread t = th' := setThread_self ..
  refine h.keep (t := t) (fun u hu => setThread_of_ne _ _ hu)
    (fun m => by rw [hself]; exact howns m)
    (fun m _ => ⟨rfl, rfl, rfl, rfl, rfl⟩) (fun _ _ => rfl)
    (fun m => by rw [hself]; exact hassert m) ?_
  refine (h.local' t).move hself hexcl hpc (fun m => (howns m).mp) hcounted hlinked
    (fun m _ => ⟨rfl, Nat.le_refl _, rfl, rfl⟩) fun lk _ hnow => ⟨(hread lk).1, fun m hm => ?_⟩
  rw [(hread lk).2]
  exact hnow m hm

theorem Inv.ensureOwnership (h : Inv s) (hpc : (s.thread t).pc = .ensureOwnership m)
    (hstep : s.goAcquire true t (.ensureOwnership m) = some s') : Inv s' := by
  have hm_owned : (s.thread t).Owns m := .inr ⟨by rw [hpc]; rfl, by rw [hpc]; rfl⟩
  have hcounted : ∀ m', (s.thread t).counted m' =
      (s.thread t).depth m' + if m' = m then 1 else 0 := by
    intro m'
    simp [Thread.counted, Pc.pending, Pc.target, hpc, eq_comm]
  have howner : (s.mutex m).data.owner = t := by
    refine h.owner_iff.mpr ⟨hm_owned, ?_⟩
    rw [hcounted, if_pos rfl]
    omega
  simp only [State.goAcquire] at hstep
  rw [if_pos howner] at hstep
  cases hstep
  have hdepth : ∀ m', Function.update (s.thread t).depth m ((s.thread t).depth m + 1) m' =
      (s.thread t).depth m' + if m' = m then 1 else 0 := by
    intro m'
    by_cases hm : m' = m
    · rw [hm, Function.update_self, if_pos rfl]
    · rw [Function.update_of_ne hm, if_neg hm]
      rfl
  refine h.recount rfl trivial (fun m' => ?_) (fun m' => ?_) (fun m' => ?_)
      (fun _ hp => by cases hp) fun lk => ⟨trivial, ?_⟩
  · rw [hcounted, ← hdepth]
    rfl
  · simp only [Thread.Owns, Pc.ownsTarget, Pc.target, hpc, Bool.false_eq_true, false_and, or_false,
      true_and, Option.some.injEq, hdepth]
    by_cases hm : m' = m
    · simp [hm]
    · simp [hm, Ne.symm hm]
  · simp only [Thread.Linked, hpc]
    rw [hcounted, ← hdepth]
    rfl
  · simp [Thread.linksNow, hpc]

theorem Inv.callUnlock (h : Inv s) (hpc : (s.thread t).pc = .idle)
    (hpos : 0 < (s.thread t).depth m) :
    Inv (s.setThread t { s.thread t with
      pc := .unlockStart m
      depth := Function.update (s.thread t).depth m ((s.thread t).depth m - 1) }) := by
  have hcounted : ∀ m', (s.thread t).counted m' = (s.thread t).depth m' := by
    intro m'
    simp [Thread.counted, Pc.pending, hpc]
  have hdepth : ∀ m', Function.update (s.thread t).depth m ((s.thread t).depth m - 1) m' +
      (if m = m' then 1 else 0) = (s.thread t).depth m' := by
    intro m'
    by_cases hm : m = m'
    · rw [← hm, Function.update_self, if_pos rfl]
      omega
    · rw [Function.update_of_ne (Ne.symm hm), if_neg hm]
      rfl
  have hcounted' : ∀ m', Thread.counted { s.thread t with
      pc := .unlockStart m
      depth := Function.update (s.thread t).depth m ((s.thread t).depth m - 1) } m' =
        (s.thread t).depth m' := by
    intro m'
    rw [← hdepth m']
    simp [Thread.counted, Pc.pending, Pc.target]
  refine h.recount rfl trivial (fun m' => ?_) (fun m' => ?_) (fun m' => ?_)
      (fun _ hp => by cases hp) fun lk => ⟨trivial, ?_⟩
  · rw [hcounted', hcounted]
  · simp only [Thread.Owns, Pc.ownsTarget, Pc.target, hpc, Bool.false_eq_true, false_and, or_false,
      true_and, Option.some.injEq]
    have := hdepth m'
    by_cases hm : m = m'
    · rw [if_pos hm] at this
      simp only [hm, or_true, true_iff]
      omega
    · rw [if_neg hm] at this
      simp only [hm, or_false]
      omega
  · simp only [Thread.Linked, hpc]
    rw [hcounted', hcounted]
  · simp [Thread.linksNow, hpc]

end N00b.Mt
