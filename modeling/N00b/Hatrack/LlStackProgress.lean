import N00b.Hatrack.LlStack

/-!
# Progress on the lock-free stack

A thread goes back to the head of one of the loops only when the head of the stack was exchanged
since it was read. So the steps of an operation are bounded by how often that happens.

## Main results

* `llstack_lock_free`: how many steps a thread takes while it calls nothing.
-/

namespace N00b.Hatrack.LlStack

variable {s s' : State} {t : ThreadId} {a head head' : Addr}

/-- How many steps a thread has before it, as long as the head of the stack stays what it is. -/
def Thread.ahead (head : Addr) (th : Thread) : ℕ :=
  let all := threadsMax + th.retireList.length
  match th.pc with
  | .unborn | .idle | .crashed => 0
  | .acquired | .endOp _ => 1
  | .free _ cells => cells.length + 1
  | .scan _ i lasttid _ => lasttid - i + th.retireList.length + 2
  | .scanStart _ => all + 3
  | .retire _ _ => all + 5
  | .casTop top _ => all + if head = top then 6 else 9
  | .readNext top => all + if head = top then 7 else 10
  | .readTop => all + 8
  | .casHead _ _ found => if head = found then 2 else 3
  | .readHead _ _ => 3
  | .alloc _ => 4
  | .reserve _ _ => all + 9
  | .start _ => all + 10

/-- How often other threads exchange the head of the stack. -/
def State.exchanges (t : ThreadId) (s : State) : List (ThreadId × Act) → ℕ
  | [] => 0
  | e :: rest => (s.step e).elim 0 fun u =>
      (if e.1 = t ∨ u.head = s.head then 0 else 1) + u.exchanges t rest

/-- An exchange of the head costs a thread at most three steps. -/
theorem ahead_le (th : Thread) : th.ahead head' ≤ th.ahead head + if head' = head then 0 else 3 := by
  rcases eq_or_ne head' head with rfl | hne
  · exact Nat.le_add_right _ _
  · rw [if_neg hne]
    unfold Thread.ahead
    cases th.pc <;> dsimp only <;> first | omega | split_ifs <;> omega

theorem freed_le {heap : Addr → Option Cell} {lowest : ℕ} {l kept freed : List Addr}
    (h : expired heap lowest l = some (kept, freed)) : freed.length ≤ l.length := by
  induction l generalizing kept with
  | nil =>
    cases h
    exact le_rfl
  | cons x rest ih =>
    obtain ⟨c, -, hcell⟩ := Option.bind_eq_some_iff.mp h
    split at hcell
    · cases hcell
      exact le_rfl
    · obtain ⟨⟨kept', freed'⟩, hrec, heq⟩ := Option.map_eq_some_iff.mp hcell
      cases heq
      exact Nat.le_succ_of_le (ih hrec)

theorem ahead_set (s : State) (t : ThreadId) (th : Thread) :
    ((s.setThread t th).thread t).ahead head = th.ahead head :=
  congrArg _ (Function.update_self ..)

theorem ahead_goto (s : State) (t : ThreadId) (pc : Pc) :
    ((s.goto t pc).thread t).ahead head = Thread.ahead head { s.thread t with pc } :=
  ahead_set ..

theorem ahead_freeing {item ctr : ℕ} {cells kept : List Addr} :
    Thread.ahead head ⟨.freeing item cells, ctr, kept⟩ = cells.length + 1 := by
  cases cells <;> rfl

/-- **A step within a call** leaves a step less to go. -/
theorem go_ahead (h : s.go t a (s.thread t).pc = some s') :
    (s'.thread t).ahead s'.head < (s.thread t).ahead s.head := by
  -- an access to a record that is not in use is the end
  have haccess : ∀ {b k}, 0 < (s.thread t).ahead s.head →
      (∀ c, ((k c).thread t).ahead (k c).head < (s.thread t).ahead s.head) →
      ((s.access t b k).thread t).ahead (s.access t b k).head < (s.thread t).ahead s.head := by
    intro b k hpos hk
    unfold State.access
    split
    · rwa [ahead_goto]
    · exact hk _
  have hloop : ((s.loop t).thread t).ahead (s.loop t).head ≤
      threadsMax + (s.thread t).retireList.length + 7 := by
    rw [State.loop, ahead_goto]
    split
    · exact Nat.le_add_left 1 _
    · exact (congrArg _ (if_pos rfl)).le
  have hold : ∀ pc, (s.thread t).pc = pc →
      (s.thread t).ahead s.head = Thread.ahead s.head { s.thread t with pc } := by
    rintro _ rfl
    rfl
  cases hpc : (s.thread t).pc <;> rw [hpc] at h <;> rw [hold _ hpc] at haccess ⊢ <;>
    simp only [State.go, Option.some.injEq, reduceCtorEq] at h
  case acquired | start | scanStart | endOp =>
    subst h
    rw [ahead_goto]
    simp only [Thread.ahead]
    omega
  case reserve op epoch =>
    subst h
    rw [ahead_goto]
    cases op <;> simp only [Thread.ahead, State.setReservation] <;> omega
  case alloc item =>
    split at h
    · cases h
    · cases h
      rw [ahead_goto]
      exact Nat.lt_succ_self 3
  case readHead item node =>
    subst h
    refine haccess (Nat.succ_pos 2) fun c => ?_
    rw [ahead_goto]
    simp [Thread.ahead, State.goto, State.setThread, State.setCell]
  case casHead item node found =>
    split at h
    · cases h
      rw [ahead_goto]
      simp only [Thread.ahead]
      split <;> omega
    next hne =>
      cases h
      rw [show Thread.ahead s.head { s.thread t with pc := .casHead item node found } = 3 from
        if_neg hne] at haccess ⊢
      refine haccess (Nat.succ_pos 2) fun c => ?_
      rw [ahead_goto]
      exact (if_pos rfl).trans_lt (Nat.lt_succ_self 2)
  case readTop =>
    subst h
    exact Nat.lt_succ_of_le hloop
  case readNext top =>
    subst h
    refine haccess (Nat.lt_add_left _ (by split <;> omega)) fun c => ?_
    rw [ahead_goto]
    by_cases heq : s.head = top <;> simp [Thread.ahead, State.goto, State.setThread, heq]
  case casTop top next =>
    split at h
    next heq =>
      cases h
      refine haccess (Nat.lt_add_left _ (by split <;> omega)) fun c => ?_
      rw [ahead_goto]
      simp only [Thread.ahead]
      split <;> omega
    next hne =>
      cases h
      refine hloop.trans_lt ?_
      rw [show Thread.ahead s.head { s.thread t with pc := .casTop top next } =
        threadsMax + (s.thread t).retireList.length + 9 from congrArg _ (if_neg hne)]
      omega
  case retire top item =>
    subst h
    refine haccess (Nat.succ_pos _) fun c => ?_
    have hnext : ∀ pc, pc = .scanStart item ∨ pc = .endOp (.popped (some item)) → ∀ head ctr,
        Thread.ahead head ⟨pc, ctr, top :: (s.thread t).retireList⟩ <
          threadsMax + (s.thread t).retireList.length + 5 := by
      rintro _ (rfl | rfl) head ctr <;> simp only [Thread.ahead, List.length_cons] <;> omega
    rw [ahead_set]
    exact hnext _ (ite_eq_or_eq ..) _ _
  case scan item i lasttid lowest =>
    split at h
    next hi =>
      cases h
      rw [ahead_goto]
      simp only [Thread.ahead]
      omega
    · cases hexp : expired s.heap lowest (s.thread t).retireList with
      | none =>
        rw [hexp] at h
        cases h
        rw [ahead_goto]
        exact Nat.succ_pos _
      | some parts =>
        rw [hexp] at h
        cases h
        rw [ahead_set, ahead_freeing]
        have hle := freed_le hexp
        simp only [Thread.ahead]
        omega
  case free item cells =>
    rcases cells with _ | ⟨x, cells⟩
    · cases h
    · cases h
      refine haccess (Nat.succ_pos _) fun c => ?_
      rw [ahead_goto, ahead_freeing]
      exact Nat.lt_succ_self _

theorem step_other {e : ThreadId × Act} (hne : t ≠ e.1) (h : s.step e = some s') :
    s'.thread t = s.thread t := by
  obtain ⟨u, act⟩ := e
  have hset : ∀ (v : State) th, (v.setThread u th).thread t = v.thread t :=
    fun _ _ => Function.update_of_ne hne ..
  have haccess : ∀ {b k}, (∀ c, (k c).thread t = s.thread t) →
      (s.access u b k).thread t = s.thread t := by
    intro b k hk
    unfold State.access
    split
    · exact hset ..
    · exact hk _
  cases act with
  | acquire | call =>
    obtain ⟨-, hs'⟩ := Option.ite_none_right_eq_some.mp h
    cases hs'
    exact hset ..
  | go a =>
    simp only [State.step] at h
    unfold State.go at h
    split at h <;> (repeat' split at h) <;> cases h <;>
      first | exact hset .. | exact haccess fun _ => hset ..

/-- **The stack is lock-free**: the steps that a thread takes while it calls nothing are at most
those that it has before it, and three for each time that another thread exchanges the head. -/
theorem llstack_lock_free {acts : List (ThreadId × Act)} (hrun : acts.foldlM State.step s = some s')
    (hgo : ∀ e ∈ acts, e.1 = t → ∃ a, e.2 = .go a) :
    acts.countP (·.1 = t) ≤ (s.thread t).ahead s.head + 3 * s.exchanges t acts := by
  induction acts generalizing s with
  | nil => exact Nat.zero_le _
  | cons e rest ih =>
    obtain ⟨u, hu, hrest⟩ := Option.bind_eq_some_iff.mp hrun
    obtain ⟨hfirst, hgo⟩ := List.forall_mem_cons.mp hgo
    have hle := ih hrest hgo
    rw [State.exchanges, hu, Option.elim_some, List.countP_cons]
    rcases eq_or_ne e.1 t with heq | hne
    · obtain ⟨a, ha⟩ := hfirst heq
      have hstep : s.go t a (s.thread t).pc = some u := by rwa [State.step, ha, heq] at hu
      have hless := go_ahead hstep
      rw [if_pos (decide_eq_true heq), if_pos (.inl heq)]
      omega
    · have hcost := @ahead_le s.head u.head (u.thread t)
      have hsame := step_other hne.symm hu
      rw [hsame] at hcost hle
      simp only [hne, false_or, decide_false, Bool.false_eq_true, if_false]
      split_ifs at hcost ⊢ <;> omega

theorem llstack_lock_free_push :
    let s := (State.init.goto 0 (.start (.push 7))).goto 1 (.casHead 5 9 0)
    let acts := [(0, .go 0), (0, .go 0), (0, .go 8), (0, .go 0), (1, .go 0), (0, .go 0), (0, .go 0)]
    (acts.foldlM State.step s).isSome ∧
      acts.countP (·.1 = 0) ≤ (s.thread 0).ahead s.head + 3 * s.exchanges 0 acts := by
  intro s acts
  have hrun : (acts.foldlM State.step s).isSome := by decide
  obtain ⟨u, hu⟩ := Option.isSome_iff_exists.mp hrun
  exact ⟨hrun, llstack_lock_free hu (by simp [acts])⟩

end N00b.Hatrack.LlStack
