import N00b.Mt.Locking
import N00b.Mt.RwLock

/-!
# Exclusion of writers

A thread that claims the write bit keeps new readers out, waits until no other thread is counted, and
then counts its locks in `data`. The threads agree on who that is, and the futex is the sum of what
they have done to it.

## Main results

* `excludes_of_run`: writers are excluded in undisturbed runs.
-/

namespace N00b.Mt.Rw

open N00b.Lib

/-! ## Bits of the futex -/

theorem rwWLock_eq : rwWLock = 2 ^ 30 := rfl

variable {n : Nat}

theorem lt_of_le_threadsMax (hn : n ≤ threadsMax) : n < 2 ^ 30 :=
  Nat.lt_of_le_of_lt hn (by decide)

theorem and_rwWLock (hn : n ≤ threadsMax) : n &&& rwWLock = 0 := by
  rw [rwWLock_eq, Nat.and_two_pow, Nat.testBit_lt_two_pow (lt_of_le_threadsMax hn)]
  rfl

/-- Setting the write bit adds it to the number of readers. -/
theorem or_rwWLock (hn : n ≤ threadsMax) : n ||| rwWLock = n + rwWLock := by
  have hor := Nat.two_pow_add_eq_or_of_lt (lt_of_le_threadsMax hn) 1
  rw [Nat.mul_one] at hor
  rw [rwWLock_eq, Nat.or_comm, Nat.add_comm, hor]

/-- The write bit is seen whatever the number of readers is. -/
theorem add_and_rwWLock (hn : n ≤ threadsMax) : (n + rwWLock) &&& rwWLock = rwWLock := by
  rw [rwWLock_eq, Nat.add_comm, Nat.and_two_pow, Nat.testBit_two_pow_add_eq,
    Nat.testBit_lt_two_pow (lt_of_le_threadsMax hn)]
  rfl

theorem add_or_rwWLock (hn : n ≤ threadsMax) :
    (n + rwWLock) ||| rwWLock = n + rwWLock := by
  rw [← or_rwWLock hn, Nat.or_assoc, Nat.or_self]

/-- Clearing the write bit leaves the number of readers. -/
theorem and_not_rwWLock (hn : n ≤ threadsMax) :
    (n + rwWLock) &&& (2 ^ 32 - 1 - rwWLock) = n := by
  have hlt := lt_of_le_threadsMax hn
  have hmask : 2 ^ 32 - 1 - rwWLock = 2 ^ 31 ||| (2 ^ 30 - 1) := by decide
  have hhigh : (n + 2 ^ 30) &&& 2 ^ 31 = 0 := by
    rw [Nat.and_two_pow, Nat.testBit_lt_two_pow]
    · rfl
    · omega
  rw [hmask, rwWLock_eq, Nat.and_or_distrib_left, hhigh, Nat.zero_or,
    Nat.and_two_pow_sub_one_eq_mod, Nat.add_mod_right, Nat.mod_eq_of_lt hlt]

theorem pred_mod (hpos : 0 < n) (hlt : n < 2 ^ 32) :
    (n + 2 ^ 32 - 1) % 2 ^ 32 = n - 1 := by
  omega

/-! ## Depths -/

/-- How many read locks are older than the oldest write lock. -/
def readDepth (held : List Mode) : Nat :=
  held.length - writeDepth held

theorem writeDepth_le (held : List Mode) : writeDepth held ≤ held.length := by
  induction held with
  | nil => exact Nat.le_refl _
  | cons mode held ih =>
    rw [writeDepth, List.length_cons]
    split
    · exact Nat.succ_le_succ ih
    · exact Nat.zero_le _

variable {held : List Mode}

/-- A thread is in a write lock just if it holds one. -/
theorem writeDepth_pos : 0 < writeDepth held ↔ .write ∈ held := by
  induction held with
  | nil => simp [writeDepth]
  | cons mode held ih =>
    rw [writeDepth, List.mem_cons]
    by_cases hcase : writeDepth held ≠ 0 ∨ mode = .write
    · rw [if_pos hcase]
      refine ⟨fun _ => ?_, fun _ => Nat.succ_pos _⟩
      rcases hcase with hdepth | rfl
      · exact .inr (ih.mp (Nat.pos_of_ne_zero hdepth))
      · exact .inl rfl
    · rw [if_neg hcase]
      obtain ⟨hdepth, hmode⟩ := not_or.mp hcase
      constructor
      · intro hpos
        exact absurd hpos (lt_irrefl 0)
      · rintro (rfl | hmem)
        · exact absurd rfl hmode
        · exact absurd (ih.mpr hmem) (by omega)

/-- A lock inside of a write lock nests deeper. -/
theorem depths_nested {mode : Mode} (h : 0 < writeDepth held ∨ mode = .write) :
    writeDepth (mode :: held) = writeDepth held + 1 ∧
      readDepth (mode :: held) = readDepth held := by
  have hle := writeDepth_le held
  have hdepth : writeDepth (mode :: held) = writeDepth held + 1 := by
    rw [writeDepth, if_pos]
    rcases h with h | h
    · exact .inl (by omega)
    · exact .inr h
  refine ⟨hdepth, ?_⟩
  rw [readDepth, readDepth, hdepth, List.length_cons]
  omega

/-- A read lock outside of one is counted by itself. -/
theorem depths_read (h : writeDepth held = 0) :
    writeDepth (.read :: held) = 0 ∧ readDepth (.read :: held) = readDepth held + 1 := by
  have hdepth : writeDepth (.read :: held) = 0 := by
    rw [writeDepth, if_neg]
    rintro (hne | hmode)
    · exact hne h
    · cases hmode
  refine ⟨hdepth, ?_⟩
  rw [readDepth, readDepth, hdepth, h, List.length_cons]
  omega

/-- Who is in no lock holds none. -/
theorem eq_nil_of_depths (hw : writeDepth held = 0) (hr : readDepth held = 0) :
    held = [] := by
  unfold readDepth at hr
  exact List.length_eq_zero_iff.mp (by omega)

theorem eq_read_of_depth {mode : Mode} (h : writeDepth (mode :: held) = 0) :
    mode = .read ∧ writeDepth held = 0 := by
  rw [writeDepth] at h
  split at h
  · cases h
  next hnot =>
    obtain ⟨hdepth, hmode⟩ := not_or.mp hnot
    refine ⟨?_, not_not.mp hdepth⟩
    cases mode with
    | read => rfl
    | write => exact absurd rfl hmode

/-! ## Threads -/

/-- `data` at a nesting depth. -/
def infoOf (t : ThreadId) (n : Nat) : LockInfo :=
  if n = 0 then ⟨noOwner, 0⟩ else ⟨t, n⟩

/-- What a thread has done to the lock: how often it reads, how deep `data` counts its locks, and
whether it has claimed the write bit. -/
structure View (t : ThreadId) (th : Thread) (info : LockInfo) (reads nest : Nat) (claim : Bool) :
    Prop where
  record : th.record = reads
  counted : th.counted = decide (0 < reads)
  claimed : th.claimed = claim
  data : claim = true → info = infoOf t nest
  bound : nest ≤ 2 ^ 15 - 1

/-- What a thread knows of the lock between its calls. -/
def Settled (t : ThreadId) (th : Thread) (data : LockInfo) (held : List Mode) : Prop :=
  View t th data (readDepth held) (writeDepth held) (decide (0 < writeDepth held))

/-- What holds for one thread, `info` being `data`. -/
def Local (t : ThreadId) (th : Thread) (info : LockInfo) : Prop :=
  match th.pc with
  | .idle => Settled t th info th.held
  | .writeStart | .readStart => Settled t th info th.held ∧ writeDepth th.held < 2 ^ 15 - 1
  | .writeFetchOr old | .readCas old => Settled t th info th.held ∧
    writeDepth th.held < 2 ^ 15 - 1 ∧ (old.owner = t ↔ 0 < writeDepth th.held)
  | .writeWait old => Settled t th info th.held ∧ writeDepth th.held = 0 ∧ old.owner ≠ t
  | .writeDrain => writeDepth th.held = 0 ∧ View t th info (readDepth th.held) 0 true
  | .acquire mode => (0 < writeDepth th.held ∨ mode = .write) ∧ writeDepth th.held < 2 ^ 15 - 1 ∧
    View t th info (readDepth th.held) (writeDepth th.held) true
  | .storeAcquired mode new => (0 < writeDepth th.held ∨ mode = .write) ∧
    writeDepth th.held < 2 ^ 15 - 1 ∧ new = infoOf t (writeDepth th.held + 1) ∧
    View t th info (readDepth th.held) (writeDepth th.held) true
  | .readLoad | .readLoop _ _ => Settled t th info th.held ∧ th.held = []
  | .readRetry _ _ => False
  | .unlockStart => ∃ mode, Settled t th info (mode :: th.held)
  | .release => View t th info (readDepth th.held) (writeDepth th.held + 1) true
  | .storeReleased new unlock => new = infoOf t (writeDepth th.held) ∧
    (unlock = true ↔ writeDepth th.held = 0) ∧
    View t th info (readDepth th.held) (writeDepth th.held + 1) true
  | .clearBit => writeDepth th.held = 0 ∧ View t th info (readDepth th.held) 0 true
  | .uncount | .uncountCas _ =>
    th.held = [] ∧ th.record = 0 ∧ th.counted = true ∧ th.claimed = false

/-- **The invariant.** -/
structure Inv (s : State) : Prop where
  local' : ∀ t, Local t (s.thread t) s.data
  range : ∀ t, (s.thread t).counted = true → t < threadsMax
  unique : ∀ t u, (s.thread t).claimed = true → (s.thread u).claimed = true → u = t
  drained : ∀ t u, (s.thread t).claimed = true → (s.thread t).pc ≠ .writeDrain →
    (s.thread u).counted = true → u = t
  futexClaimed : ∀ t, (s.thread t).claimed = true → s.futex = s.readers + rwWLock
  futexFree : (∀ t, (s.thread t).claimed = false) →
    s.futex = s.readers ∧ s.data = infoOf 0 0

variable {s s' : State} {t u : ThreadId} {th th' : Thread}

theorem setThread_of_ne (s : State) (th : Thread) (hu : u ≠ t) :
    (s.setThread t th).thread u = s.thread u :=
  Function.update_of_ne hu ..

theorem setThread_self (s : State) (t : ThreadId) (th : Thread) :
    (s.setThread t th).thread t = th :=
  Function.update_self ..

theorem infoOf_zero (t u : ThreadId) : infoOf t 0 = infoOf u 0 := rfl

theorem infoOf_pos (t : ThreadId) (hn : 0 < n) : infoOf t n = ⟨t, n⟩ := by
  rw [infoOf, if_neg (by omega)]

/-- The record of a lock names its owner just if it is nested. -/
theorem infoOf_owner (t : ThreadId) (n : Nat) : (infoOf t n).owner = t ↔ 0 < n := by
  unfold infoOf
  split
  next hn =>
    rw [hn]
    show (-1 : Int) = t ↔ _
    omega
  next hn =>
    refine ⟨fun _ => Nat.pos_of_ne_zero hn, fun _ => rfl⟩

/-! ## Readers -/

theorem readers_le (s : State) : s.readers ≤ threadsMax := by
  unfold State.readers
  refine (Finset.card_filter_le _ _).trans ?_
  rw [Finset.card_range]

theorem readers_congr (h : ∀ u, (s'.thread u).counted = (s.thread u).counted) :
    s'.readers = s.readers := by
  unfold State.readers
  exact congrArg Finset.card (Finset.filter_congr fun u _ => by rw [h])

/-- One more thread has counted itself. -/
theorem readers_succ (ht : t < threadsMax) (hold : (s.thread t).counted = false)
    (hnew : (s'.thread t).counted = true)
    (hother : ∀ u, u ≠ t → (s'.thread u).counted = (s.thread u).counted) :
    s'.readers = s.readers + 1 := by
  unfold State.readers
  have hinsert : ((Finset.range threadsMax).filter fun u => (s'.thread u).counted = true) =
      insert t ((Finset.range threadsMax).filter fun u => (s.thread u).counted = true) := by
    ext u
    by_cases hu : u = t
    · simp [hu, ht, hnew]
    · simp [hu, hother u hu]
  rw [hinsert, Finset.card_insert_of_notMem]
  simp [hold]

theorem readers_pos (ht : t < threadsMax) (hcounted : (s.thread t).counted = true) :
    0 < s.readers :=
  Finset.card_pos.mpr ⟨t, Finset.mem_filter.mpr ⟨Finset.mem_range.mpr ht, hcounted⟩⟩

/-! ## What other threads see -/

/-- What a thread knows of the lock does not depend on the record, unless it has claimed the lock.
-/
theorem View.congr {info info' : LockInfo} {reads nest : Nat} {claim : Bool}
    (h : View t th info reads nest claim) (hinfo : th.claimed = true → info' = info) :
    View t th info' reads nest claim where
  record := h.record
  counted := h.counted
  claimed := h.claimed
  data := fun hclaim => (hinfo (h.claimed.trans hclaim)).trans (h.data hclaim)
  bound := h.bound

theorem Settled.congr {info info' : LockInfo} {held : List Mode} (h : Settled t th info held)
    (hinfo : th.claimed = true → info' = info) : Settled t th info' held :=
  View.congr h hinfo

variable {info : LockInfo}

theorem View.goto {reads nest : Nat} {claim : Bool}
    (h : View t th info reads nest claim)
    (pc : Pc) : View t { th with pc := pc } info reads nest claim :=
  ⟨h.record, h.counted, h.claimed, h.data, h.bound⟩

theorem Settled.goto (h : Settled t th info held) (pc : Pc) :
    Settled t { th with pc := pc } info held :=
  View.goto h pc

/-- What holds of a thread alone stays so when another one writes the record. -/
theorem Local.congr {info info' : LockInfo} (h : Local t th info)
    (hinfo : th.claimed = true → info' = info) : Local t th info' := by
  unfold Local at h ⊢
  cases hpc : th.pc with
  | idle =>
    rw [hpc] at h
    exact h.congr hinfo
  | writeStart | readStart | readLoad | readLoop value desired =>
    rw [hpc] at h
    exact ⟨h.1.congr hinfo, h.2⟩
  | writeFetchOr old | readCas old | writeWait old =>
    rw [hpc] at h
    exact ⟨h.1.congr hinfo, h.2⟩
  | writeDrain | clearBit =>
    rw [hpc] at h
    exact ⟨h.1, h.2.congr hinfo⟩
  | acquire mode =>
    rw [hpc] at h
    exact ⟨h.1, h.2.1, h.2.2.congr hinfo⟩
  | storeAcquired mode new =>
    rw [hpc] at h
    exact ⟨h.1, h.2.1, h.2.2.1, h.2.2.2.congr hinfo⟩
  | readRetry value desired =>
    rw [hpc] at h
    exact h
  | unlockStart =>
    rw [hpc] at h
    obtain ⟨mode, h⟩ := h
    exact ⟨mode, h.congr hinfo⟩
  | release =>
    rw [hpc] at h
    exact View.congr h hinfo
  | storeReleased new unlock =>
    rw [hpc] at h
    exact ⟨h.1, h.2.1, h.2.2.congr hinfo⟩
  | uncount | uncountCas value =>
    rw [hpc] at h
    exact h

/-- A step that changes neither the futex nor who has counted or claimed keeps the invariant. -/
theorem Inv.stay (h : Inv s) (hself : s'.thread t = th')
    (hother : ∀ u, u ≠ t → s'.thread u = s.thread u)
    (hfutex : s'.futex = s.futex) (hdata : s'.data = s.data ∨ (s.thread t).claimed = true)
    (hcounted : th'.counted = (s.thread t).counted) (hclaimed : th'.claimed = (s.thread t).claimed)
    (hdrained : th'.claimed = true → th'.pc ≠ .writeDrain →
      ∀ u, (s.thread u).counted = true → u = t)
    (hlocal : Local t th' s'.data) : Inv s' := by
  have hcounted_all : ∀ u, (s'.thread u).counted = (s.thread u).counted := by
    intro u
    by_cases hu : u = t
    · rw [hu, hself, hcounted]
    · rw [hother u hu]
  have hclaimed_all : ∀ u, (s'.thread u).claimed = (s.thread u).claimed := by
    intro u
    by_cases hu : u = t
    · rw [hu, hself, hclaimed]
    · rw [hother u hu]
  have hreaders : s'.readers = s.readers := readers_congr hcounted_all
  refine ⟨fun u => ?_, fun u => ?_, fun u v => ?_, fun u v => ?_, fun u => ?_, fun hfree => ?_⟩
  · by_cases hu : u = t
    · rw [hu, hself]
      exact hlocal
    · rw [hother u hu]
      refine (h.local' u).congr fun hclaimed_u => ?_
      refine hdata.resolve_right fun hclaimed_t => hu ?_
      exact h.unique t u hclaimed_t hclaimed_u
  · rw [hcounted_all]
    exact h.range u
  · rw [hclaimed_all, hclaimed_all]
    exact h.unique u v
  · intro hclaimed_u hpc hcounted_v
    rw [hcounted_all] at hcounted_v
    by_cases hu : u = t
    · rw [hu] at hclaimed_u hpc ⊢
      rw [hself] at hclaimed_u hpc
      exact hdrained hclaimed_u hpc v hcounted_v
    · rw [hclaimed_all] at hclaimed_u
      rw [hother u hu] at hpc
      exact h.drained u v hclaimed_u hpc hcounted_v
  · rw [hclaimed_all, hfutex, hreaders]
    exact h.futexClaimed u
  · have hfree' : ∀ u, (s.thread u).claimed = false := fun u => (hclaimed_all u) ▸ hfree u
    have hdata' : s'.data = s.data := by
      refine hdata.resolve_right fun hclaimed_t => ?_
      rw [hfree' t] at hclaimed_t
      cases hclaimed_t
    rw [hfutex, hreaders, hdata']
    exact h.futexFree hfree'

/-- So does one to another place in the code. -/
theorem Inv.goto (h : Inv s) (pc' : Pc)
    (hdrained : (s.thread t).claimed = true → pc' ≠ .writeDrain →
      ∀ u, (s.thread u).counted = true → u = t)
    (hlocal : Local t { s.thread t with pc := pc' } s.data) : Inv (s.goto t pc') :=
  h.stay (setThread_self ..) (fun _ hu => setThread_of_ne s _ hu) rfl (.inl rfl) rfl rfl hdrained
    hlocal

/-- **The write bit is set** just if a thread has claimed the lock. -/
theorem Inv.claimed_iff (h : Inv s) :
    s.futex &&& rwWLock ≠ 0 ↔ ∃ t, (s.thread t).claimed = true := by
  constructor
  · intro hbit
    by_contra hnone
    have hfree : ∀ t, (s.thread t).claimed = false := fun t => by
      rw [← Bool.not_eq_true]
      exact fun hclaimed => hnone ⟨t, hclaimed⟩
    rw [(h.futexFree hfree).1, and_rwWLock (readers_le s)] at hbit
    exact hbit rfl
  · rintro ⟨t, hclaimed⟩
    rw [h.futexClaimed t hclaimed, add_and_rwWLock (readers_le s)]
    decide

/-- Without it nobody has, and the futex is the number of readers. -/
theorem Inv.free (h : Inv s) (hbit : s.futex &&& rwWLock = 0) :
    (∀ t, (s.thread t).claimed = false) ∧ s.futex = s.readers := by
  have hfree : ∀ t, (s.thread t).claimed = false := fun t => by
    rw [← Bool.not_eq_true]
    exact fun hclaimed => h.claimed_iff.mpr ⟨t, hclaimed⟩ hbit
  exact ⟨hfree, (h.futexFree hfree).1⟩

theorem Inv.futex_bounds (h : Inv s) (ht : t < threadsMax)
    (hcounted : (s.thread t).counted = true) :
    0 < s.futex ∧ s.futex < 2 ^ 32 := by
  have hpos := readers_pos ht hcounted
  have hle := lt_of_le_threadsMax (readers_le s)
  by_cases hany : ∃ u, (s.thread u).claimed = true
  · obtain ⟨u, hu⟩ := hany
    rw [h.futexClaimed u hu, rwWLock_eq]
    omega
  · rw [(h.futexFree fun u => by rw [← Bool.not_eq_true]; exact fun hu => hany ⟨u, hu⟩).1]
    omega

/-- **A thread knows how the lock is**, or it holds nothing any more. -/
theorem Local.view (h : Local t th info) :
    (∃ reads nest claim, View t th info reads nest claim ∧ readDepth th.held ≤ reads ∧
      (0 < writeDepth th.held → claim = true)) ∨ th.held = [] ∧ th.claimed = false := by
  unfold Local at h
  cases hpc : th.pc with
  | idle =>
    rw [hpc] at h
    exact .inl ⟨_, _, _, h, le_rfl, decide_eq_true⟩
  | writeStart | readStart | readLoad | readLoop value desired | writeFetchOr old | readCas old
  | writeWait old =>
    rw [hpc] at h
    exact .inl ⟨_, _, _, h.1, le_rfl, decide_eq_true⟩
  | writeDrain | clearBit =>
    rw [hpc] at h
    exact .inl ⟨_, _, _, h.2, le_rfl, fun _ => rfl⟩
  | acquire mode =>
    rw [hpc] at h
    exact .inl ⟨_, _, _, h.2.2, le_rfl, fun _ => rfl⟩
  | storeAcquired mode new =>
    rw [hpc] at h
    exact .inl ⟨_, _, _, h.2.2.2, le_rfl, fun _ => rfl⟩
  | readRetry value desired =>
    rw [hpc] at h
    exact h.elim
  | unlockStart =>
    rw [hpc] at h
    obtain ⟨mode, h⟩ := h
    refine .inl ⟨_, _, _, h, ?_, fun hw => decide_eq_true ?_⟩
    · by_cases hmode : 0 < writeDepth th.held ∨ mode = .write
      · exact (depths_nested hmode).2.ge
      · obtain ⟨hw, hread⟩ := not_or.mp hmode
        cases mode with
        | read =>
          rw [(depths_read (Nat.eq_zero_of_not_pos hw)).2]
          exact Nat.le_succ _
        | write => exact absurd rfl hread
    · rw [writeDepth, if_pos (.inl (Nat.ne_of_gt hw))]
      exact Nat.succ_pos _
  | release =>
    rw [hpc] at h
    exact .inl ⟨_, _, _, h, le_rfl, fun _ => rfl⟩
  | storeReleased new unlock =>
    rw [hpc] at h
    exact .inl ⟨_, _, _, h.2.2, le_rfl, fun _ => rfl⟩
  | uncount | uncountCas value =>
    rw [hpc] at h
    exact .inr ⟨h.1, h.2.2.2⟩

theorem Local.data (h : Local t th info) (hclaimed : th.claimed = true) :
    ∃ nest, info = infoOf t nest := by
  rcases h.view with ⟨_, nest, _, hview, -, -⟩ | ⟨-, hfree⟩
  · exact ⟨nest, hview.data (hview.claimed.symm.trans hclaimed)⟩
  · rw [hfree] at hclaimed
    cases hclaimed

/-- The record names a thread just if the thread is in a write lock. -/
theorem Inv.owner (h : Inv s) (hsettled : Settled t (s.thread t) s.data held) :
    s.data.owner = t ↔ 0 < writeDepth held := by
  have hclaimed := hsettled.claimed
  constructor
  · intro howner
    by_contra hzero
    rw [decide_eq_false hzero] at hclaimed
    by_cases hany : ∃ u, (s.thread u).claimed = true
    · obtain ⟨u, hu⟩ := hany
      obtain ⟨nest, hdata⟩ := (h.local' u).data hu
      rw [hdata, infoOf] at howner
      split at howner
      · have howner : (-1 : Int) = t := howner
        omega
      · have howner : (u : Int) = t := howner
        obtain rfl : u = t := by exact_mod_cast howner
        rw [hclaimed] at hu
        cases hu
    · have hfree : ∀ u, (s.thread u).claimed = false := fun u => by
        rw [← Bool.not_eq_true]
        exact fun hu => hany ⟨u, hu⟩
      rw [(h.futexFree hfree).2] at howner
      have howner : (-1 : Int) = t := howner
      omega
  · intro hpos
    rw [hsettled.data (decide_eq_true hpos)]
    exact (infoOf_owner t _).mpr hpos

/-! ## Claiming and counting -/

/-- A thread that finds the bit clear claims the lock. -/
theorem Inv.claim (h : Inv s) (hbit : s.futex &&& rwWLock = 0)
    (hself : s'.thread t = { s.thread t with pc := .writeDrain, claimed := true })
    (hother : ∀ u, u ≠ t → s'.thread u = s.thread u) (hfutex : s'.futex = s.futex ||| rwWLock)
    (hdata : s'.data = s.data) (hw : writeDepth (s.thread t).held = 0)
    (hview : View t (s.thread t) s.data (readDepth (s.thread t).held) 0 false) : Inv s' := by
  obtain ⟨hfree, hcount⟩ := h.free hbit
  have hcounted_all : ∀ u, (s'.thread u).counted = (s.thread u).counted := by
    intro u
    by_cases hu : u = t
    · rw [hu, hself]
    · rw [hother u hu]
  have hclaimed_only : ∀ u, (s'.thread u).claimed = true → u = t := by
    intro u hclaimed
    by_contra hu
    rw [hother u hu, hfree u] at hclaimed
    cases hclaimed
  refine ⟨fun u => ?_, fun u => ?_, fun u v hu hv => ?_, fun u v hu hpc => ?_, fun u _ => ?_,
    fun hnone => ?_⟩
  · rw [hdata]
    by_cases hu : u = t
    · rw [hu, hself]
      exact ⟨hw, hview.record, hview.counted, rfl, fun _ => (h.futexFree hfree).2, Nat.zero_le _⟩
    · rw [hother u hu]
      exact h.local' u
  · rw [hcounted_all]
    exact h.range u
  · exact (hclaimed_only v hv).trans (hclaimed_only u hu).symm
  · rw [hclaimed_only u hu, hself] at hpc
    exact absurd rfl hpc
  · rw [hfutex, readers_congr hcounted_all, hcount, or_rwWLock (readers_le s)]
  · have hclaimed := hnone t
    rw [hself] at hclaimed
    cases hclaimed

/-- The owner gives its claim back. -/
theorem Inv.unclaim (h : Inv s) (hclaimed : (s.thread t).claimed = true)
    (hself : s'.thread t = { s.thread t with pc := .idle, claimed := false })
    (hother : ∀ u, u ≠ t → s'.thread u = s.thread u)
    (hfutex : s'.futex = s.futex &&& (2 ^ 32 - 1 - rwWLock)) (hdata : s'.data = s.data)
    (hw : writeDepth (s.thread t).held = 0)
    (hview : View t (s.thread t) s.data (readDepth (s.thread t).held) 0 true) : Inv s' := by
  have hcounted_all : ∀ u, (s'.thread u).counted = (s.thread u).counted := by
    intro u
    by_cases hu : u = t
    · rw [hu, hself]
    · rw [hother u hu]
  have hnone : ∀ u, (s'.thread u).claimed = false := by
    intro u
    by_cases hu : u = t
    · rw [hu, hself]
    · rw [hother u hu, ← Bool.not_eq_true]
      exact fun hclaimed_u => hu (h.unique t u hclaimed hclaimed_u)
  have hno_claim : ∀ {p : Prop} u, (s'.thread u).claimed = true → p := by
    intro p u hu
    rw [hnone u] at hu
    cases hu
  refine ⟨fun u => ?_, fun u => ?_, fun u v hu _ => hno_claim u hu, fun u v hu _ => hno_claim u hu,
    fun u hu => hno_claim u hu, fun _ => ?_⟩
  · rw [hdata]
    by_cases hu : u = t
    · rw [hu, hself]
      show View t _ s.data _ (writeDepth (s.thread t).held) _
      rw [hw]
      exact ⟨hview.record, hview.counted, rfl, fun hfalse => (nomatch hfalse), Nat.zero_le _⟩
    · rw [hother u hu]
      exact h.local' u
  · rw [hcounted_all]
    exact h.range u
  · rw [hfutex, readers_congr hcounted_all, h.futexClaimed t hclaimed,
      and_not_rwWLock (readers_le s), hdata]
    exact ⟨rfl, hview.data rfl⟩

/-- A reader counts itself while nobody claims the lock. -/
theorem Inv.count (h : Inv s) (ht : t < threadsMax) (hbit : s.futex &&& rwWLock = 0)
    (hself : s'.thread t =
      { s.thread t with pc := .idle, record := 1, counted := true, held := [.read] })
    (hother : ∀ u, u ≠ t → s'.thread u = s.thread u) (hfutex : s'.futex = s.futex + 1)
    (hdata : s'.data = s.data) (hcounted : (s.thread t).counted = false) : Inv s' := by
  obtain ⟨hfree, hcount⟩ := h.free hbit
  have hnone : ∀ u, (s'.thread u).claimed = false := by
    intro u
    by_cases hu : u = t
    · rw [hu, hself]
      exact hfree t
    · rw [hother u hu]
      exact hfree u
  have hno_claim : ∀ {p : Prop} u, (s'.thread u).claimed = true → p := by
    intro p u hu
    rw [hnone u] at hu
    cases hu
  refine ⟨fun u => ?_, fun u => ?_, fun u v hu _ => hno_claim u hu, fun u v hu _ => hno_claim u hu,
    fun u hu => hno_claim u hu, fun _ => ?_⟩
  · rw [hdata]
    by_cases hu : u = t
    · rw [hu, hself]
      exact ⟨rfl, rfl, hfree t, fun hfalse => (nomatch hfalse), Nat.zero_le _⟩
    · rw [hother u hu]
      exact h.local' u
  · by_cases hu : u = t
    · rw [hu]
      exact fun _ => ht
    · rw [hother u hu]
      exact h.range u
  · have hreaders : s'.readers = s.readers + 1 :=
      readers_succ ht hcounted (by rw [hself]) fun u hu => by rw [hother u hu]
    rw [hfutex, hreaders, hcount, hdata]
    exact ⟨rfl, (h.futexFree hfree).2⟩

/-- A reader takes itself off again. -/
theorem Inv.uncount (h : Inv s)
    (hself : s'.thread t = { s.thread t with pc := .idle, counted := false })
    (hother : ∀ u, u ≠ t → s'.thread u = s.thread u) (hfutex : s'.futex + 1 = s.futex)
    (hdata : s'.data = s.data)
    (hpc : (s.thread t).held = [] ∧ (s.thread t).record = 0 ∧ (s.thread t).counted = true ∧
      (s.thread t).claimed = false) : Inv s' := by
  obtain ⟨hheld, hrecord, hcounted, hclaimed⟩ := hpc
  have hclaimed_all : ∀ u, (s'.thread u).claimed = (s.thread u).claimed := by
    intro u
    by_cases hu : u = t
    · rw [hu, hself]
    · rw [hother u hu]
  have hback : ∀ u, (s'.thread u).counted = true → (s.thread u).counted = true ∧ u ≠ t := by
    intro u hu
    have hne : u ≠ t := by
      rintro rfl
      rw [hself] at hu
      cases hu
    rw [hother u hne] at hu
    exact ⟨hu, hne⟩
  have hreaders : s.readers = s'.readers + 1 :=
    readers_succ (h.range t hcounted) (by rw [hself]) hcounted fun u hu => by rw [hother u hu]
  refine ⟨fun u => ?_, fun u hu => h.range u (hback u hu).1, fun u v => ?_, fun u v hu hpc hv => ?_,
    fun u hu => ?_, fun hnone => ?_⟩
  · rw [hdata]
    by_cases hu : u = t
    · rw [hu, hself]
      show View t _ s.data (readDepth (s.thread t).held) (writeDepth (s.thread t).held) _
      rw [hheld]
      exact ⟨hrecord, rfl, hclaimed, fun hfalse => (nomatch hfalse), Nat.zero_le _⟩
    · rw [hother u hu]
      exact h.local' u
  · rw [hclaimed_all, hclaimed_all]
    exact h.unique u v
  · rw [hclaimed_all] at hu
    have hne : u ≠ t := by
      rintro rfl
      rw [hclaimed] at hu
      cases hu
    rw [hother u hne] at hpc
    exact h.drained u v hu hpc (hback v hv).1
  · rw [hclaimed_all] at hu
    have hsum := h.futexClaimed u hu
    omega
  · obtain ⟨hsum, hinfo⟩ := h.futexFree fun u => (hclaimed_all u) ▸ hnone u
    rw [hdata]
    exact ⟨by omega, hinfo⟩

/-! ## Steps -/

theorem Settled.unclaimed (h : Settled t th info held)
    (hw : writeDepth held = 0) : th.claimed = false := by
  rw [h.claimed, hw]
  rfl

theorem Settled.view (h : Settled t th info held)
    (hw : 0 < writeDepth held) : View t th info (readDepth held) (writeDepth held) true := by
  unfold Settled at h
  rwa [decide_eq_true hw] at h

/-- **The steps of a write lock** keep the invariant. -/
theorem Inv.goWrite (h : Inv s) (ht : t < threadsMax)
    (hstep : s.goWrite t (s.thread t).pc = some s') : Inv s' := by
  have hlocal := h.local' t
  unfold Local at hlocal
  cases hpc : (s.thread t).pc with
  | writeStart =>
    rw [hpc] at hstep hlocal
    cases hstep
    obtain ⟨hsettled, hbound⟩ := hlocal
    exact h.goto _ (fun hclaimed _ u => h.drained t u hclaimed (by rw [hpc]; exact nofun))
      ⟨hsettled.goto _, hbound, h.owner hsettled⟩
  | writeFetchOr info =>
    rw [hpc] at hstep hlocal
    obtain ⟨hsettled, hbound, howner⟩ := hlocal
    simp only [State.goWrite] at hstep
    split at hstep
    next hbit =>
      obtain ⟨u, hclaimed_u⟩ := h.claimed_iff.mp hbit
      have hsame : s.futex ||| rwWLock = s.futex := by
        rw [h.futexClaimed u hclaimed_u, add_or_rwWLock (readers_le s)]
      rw [hsame] at hstep
      split at hstep
      next hown =>
        cases hstep
        have hw := howner.mp hown
        exact h.goto _ (fun hclaimed _ u => h.drained t u hclaimed (by rw [hpc]; exact nofun))
          ⟨.inl hw, hbound, (hsettled.view hw).goto _⟩
      next hown =>
        cases hstep
        have hw : writeDepth (s.thread t).held = 0 := Nat.eq_zero_of_not_pos (mt howner.mpr hown)
        refine h.goto _ (fun hclaimed => ?_) ⟨hsettled.goto _, hw, hown⟩
        rw [hsettled.unclaimed hw] at hclaimed
        cases hclaimed
    next hbit =>
      have hbit := not_not.mp hbit
      cases hstep
      have hfree := (h.free hbit).1
      have hw : writeDepth (s.thread t).held = 0 := by
        by_contra hne
        have hclaimed := hsettled.claimed
        rw [hfree t, decide_eq_true (Nat.pos_of_ne_zero hne)] at hclaimed
        cases hclaimed
      refine h.claim hbit (setThread_self ..) (fun _ hu => setThread_of_ne _ _ hu) rfl rfl hw
        ⟨hsettled.record, hsettled.counted, hfree t, fun hfalse => (nomatch hfalse), Nat.zero_le _⟩
  | writeWait info =>
    rw [hpc] at hstep hlocal
    obtain ⟨hsettled, hw, hown⟩ := hlocal
    simp only [State.goWrite] at hstep
    split at hstep
    · cases hstep
      refine h.goto _ (fun hclaimed => ?_) ⟨hsettled.goto _, ?_, ?_⟩
      · rw [hsettled.unclaimed hw] at hclaimed
        cases hclaimed
      · show writeDepth (s.thread t).held < _
        rw [hw]
        decide
      · show info.owner = t ↔ 0 < writeDepth (s.thread t).held
        rw [hw]
        exact ⟨fun heq => absurd heq hown, fun hlt => absurd hlt (lt_irrefl 0)⟩
    · cases hstep
      exact h
  | writeDrain =>
    rw [hpc] at hstep hlocal
    obtain ⟨hw, hview⟩ := hlocal
    simp only [State.goWrite] at hstep
    generalize hwanted :
      (if (s.thread t).record ≠ 0 then rwWLock ||| 1 else rwWLock) = wanted at hstep
    split at hstep
    next hfutex =>
      cases hstep
      -- the readers that the futex shows are this thread, if it has a record
      have hreaders : s.readers = if (s.thread t).record ≠ 0 then 1 else 0 := by
        have hsum := h.futexClaimed t hview.claimed
        rw [hfutex, ← hwanted] at hsum
        split at hsum
        next hrecord =>
          have hone : rwWLock ||| 1 = 1 + rwWLock := by decide
          rw [if_pos hrecord]
          omega
        next hrecord =>
          rw [if_neg hrecord]
          omega
      refine h.goto _ (fun _ _ u hcounted => ?_) ⟨.inr rfl, ?_, ?_⟩
      · have hmem : u ∈ (Finset.range threadsMax).filter fun v => (s.thread v).counted = true :=
          Finset.mem_filter.mpr ⟨Finset.mem_range.mpr (h.range u hcounted), hcounted⟩
        unfold State.readers at hreaders
        split at hreaders
        next hrecord =>
          have hcounted_t : (s.thread t).counted = true := by
            rw [hview.counted, ← hview.record]
            exact decide_eq_true (Nat.pos_of_ne_zero hrecord)
          have hmem_t : t ∈ (Finset.range threadsMax).filter fun v => (s.thread v).counted = true :=
            Finset.mem_filter.mpr ⟨Finset.mem_range.mpr ht, hcounted_t⟩
          obtain ⟨v, hv⟩ := Finset.card_eq_one.mp hreaders
          rw [hv, Finset.mem_singleton] at hmem hmem_t
          exact hmem.trans hmem_t.symm
        next =>
          rw [Finset.card_eq_zero.mp hreaders] at hmem
          exact absurd hmem (Finset.notMem_empty u)
      · show writeDepth (s.thread t).held < _
        rw [hw]
        decide
      · show View t _ s.data _ (writeDepth (s.thread t).held) true
        rw [hw]
        exact ⟨hview.record, hview.counted, hview.claimed, hview.data, hview.bound⟩
    next =>
      cases hstep
      exact h
  | _ =>
    rw [hpc] at hstep
    cases hstep

/-- **The steps of the accounting** keep the invariant. -/
theorem Inv.goAccounting (h : Inv s) (hstep : s.goAccounting t (s.thread t).pc = some s') :
    Inv s' := by
  have hlocal := h.local' t
  unfold Local at hlocal
  cases hpc : (s.thread t).pc with
  | acquire mode =>
    rw [hpc] at hstep hlocal
    obtain ⟨hmode, hbound, hview⟩ := hlocal
    have hdrained : ∀ u, (s.thread u).counted = true → u = t :=
      fun u => h.drained t u hview.claimed (by rw [hpc]; exact nofun)
    have hdata := hview.data rfl
    simp only [State.goAccounting] at hstep
    split at hstep
    next hown =>
      split at hstep
      · cases hstep
      · cases hstep
        refine h.goto _ (fun _ _ => hdrained) ⟨hmode, hbound, ?_, hview.goto _⟩
        rw [hdata] at hown ⊢
        rw [infoOf_pos t ((infoOf_owner t _).mp hown), infoOf_pos t (Nat.succ_pos _)]
        show LockInfo.mk _ (toInt16 ((writeDepth (s.thread t).held : Int) + 1)) = LockInfo.mk _ _
        rw [toInt16_of_lt (by omega) (by omega)]
        rfl
    next hown =>
      split at hstep
      · cases hstep
      next hfree =>
        cases hstep
        have hw : writeDepth (s.thread t).held = 0 := by
          by_contra hne
          rw [hdata] at hown
          exact hown ((infoOf_owner t _).mpr (Nat.pos_of_ne_zero hne))
        refine h.goto _ (fun _ _ => hdrained) ⟨hmode, hbound, ?_, hview.goto _⟩
        show _ = infoOf t (writeDepth (s.thread t).held + 1)
        rw [hw]
        rfl
  | storeAcquired mode info =>
    rw [hpc] at hstep hlocal
    obtain ⟨hmode, hbound, hinfo, hview⟩ := hlocal
    cases hstep
    obtain ⟨hw, hr⟩ := depths_nested hmode
    refine h.stay (setThread_self ..) (fun _ hu => setThread_of_ne _ _ hu) rfl (.inr hview.claimed)
      rfl rfl (fun _ _ u => h.drained t u hview.claimed (by rw [hpc]; exact nofun)) ?_
    show View t _ info (readDepth (mode :: (s.thread t).held)) (writeDepth (mode :: _)) _
    rw [hw, hr]
    refine ⟨hview.record, hview.counted, ?_, fun _ => hinfo, by omega⟩
    rw [decide_eq_true (Nat.succ_pos _)]
    exact hview.claimed
  | release =>
    rw [hpc] at hstep hlocal
    have hview := hlocal
    have hdrained : ∀ u, (s.thread u).counted = true → u = t :=
      fun u => h.drained t u hview.claimed (by rw [hpc]; exact nofun)
    have hdata := hview.data rfl
    rw [infoOf_pos t (Nat.succ_pos _)] at hdata
    have hbound := hview.bound
    have hnesting : toInt16 (s.data.nesting - 1) = writeDepth (s.thread t).held := by
      rw [hdata]
      show toInt16 (((writeDepth (s.thread t).held + 1 : Nat) : Int) - 1) = _
      rw [toInt16_of_lt (by omega) (by omega)]
      omega
    simp only [State.goAccounting] at hstep
    split at hstep
    · cases hstep
    · split at hstep
      next hzero =>
        cases hstep
        rw [hnesting] at hzero
        have hw : writeDepth (s.thread t).held = 0 := by exact_mod_cast hzero
        refine h.stay (setThread_self ..) (fun _ hu => setThread_of_ne _ _ hu) rfl
          (.inr hview.claimed) rfl rfl (fun _ _ => hdrained) ⟨?_, ?_, hview.goto _⟩
        · show _ = infoOf t (writeDepth (s.thread t).held)
          rw [hw]
          rfl
        · exact ⟨fun _ => hw, fun _ => rfl⟩
      next hzero =>
        cases hstep
        rw [hnesting] at hzero
        have hw : writeDepth (s.thread t).held ≠ 0 := by exact_mod_cast hzero
        refine h.stay (setThread_self ..) (fun _ hu => setThread_of_ne _ _ hu) rfl
          (.inr hview.claimed) rfl rfl (fun _ _ => hdrained) ⟨?_, ?_, hview.goto _⟩
        · rw [hnesting, infoOf_pos t (Nat.pos_of_ne_zero hw)]
          show LockInfo.mk s.data.owner _ = _
          rw [hdata]
        · exact ⟨fun hfalse => (nomatch hfalse), fun hzero' => absurd hzero' hw⟩
  | storeReleased info unlock =>
    rw [hpc] at hstep hlocal
    obtain ⟨hinfo, hunlock, hview⟩ := hlocal
    cases hstep
    refine h.stay (setThread_self ..) (fun _ hu => setThread_of_ne _ _ hu) rfl (.inr hview.claimed)
      rfl rfl (fun _ _ u => h.drained t u hview.claimed (by rw [hpc]; exact nofun)) ?_
    have hbound := hview.bound
    cases unlock with
    | true =>
      have hw := hunlock.mp rfl
      rw [hw] at hinfo
      exact ⟨hw, hview.record, hview.counted, hview.claimed, fun _ => hinfo, Nat.zero_le _⟩
    | false =>
      have hw : 0 < writeDepth (s.thread t).held := by
        by_contra hzero
        cases hunlock.mpr (Nat.eq_zero_of_not_pos hzero)
      show View t _ info (readDepth (s.thread t).held) (writeDepth (s.thread t).held) _
      refine ⟨hview.record, hview.counted, ?_, fun _ => hinfo, by omega⟩
      rw [decide_eq_true hw]
      exact hview.claimed
  | _ =>
    rw [hpc] at hstep
    cases hstep

theorem Settled.held_eq_nil (h : Settled t th info held)
    (hclaimed : th.claimed = false) (hcounted : th.counted = false) : held = [] := by
  have hw := h.claimed
  have hr := h.counted
  rw [hclaimed, eq_comm, decide_eq_false_iff_not] at hw
  rw [hcounted, eq_comm, decide_eq_false_iff_not] at hr
  exact eq_nil_of_depths (Nat.eq_zero_of_not_pos hw) (Nat.eq_zero_of_not_pos hr)

/-- **The steps of a read lock** keep it, if no write bit is seen in the loop. -/
theorem Inv.goRead (h : Inv s) (ht : t < threadsMax) {junk : Nat}
    (hquiet : ∀ value desired, (s.thread t).pc = .readLoop value desired → value &&& rwWLock = 0)
    (hstep : s.goRead t junk (s.thread t).pc = some s') : Inv s' := by
  have hlocal := h.local' t
  unfold Local at hlocal
  cases hpc : (s.thread t).pc with
  | readStart =>
    rw [hpc] at hstep hlocal
    cases hstep
    obtain ⟨hsettled, hbound⟩ := hlocal
    exact h.goto _ (fun hclaimed _ u => h.drained t u hclaimed (by rw [hpc]; exact nofun))
      ⟨hsettled.goto _, hbound, h.owner hsettled⟩
  | readCas info =>
    rw [hpc] at hstep hlocal
    obtain ⟨hsettled, hbound, howner⟩ := hlocal
    simp only [State.goRead] at hstep
    split at hstep
    next hzero =>
      cases hstep
      have hbit : s.futex &&& rwWLock = 0 := by
        rw [hzero, Nat.zero_and]
      obtain ⟨hfree, hcount⟩ := h.free hbit
      have hcounted : (s.thread t).counted = false := by
        rw [← Bool.not_eq_true]
        intro hcounted
        have hpos := readers_pos (h.range t hcounted) hcounted
        omega
      have hheld := hsettled.held_eq_nil (hfree t) hcounted
      refine h.count ht hbit ?_ (fun _ hu => setThread_of_ne _ _ hu) (by rw [hzero]; rfl) rfl ?_
      · rw [State.readReturns, setThread_self, hheld]
      · exact hcounted
    next hzero =>
      split at hstep
      next hown =>
        cases hstep
        have hw := howner.mp hown
        exact h.goto _ (fun hclaimed _ u => h.drained t u hclaimed (by rw [hpc]; exact nofun))
          ⟨.inl hw, hbound, (hsettled.view hw).goto _⟩
      next hown =>
        have hw : writeDepth (s.thread t).held = 0 := Nat.eq_zero_of_not_pos (mt howner.mpr hown)
        have hfree := hsettled.unclaimed hw
        split at hstep
        next hrecord =>
          split at hstep
          · cases hstep
            obtain ⟨hw', hr'⟩ := depths_read hw
            refine h.stay (setThread_self ..) (fun _ hu => setThread_of_ne _ _ hu) rfl (.inl rfl)
              rfl rfl (fun hclaimed => ?_) ?_
            · rw [hfree] at hclaimed
              cases hclaimed
            · show View t _ s.data (readDepth (.read :: (s.thread t).held))
                (writeDepth (.read :: _)) _
              rw [hw', hr']
              refine ⟨?_, ?_, hfree, fun hfalse => (nomatch hfalse), Nat.zero_le _⟩
              · rw [hsettled.record]
              · rw [hsettled.counted, ← hsettled.record, decide_eq_true (Nat.succ_pos _)]
                exact decide_eq_true (Nat.pos_of_ne_zero hrecord)
          · cases hstep
        next hrecord =>
          cases hstep
          have hr : readDepth (s.thread t).held = 0 := by
            rw [← hsettled.record]
            exact not_not.mp hrecord
          refine h.goto _ (fun hclaimed => ?_) ⟨hsettled.goto _, eq_nil_of_depths hw hr⟩
          rw [hfree] at hclaimed
          cases hclaimed
  | readLoad =>
    rw [hpc] at hstep hlocal
    cases hstep
    obtain ⟨hsettled, hheld⟩ := hlocal
    exact h.goto _ (fun hclaimed _ u => h.drained t u hclaimed (by rw [hpc]; exact nofun))
      ⟨hsettled.goto _, hheld⟩
  | readLoop value desired =>
    have hbit := hquiet value desired hpc
    rw [hpc] at hstep hlocal
    obtain ⟨hsettled, hheld⟩ := hlocal
    simp only [State.goRead, hbit, ne_eq, not_true_eq_false, if_false] at hstep
    split at hstep
    next heq =>
      cases hstep
      rw [← heq] at hbit ⊢
      have hcount := (h.free hbit).2
      have hle := lt_of_le_threadsMax (readers_le s)
      refine h.count ht hbit ?_ (fun _ hu => setThread_of_ne _ _ hu) ?_ rfl ?_
      · rw [State.readReturns, setThread_self, hheld]
      · show (s.futex + 1) % 2 ^ 32 = s.futex + 1
        rw [Nat.mod_eq_of_lt (by omega)]
      · rw [hsettled.counted, hheld]
        rfl
    next heq =>
      cases hstep
      exact h.goto _ (fun hclaimed _ u => h.drained t u hclaimed (by rw [hpc]; exact nofun))
        ⟨hsettled.goto _, hheld⟩
  | readRetry value desired =>
    rw [hpc] at hlocal
    exact hlocal.elim
  | _ =>
    rw [hpc] at hstep
    cases hstep

/-- **The steps of an unlock** keep the invariant. -/
theorem Inv.goUnlock (h : Inv s) (hstep : s.goUnlock t (s.thread t).pc = some s') : Inv s' := by
  have hlocal := h.local' t
  unfold Local at hlocal
  cases hpc : (s.thread t).pc with
  | unlockStart =>
    rw [hpc] at hstep hlocal
    obtain ⟨mode, hsettled⟩ := hlocal
    have hdrained : (s.thread t).claimed = true → ∀ u, (s.thread u).counted = true → u = t :=
      fun hclaimed u => h.drained t u hclaimed (by rw [hpc]; exact nofun)
    have howner := h.owner hsettled
    simp only [State.goUnlock] at hstep
    split at hstep
    next hown =>
      cases hstep
      have hpos := howner.mp hown
      have hmode : 0 < writeDepth (s.thread t).held ∨ mode = .write := by
        rw [writeDepth] at hpos
        split at hpos
        next hmode => exact hmode.imp_left Nat.pos_of_ne_zero
        next => exact absurd hpos (lt_irrefl 0)
      obtain ⟨hw, hr⟩ := depths_nested hmode
      have hview := hsettled.view hpos
      rw [hw, hr] at hview
      exact h.goto _ (fun hclaimed _ => hdrained hclaimed) (hview.goto _)
    next hown =>
      obtain ⟨rfl, hw⟩ := eq_read_of_depth (Nat.eq_zero_of_not_pos (mt howner.mpr hown))
      obtain ⟨hw', hr'⟩ := depths_read hw
      have hrecord := hsettled.record
      have hcounted := hsettled.counted
      have hclaimed := hsettled.unclaimed hw'
      rw [hr'] at hrecord hcounted
      split at hstep
      · omega
      split at hstep
      next hleft =>
        cases hstep
        refine h.stay (setThread_self ..) (fun _ hu => setThread_of_ne _ _ hu) rfl
          (.inl rfl) rfl rfl
          (fun _ _ => ?_) ?_
        · rename_i hclaimed' _
          rw [hclaimed] at hclaimed'
          cases hclaimed'
        · show View t _ s.data (readDepth (s.thread t).held) (writeDepth (s.thread t).held) _
          rw [hw]
          refine ⟨?_, ?_, hclaimed, fun hfalse => (nomatch hfalse), Nat.zero_le _⟩
          · show (s.thread t).record - 1 = _
            omega
          · show (s.thread t).counted = _
            rw [hcounted, decide_eq_true (Nat.succ_pos _), decide_eq_true]
            omega
      next hlast =>
        cases hstep
        have hr : readDepth (s.thread t).held = 0 := by omega
        refine h.stay (setThread_self ..) (fun _ hu => setThread_of_ne _ _ hu) rfl
          (.inl rfl) rfl rfl
          (fun hclaimed' => ?_) ⟨eq_nil_of_depths hw hr, rfl, ?_, hclaimed⟩
        · rw [hclaimed] at hclaimed'
          cases hclaimed'
        · rw [hcounted, decide_eq_true (Nat.succ_pos _)]
  | clearBit =>
    rw [hpc] at hstep hlocal
    cases hstep
    exact h.unclaim hlocal.2.claimed (setThread_self ..)
      (fun _ hu => setThread_of_ne _ _ hu) rfl rfl
      hlocal.1 hlocal.2
  | uncount =>
    rw [hpc] at hstep hlocal
    cases hstep
    refine h.goto _ (fun hclaimed => ?_) hlocal
    rw [hlocal.2.2.2] at hclaimed
    cases hclaimed
  | uncountCas value =>
    rw [hpc] at hstep hlocal
    simp only [State.goUnlock] at hstep
    split at hstep
    next heq =>
      have hsum := h.futex_bounds (h.range t hlocal.2.2.1) hlocal.2.2.1
      rw [← heq, pred_mod hsum.1 hsum.2] at hstep
      cases hstep
      exact h.uncount (setThread_self ..) (fun _ hu => setThread_of_ne _ _ hu)
        (Nat.succ_pred_eq_of_pos hsum.1) rfl hlocal
    next heq =>
      cases hstep
      refine h.goto _ (fun hclaimed => ?_) hlocal
      rw [hlocal.2.2.2] at hclaimed
      cases hclaimed
  | _ =>
    rw [hpc] at hstep
    cases hstep

/-- Every step of every thread keeps the invariant. -/
theorem Inv.step (h : Inv s) {e : ThreadId × Act} (hquiet : Undisturbed s e)
    (hstep : s.step e = some s') : Inv s' := by
  obtain ⟨t, act⟩ := e
  have hlocal := h.local' t
  unfold Local at hlocal
  unfold State.step at hstep
  dsimp only at hstep
  split at hstep
  next ht =>
    cases act with
    | readLock | writeLock =>
      dsimp only at hstep
      split at hstep
      next hidle =>
        cases hstep
        rw [hidle] at hlocal
        have hsettled : Settled t (s.thread t) s.data (s.thread t).held := hlocal
        exact h.goto _ (fun hclaimed _ u => h.drained t u hclaimed (by rw [hidle]; exact nofun))
          ⟨hsettled.goto _, hquiet⟩
      next => cases hstep
    | unlock =>
      dsimp only at hstep
      split at hstep
      · cases hstep
      next mode held hheld =>
        split at hstep
        next hidle =>
          cases hstep
          rw [hidle, hheld] at hlocal
          have hsettled : Settled t (s.thread t) s.data (mode :: held) := hlocal
          refine h.stay (setThread_self ..) (fun _ hu => setThread_of_ne _ _ hu) rfl (.inl rfl) rfl
            rfl (fun hclaimed _ u => h.drained t u hclaimed (by rw [hidle]; exact nofun)) ?_
          exact ⟨mode, hsettled.record, hsettled.counted, hsettled.claimed, hsettled.data,
            hsettled.bound⟩
        next => cases hstep
    | go junk =>
      dsimp only at hstep
      split at hstep
      · cases hstep
      · exact h.goWrite ht hstep
      · exact h.goWrite ht hstep
      · exact h.goWrite ht hstep
      · exact h.goWrite ht hstep
      · exact h.goAccounting hstep
      · exact h.goAccounting hstep
      · exact h.goAccounting hstep
      · exact h.goAccounting hstep
      · exact h.goRead ht hquiet hstep
      · exact h.goRead ht hquiet hstep
      · exact h.goRead ht hquiet hstep
      · exact h.goRead ht hquiet hstep
      · exact h.goRead ht hquiet hstep
      · exact h.goUnlock hstep
      · exact h.goUnlock hstep
      · exact h.goUnlock hstep
      · exact h.goUnlock hstep
  next => cases hstep

theorem inv_init : Inv State.init where
  local' _ := ⟨rfl, rfl, rfl, fun hfalse => (nomatch hfalse), Nat.zero_le _⟩
  range _ hcounted := nomatch hcounted
  unique _ _ hclaimed := nomatch hclaimed
  drained _ _ hclaimed := nomatch hclaimed
  futexClaimed _ hclaimed := nomatch hclaimed
  futexFree _ := by
    refine ⟨?_, rfl⟩
    refine (Finset.card_eq_zero.mpr ?_).symm
    rw [Finset.filter_eq_empty_iff]
    exact fun _ _ hcounted => nomatch hcounted

theorem inv_of_run (h : Run State.step Undisturbed State.init s) : Inv s :=
  h.invariant inv_init fun _ _ _ hinv hquiet hstep => hinv.step hquiet hstep

/-! ## Exclusion -/

/-- Who is in a write lock has claimed it, and waits for nobody. -/
theorem Local.writing (h : Local t th info) (hw : 0 < writeDepth th.held) :
    th.claimed = true ∧ th.pc ≠ .writeDrain := by
  constructor
  · rcases h.view with ⟨_, _, _, hview, -, hclaim⟩ | ⟨hnil, -⟩
    · exact hview.claimed.trans (hclaim hw)
    · rw [hnil] at hw
      exact absurd hw (lt_irrefl 0)
  · intro hpc
    rw [Local, hpc] at h
    exact absurd h.1 (Nat.ne_of_gt hw)

/-- Who holds only read locks has counted itself. -/
theorem Local.reading (h : Local t th info) (hw : writeDepth th.held = 0)
    (hheld : th.held ≠ []) : th.counted = true := by
  have hr : 0 < readDepth th.held := by
    by_contra hzero
    exact hheld (eq_nil_of_depths hw (Nat.eq_zero_of_not_pos hzero))
  rcases h.view with ⟨_, _, _, hview, hle, -⟩ | ⟨hnil, -⟩
  · exact hview.counted.trans (decide_eq_true (hr.trans_le hle))
  · exact absurd hnil hheld

/-- The invariant gives the exclusion. -/
theorem Inv.excludes (h : Inv s) : Excludes s where
  exclusive t u hwrite hheld := by
    obtain ⟨hclaimed, hpc⟩ := (h.local' t).writing (writeDepth_pos.mpr hwrite)
    rcases Nat.eq_zero_or_pos (writeDepth (s.thread u).held) with hw | hw
    · exact h.drained t u hclaimed hpc ((h.local' u).reading hw hheld)
    · exact h.unique t u hclaimed ((h.local' u).writing hw).1
  claimed := h.futexClaimed
  free hfree := (h.futexFree hfree).1

/-- **Writers are excluded** in every run of any number of threads in which no reader looks at a
value with the write bit. -/
theorem excludes_of_run (h : Run State.step Undisturbed State.init s) : Excludes s :=
  (inv_of_run h).excludes

/-- A writer claims the lock while another thread reads, and has it when that one has gone. -/
theorem excludes_writeLock : ∃ s, (s.thread 7).held = [] ∧ (s.thread 8).held = [.write] ∧
    Excludes s := by
  have init : Run State.step Undisturbed State.init State.init := .refl
  have hdepth : writeDepth [] < 2 ^ 15 - 1 := by decide
  have starting := init.tail (e := (7, Act.readLock)) hdepth rfl
  have counting := starting.tail (e := (7, .go 0)) (fun _ _ hpc => Pc.noConfusion hpc) rfl
  have reading := counting.tail (e := (7, .go 0)) (fun _ _ hpc => Pc.noConfusion hpc) rfl
  have calling := reading.tail (e := (8, Act.writeLock)) hdepth rfl
  have fetching := calling.tail (e := (8, .go 0)) (fun _ _ hpc => Pc.noConfusion hpc) rfl
  have claimed := fetching.tail (e := (8, .go 0)) (fun _ _ hpc => Pc.noConfusion hpc) rfl
  -- the reader is still counted
  have waiting := claimed.tail (e := (8, .go 0)) (fun _ _ hpc => Pc.noConfusion hpc) rfl
  have leaving := waiting.tail (e := (7, Act.unlock)) trivial rfl
  have forgotten := leaving.tail (e := (7, .go 0)) (fun _ _ hpc => Pc.noConfusion hpc) rfl
  have loaded := forgotten.tail (e := (7, .go 0)) (fun _ _ hpc => Pc.noConfusion hpc) rfl
  have left := loaded.tail (e := (7, .go 0)) (fun _ _ hpc => Pc.noConfusion hpc) rfl
  have drained := left.tail (e := (8, .go 0)) (fun _ _ hpc => Pc.noConfusion hpc) rfl
  have acquired := drained.tail (e := (8, .go 0)) (fun _ _ hpc => Pc.noConfusion hpc) rfl
  have stored := acquired.tail (e := (8, .go 0)) (fun _ _ hpc => Pc.noConfusion hpc) rfl
  exact ⟨_, rfl, rfl, excludes_of_run stored⟩

/-- A reader that waits for a writer stores what an uninitialised variable holds, and returns. -/
theorem not_excludes :
    ¬ ∀ s, Run State.step (fun _ _ => True) State.init s → Excludes s := by
  intro hall
  let events : List (ThreadId × Act) :=
    [(7, .writeLock), (7, .go 0), (7, .go 0), (7, .go 0), (7, .go 0), (7, .go 0),
      (8, .readLock), (8, .go 0), (8, .go 0), (8, .go 1), (8, .go 0), (8, .go 0)]
  obtain ⟨s, hs, hwriter, hreader⟩ : ∃ s, events.foldlM State.step State.init = some s ∧
      (s.thread 7).held = [.write] ∧ (s.thread 8).held = [.read] := ⟨_, rfl, rfl, rfl⟩
  have hsame := (hall s (.of_foldlM (fun _ _ _ => trivial) hs)).exclusive 7 8
    (by rw [hwriter]; exact .head _) (by rw [hreader]; exact nofun)
  cases hsame

end N00b.Mt.Rw
