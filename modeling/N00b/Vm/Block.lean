import N00b.Vm.Machine

/-!
# Blocks of code

Where a block of instructions lies in the code, the runs that stay in it, and what a piece of code
that works on top of the stack leaves alone.
-/

namespace N00b.Vm

open N00b.Lib

section

variable {H : Type} (host : Host H) {code : List Instr}

/-- The block lies in the code at `base`. -/
def BlockAt (code : List Instr) (base : Nat) (block : List Instr) : Prop :=
  ∃ before after, code = before ++ (block ++ after) ∧ before.length = base

variable {base : Nat}

theorem BlockAt.left {b c : List Instr} (h : BlockAt code base (b ++ c)) :
    BlockAt code base b := by
  obtain ⟨before, after, hcode, hbase⟩ := h
  exact ⟨before, c ++ after, by rw [hcode, List.append_assoc], hbase⟩

theorem BlockAt.right {b c : List Instr} (h : BlockAt code base (b ++ c)) :
    BlockAt code (base + b.length) c := by
  obtain ⟨before, after, hcode, hbase⟩ := h
  refine ⟨before ++ b, after, ?_, ?_⟩
  · rw [hcode, List.append_assoc, List.append_assoc]
  · rw [List.length_append, hbase]

theorem BlockAt.head {i : Instr} {b : List Instr} (h : BlockAt code base (i :: b)) :
    code[base]? = some i := by
  obtain ⟨before, after, rfl, rfl⟩ := h
  rw [List.getElem?_append_right le_rfl, Nat.sub_self]
  rfl

theorem BlockAt.tail {base : Nat} {i : Instr} {b : List Instr} (h : BlockAt code base (i :: b)) :
    BlockAt code (base + 1) b := by
  have hr : BlockAt code (base + [i].length) b := BlockAt.right (b := [i]) h
  exact hr

def InBlock (lo hi : Nat) (st : VmState H) : Prop := lo ≤ st.pc ∧ st.pc < hi

/-- The run from `st` through the block. -/
abbrev Runs (code : List Instr) (lo hi : Nat) : VmState H → StepResult H → Prop :=
  RunIn (step host code) (InBlock lo hi)

end

section

variable {H : Type} {host : Host H} {code : List Instr}

/-- A block lies within a larger one. -/
theorem InBlock.mono {lo hi lo' hi' : Nat} (hlo : lo' ≤ lo) (hhi : hi ≤ hi') :
    ∀ st : VmState H, InBlock lo hi st → InBlock lo' hi' st := by
  intro st h
  exact ⟨hlo.trans h.1, lt_of_lt_of_le h.2 hhi⟩

/-- A block that has been left runs no further. -/
theorem runs_leave {lo hi : Nat} {st : VmState H} (h : st.pc = hi) :
    Runs host code lo hi st (.ok st) := by
  refine .leave ?_
  intro hin
  have := hin.2
  omega

/-! ## Single instructions -/

variable {st st' : VmState H}

/-- A step that needs values and succeeds had them. -/
theorem requireValues_eq_ok {n : Nat} {k : StepResult H}
    (h : requireValues n st k = .ok st') : k = .ok st' := by
  unfold requireValues at h
  split at h
  · exact h
  · cases h

/-- A step that needs slots and succeeds had them. -/
theorem requireSlots_eq_ok {n : Nat} {k : StepResult H}
    (h : requireSlots n st k = .ok st') : n ≤ st.sp ∧ k = .ok st' := by
  unfold requireSlots at h
  split at h
  · exact ⟨‹_›, h⟩
  · cases h

/-- A host call moves on and pops and pushes what it says. -/
theorem hostCall_eq_ok {op : HostOp} {pops pushes : Nat}
    (h : hostCall host op pops pushes st = .ok st') :
    st'.pc = st.pc + 1 ∧ st'.sp = st.sp + pops - pushes := by
  unfold hostCall at h
  split at h
  · cases h
  · cases h
    exact ⟨rfl, rfl⟩

@[simp] theorem pc_store (ptr w : Word) (st : VmState H) : (store host ptr w st).pc = st.pc := by
  unfold store
  split <;> rfl

@[simp] theorem sp_store (ptr w : Word) (st : VmState H) : (store host ptr w st).sp = st.sp := by
  unfold store
  split <;> rfl

/-- Unpacking moves on and drops what it stores. -/
theorem unpackLoop_eq_ok {arg n : Nat}
    (h : unpackLoop host arg n st = .ok st') : st'.pc = st.pc + 1 ∧ st'.sp = st.sp + n := by
  induction n generalizing st with
  | zero =>
    cases h
    exact ⟨rfl, rfl⟩
  | succ n ih =>
    rw [unpackLoop] at h
    split at h
    · cases h
    · obtain ⟨hpc, hsp⟩ := ih h
      simp only [VmState.drop, pc_store, sp_store] at hpc hsp
      exact ⟨hpc, by omega⟩

/-! ## What a run leaves alone -/

/-- Slots of the frame and of the stack so far, variables and everything outside are the same. -/
structure Keeps (st st' : VmState H) : Prop where
  sp_le : st'.sp ≤ st.sp
  stack_eq : ∀ a, st.sp ≤ a → st'.stack a = st.stack a
  statics_eq : st'.statics = st.statics
  fp_eq : st'.fp = st.fp

/-- What two runs keep, both keep. -/
theorem Keeps.trans {st₁ st₂ st₃ : VmState H} (h : Keeps st₁ st₂) (h' : Keeps st₂ st₃) :
    Keeps st₁ st₃ where
  sp_le := h'.sp_le.trans h.sp_le
  stack_eq a ha := (h'.stack_eq a (h.sp_le.trans ha)).trans (h.stack_eq a ha)
  statics_eq := h'.statics_eq.trans h.statics_eq
  fp_eq := h'.fp_eq.trans h.fp_eq

/-- Dropping what was pushed keeps the slots below. -/
theorem Keeps.drop {n : Nat} (h : Keeps st st') (hn : st'.sp + n ≤ st.sp) :
    Keeps st (st'.drop n) :=
  ⟨hn, h.stack_eq, h.statics_eq, h.fp_eq⟩

/-- A push keeps the slots below. -/
theorem Keeps.push {st : VmState H} {w : Word} (h : 1 ≤ st.sp) : Keeps st (st.push w).next where
  sp_le := Nat.sub_le _ _
  stack_eq a ha := Function.update_of_ne (by omega) _ _
  statics_eq := rfl
  fp_eq := rfl

end

/-! ## A machine without a runtime -/

def noHost : Host Unit where
  locOf := .heap
  refOf _ := 0
  read _ _ := 0
  write _ _ _ := ()
  call _ _ _ := .error (.raise "exception")

/-- Ten slots of free stack, and the module variable `0` of module `0` holds `7`. -/
def sampleState : VmState Unit where
  pc := 0
  sp := 10
  fp := 20
  stack _ := 0
  statics _ _ := 7
  regs _ := 0
  host := ()

end N00b.Vm
