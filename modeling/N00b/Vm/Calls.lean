import N00b.Vm.Block

/-!
# Calls and returns

A call pushes the program counter and the module id in one word, then the frame pointer, and points
the frame pointer at it; a return goes back through the two words. Beside that the thread counts its
frames.

`Run` is a run of the machine together with the contexts of the calls that have not returned, as
they were in force at the calls.

## Representation

* `module_id` is the index of a module in `module_contents`, so a module stands for its index.
* A pointer to a slot of the stack is a word, `StackBase.ptr`.

## Main results

* `unpack_pack`: the return word holds program counters and module ids below `2 ^ 32`.
* `Run.frames`: the saved words of all open calls are on the stack, chained by the frame pointers.
-/

namespace N00b.Vm

open N00b.Lib

/-! ## The return word -/

/-- `((uint64_t)pc << 32u) | module_id`. -/
def pack (pc moduleId : Nat) : Word := BitVec.ofNat 64 pc <<< 32 ||| BitVec.ofNat 64 moduleId

def unpackPc (v : Word) : Nat := (v >>> 32).toNat

def unpackModule (v : Word) : Nat := (v &&& 0xFFFFFFFF).toNat

/-- A packed word is its two halves. -/
theorem toNat_pack {pc moduleId : Nat} (hpc : pc < 2 ^ 32) (hm : moduleId < 2 ^ 32) :
    (pack pc moduleId).toNat = pc * 2 ^ 32 + moduleId := by
  have hpc' : pc % 2 ^ 64 = pc := Nat.mod_eq_of_lt (by omega)
  have hm' : moduleId % 2 ^ 64 = moduleId := Nat.mod_eq_of_lt (by omega)
  have hshift : pc <<< 32 % 2 ^ 64 = pc <<< 32 := Nat.mod_eq_of_lt (by rw [Nat.shiftLeft_eq]; omega)
  rw [pack, BitVec.toNat_or, BitVec.toNat_shiftLeft, BitVec.toNat_ofNat, BitVec.toNat_ofNat, hpc',
    hm', hshift, ← Nat.shiftLeft_add_eq_or_of_lt hm, Nat.shiftLeft_eq]

/-- The two halves of a packed word come back. -/
theorem unpack_pack {pc moduleId : Nat} (hpc : pc < 2 ^ 32) (hm : moduleId < 2 ^ 32) :
    unpackPc (pack pc moduleId) = pc ∧ unpackModule (pack pc moduleId) = moduleId := by
  constructor
  · rw [unpackPc, BitVec.toNat_ushiftRight, toNat_pack hpc hm, Nat.shiftRight_eq_div_pow]
    omega
  · have hand : ∀ n : Nat, n &&& 4294967295 = n % 4294967296 :=
      fun n => Nat.and_two_pow_sub_one_eq_mod n 32
    rw [unpackModule, BitVec.toNat_and, toNat_pack hpc hm]
    show (pc * 2 ^ 32 + moduleId) &&& 4294967295 = moduleId
    rw [hand]
    omega

/-! ## Pointers to stack slots -/

/-- Where the stack of the thread lies in memory. -/
structure StackBase where
  addr : Nat
  fits : addr + 8 * stackSize < 2 ^ 64

def StackBase.ptr (base : StackBase) (slot : Nat) : Word := BitVec.ofNat 64 (base.addr + 8 * slot)

def StackBase.slot (base : StackBase) (ptr : Word) : Nat := (ptr.toNat - base.addr) / 8

/-- A slot comes back from its pointer. -/
theorem StackBase.slot_ptr (base : StackBase) {slot : Nat} (h : slot ≤ stackSize) :
    base.slot (base.ptr slot) = slot := by
  have hfits := base.fits
  rw [StackBase.slot, StackBase.ptr, BitVec.toNat_ofNat, Nat.mod_eq_of_lt (by omega)]
  omega

/-! ## Object files and threads -/

/-- The instructions that call and return, beside those of `Instr`. -/
inductive ZOp where
  | plain (i : Instr)
  | call0 (arg : Int)
  | callModule (moduleId : Int)
  | runCallback (arg : Int)
  | ret
  | moduleEnter
  | moduleRet

structure ZInstr where
  op : ZOp
  lineNo : Int

/-- `n00b_zfn_info_t`. -/
structure FnInfo where
  mid : Int
  offset : Nat

/-- `n00b_zobject_file_t`. Instruction indices and module ids are below `2 ^ 31`. -/
structure ObjectFile where
  modules : List (List ZInstr)
  funcInfo : List FnInfo
  few : modules.length ≤ 2 ^ 31
  short : ∀ code ∈ modules, code.length ≤ 2 ^ 31

/-- The index that `n00b_list_get` reads; negative ones count from the end. -/
def listIndex (length : Nat) (ix : Int) : Option Nat :=
  let ix := if ix < 0 then ix + length else ix
  if 0 ≤ ix ∧ ix < length then some ix.toNat else none

/-- `n00b_vmframe_t`. -/
structure VmFrame where
  callModule : Nat
  callLineNo : Int
  targetLine : Int
  targetModule : Nat
  targetFunc : Option FnInfo
  pc : Nat

/-- `n00b_vmthread_t`, with the call stack. -/
structure ThreadState (H : Type) where
  vm : VmState H
  currentModule : Nat
  numFrames : Nat
  frameStack : Nat → VmFrame

/-- A callback object: its function and whether that is a foreign one. -/
structure Callback where
  impl : Int
  ffi : Bool

/-- What callbacks ask of the runtime: the object behind the pointer, and a foreign call, which
gives the value of `r0`. -/
structure CallbackHost (H : Type) where
  callback : Word → H → Callback
  ffiCall : Int → VmState H → Option (Word × H)

/-- How the run loop ends: with a fault, or at the end of the entry module. -/
inductive Halt where
  | fault (f : Fault)
  | finished

/-- `N00B_MAX_CALL_DEPTH`. -/
def maxCallDepth : Nat := 100

section

variable {H : Type} (base : StackBase) (obj : ObjectFile) (host : Host H) (cbs : CallbackHost H)

def ObjectFile.instrAt (m pc : Nat) : Option ZInstr := (obj.modules[m]?).bind (·[pc]?)

/-- `n00b_vmframe_push`. -/
def vmframePush (frame : VmFrame) (st : ThreadState H) : Next (ThreadState H) Halt :=
  if st.numFrames = maxCallDepth then
    .halt (.fault (.raise "maximum call depth reached"))
  else
    .ok { st with
      frameStack := Function.update st.frameStack st.numFrames frame
      numFrames := st.numFrames + 1 }

/-- Where a call goes: a module, a program counter and a function. -/
structure Target where
  module : Nat
  pc : Nat
  fn : Option FnInfo

/-- What `n00b_vm_0call` and `n00b_vm_call_module` share: the two saved words, and the jump to the
target. A stack pointer above the stack points at nothing. -/
def enter (i : ZInstr) (target : Option Target) (st : ThreadState H) :
    Next (ThreadState H) Halt :=
  let vm := st.vm
  if vm.sp < 2 then .halt (.fault (.raise "stack overflow"))
  else if stackSize < vm.sp then .halt (.fault .undefined)
  else
    let saved := (vm.push (pack vm.pc st.currentModule)).push (base.ptr vm.fp)
    match target with
    | none => .halt (.fault .undefined)
    | some t =>
      match obj.instrAt t.module t.pc with
      | none => .halt (.fault .undefined)
      | some next =>
        vmframePush ⟨st.currentModule, i.lineNo, next.lineNo, t.module, t.fn, vm.pc⟩
          { st with vm := { saved with fp := saved.sp, pc := t.pc }, currentModule := t.module }

/-- The function with the number `ix`; numbers start at 1. -/
def ObjectFile.funcTarget (ix : Int) : Option Target := do
  let j ← listIndex obj.funcInfo.length (ix - 1)
  let fn ← obj.funcInfo[j]?
  let m ← listIndex obj.modules.length fn.mid
  return ⟨m, fn.offset, some fn⟩

/-- `n00b_vm_0call`. -/
def vm0call (i : ZInstr) (ix : Int) (st : ThreadState H) : Next (ThreadState H) Halt :=
  enter base obj i (obj.funcTarget ix) st

/-- `n00b_vm_call_module`. -/
def vmCallModule (i : ZInstr) (moduleId : Int) (st : ThreadState H) : Next (ThreadState H) Halt :=
  enter base obj i ((listIndex obj.modules.length moduleId).map fun m => ⟨m, 0, none⟩) st

/-- `n00b_vm_run_callback`, in the run loop: `running` is set. -/
def vmRunCallback (i : ZInstr) (arg : Int) (st : ThreadState H) : Next (ThreadState H) Halt :=
  let cb := cbs.callback (st.vm.peek 0) st.vm.host
  let vm := st.vm.drop 1
  if stackSize < vm.sp then .halt (.fault (.raise "stack underflow"))
  else if cb.ffi then
    match cbs.ffiCall arg vm with
    | none => .halt (.fault (.raise "exception"))
    | some (r0, h) =>
      .ok { st with vm := { vm with regs := Function.update vm.regs .r0 r0, host := h } }
  else
    vm0call base obj i cb.impl { st with vm := vm }

/-- `n00b_vm_return`. -/
def vmReturn (st : ThreadState H) : Next (ThreadState H) Halt :=
  if st.numFrames = 0 then
    .halt (.fault (.raise "call stack underflow"))
  else
    let sp := st.vm.fp
    let v := st.vm.stack (sp + 1)
    match listIndex obj.modules.length (unpackModule v) with
    | none => .halt (.fault .undefined)
    | some m =>
      .ok { st with
        vm := { st.vm with fp := base.slot (st.vm.stack sp), pc := unpackPc v, sp := sp + 2 }
        currentModule := m
        numFrames := st.numFrames - 1 }

/-- `++tstate->pc` behind the `switch`. -/
def advance : Next (ThreadState H) Halt → Next (ThreadState H) Halt
  | .ok st => .ok { st with vm := st.vm.next }
  | .halt h => .halt h

def stepThread (st : ThreadState H) : Next (ThreadState H) Halt :=
  match obj.instrAt st.currentModule st.vm.pc with
  | none => .halt (.fault .undefined)
  | some i =>
    match i.op with
    | .plain instr =>
      match execInstr host instr st.vm with
      | .ok vm => .ok { st with vm := vm }
      | .halt f => .halt (.fault f)
    | .call0 arg => advance (vm0call base obj i arg st)
    | .callModule m => advance (vmCallModule base obj i m st)
    | .runCallback arg => advance (vmRunCallback base obj cbs i arg st)
    | .ret => advance (vmReturn base obj st)
    | .moduleEnter => advance (.ok st)
    | .moduleRet => if st.numFrames ≤ 2 then .halt .finished else advance (vmReturn base obj st)

end

/-! ## Runs -/

structure Context where
  sp : Nat
  fp : Nat
  pc : Nat
  module : Nat
  deriving DecidableEq

section

variable {H : Type} (base : StackBase) (obj : ObjectFile) (host : Host H) (cbs : CallbackHost H)

/-- What the next instruction does to the calls: it makes one, ends one, or leaves them alone. -/
inductive Effect where
  | plain
  | call (context : Context)
  | ret
  deriving DecidableEq

/-- A callback is off the stack when its function is called. -/
def ZOp.effect (op : ZOp) (st : ThreadState H) : Effect :=
  let here (sp : Nat) : Effect := .call ⟨sp, st.vm.fp, st.vm.pc, st.currentModule⟩
  match op with
  | .plain _ | .moduleEnter => .plain
  | .call0 _ | .callModule _ => here st.vm.sp
  | .runCallback _ =>
    if (cbs.callback (st.vm.peek 0) st.vm.host).ffi then .plain else here (st.vm.sp + 1)
  | .ret | .moduleRet => .ret

def ThreadState.effect (st : ThreadState H) : Option Effect :=
  (obj.instrAt st.currentModule st.vm.pc).map fun i => i.op.effect cbs st

/-- No saved word of an open call is written. -/
def KeepsSaved (opened : List Context) (st st' : ThreadState H) : Prop :=
  ∀ c ∈ opened, st'.vm.stack (c.sp - 2) = st.vm.stack (c.sp - 2) ∧
    st'.vm.stack (c.sp - 1) = st.vm.stack (c.sp - 1)

/-- `n00b_vmthread_reset`, then the frame that `n00b_vmthread_run` pushes. -/
def startState (entry : Nat) (vm : VmState H) (frames : Nat → VmFrame) : ThreadState H where
  vm := { vm with sp := stackSize, fp := stackSize, pc := 0 }
  currentModule := entry
  numFrames := 2
  frameStack := Function.update frames 1 ⟨entry, 0, 0, entry, none, 0⟩

/-- The states that a run reaches from the start, with the calls that have not returned, the last
one first. No instruction writes the saved words, and each return has a call. -/
inductive Run : ThreadState H → List Context → Prop
  | start (entry : Nat) (vm : VmState H) (frames : Nat → VmFrame) :
      Run (startState entry vm frames) []
  | plain {st st' : ThreadState H} {opened : List Context} (hrun : Run st opened)
      (heff : st.effect obj cbs = some .plain) (hstep : stepThread base obj host cbs st = .ok st')
      (hkeep : KeepsSaved opened st st') : Run st' opened
  | call {st st' : ThreadState H} {opened : List Context} {c : Context} (hrun : Run st opened)
      (heff : st.effect obj cbs = some (.call c))
      (hstep : stepThread base obj host cbs st = .ok st')
      (hkeep : KeepsSaved opened st st') : Run st' (c :: opened)
  | ret {st st' : ThreadState H} {opened : List Context} {c : Context} (hrun : Run st (c :: opened))
      (heff : st.effect obj cbs = some .ret) (hstep : stepThread base obj host cbs st = .ok st') :
      Run st' opened

end

/-! ## Single instructions -/

section

variable {H : Type} {base : StackBase} {obj : ObjectFile} {host : Host H} {cbs : CallbackHost H}

/-- A store leaves the frame pointer. -/
theorem store_fp (ptr w : Word) (st : VmState H) : (store host ptr w st).fp = st.fp := by
  unfold store
  split <;> rfl

/-- Unpacking leaves the frame pointer. -/
theorem unpackLoop_fp {arg n : Nat} {st st' : VmState H} (h : unpackLoop host arg n st = .ok st') :
    st'.fp = st.fp := by
  induction n generalizing st with
  | zero =>
    cases h
    rfl
  | succ n ih =>
    unfold unpackLoop at h
    split at h
    · cases h
    · rw [ih h]
      exact store_fp _ _ _

/-- A host call leaves the frame pointer. -/
theorem hostCall_fp {op : HostOp} {pops pushes : Nat} {st st' : VmState H}
    (h : hostCall host op pops pushes st = .ok st') : st'.fp = st.fp := by
  unfold hostCall at h
  split at h
  · cases h
  · cases h
    rfl

/-- An instruction without a call leaves the frame pointer. -/
theorem execInstr_fp {i : Instr} {st st' : VmState H} (h : execInstr host i st = .ok st') :
    st'.fp = st.fp := by
  cases i with
  | unpack arg => exact unpackLoop_fp h
  | assignToLoc =>
    cases requireValues_eq_ok h
    exact store_fp _ _ _
  | moveSp arg =>
    unfold execInstr at h
    simp only at h
    split at h
    · cases (requireSlots_eq_ok h).2
      rfl
    · cases h
      rfl
  | pushConstObj arg => exact hostCall_fp (requireSlots_eq_ok h).2
  | float op => exact hostCall_fp (requireValues_eq_ok h)
  | pushObjType => exact hostCall_fp (requireSlots_eq_ok h).2
  | typeCmp => exact hostCall_fp (requireValues_eq_ok h)
  | loadFromView kv => exact hostCall_fp (requireSlots_eq_ok (requireValues_eq_ok h)).2
  | loadFromAttr flag | assignAttr lock => exact hostCall_fp (requireValues_eq_ok h)
  | tcall fn ty =>
    have h' := (requireSlots_eq_ok (requireValues_eq_ok h)).2
    split at h'
    · cases h'
      rfl
    · exact hostCall_fp h'
  | jz arg | jnz arg =>
    have h' := requireValues_eq_ok h
    split at h' <;> cases h' <;> rfl
  | arith op | shlI arg =>
    have h' := requireValues_eq_ok h
    split at h' <;> cases h'
    rfl
  | subNoPop =>
    have h' := (requireSlots_eq_ok (requireValues_eq_ok h)).2
    split at h' <;> cases h'
    rfl
  | pushFrom r => cases r <;> cases (requireSlots_eq_ok h).2 <;> rfl
  | nop | j =>
    cases h
    rfl
  | pushImm | pushLocalObj | pushLocalRef | pushStaticObj | pushStaticRef =>
    cases (requireSlots_eq_ok h).2
    rfl
  | pop | deref | compare | not | abs | getSign | swap | popTo =>
    cases requireValues_eq_ok h
    rfl
  | dupTop | gteNoPop | cmpNoPop | unsteal =>
    cases (requireSlots_eq_ok (requireValues_eq_ok h)).2
    rfl

/-- A call made in the context `c` has saved it. -/
structure Entered (base : StackBase) (c : Context) (frames : Nat) (st' : ThreadState H) : Prop where
  two_le : 2 ≤ c.sp
  le_size : c.sp ≤ stackSize
  fp : st'.vm.fp = c.sp - 2
  savedFp : st'.vm.stack (c.sp - 2) = base.ptr c.fp
  savedPc : st'.vm.stack (c.sp - 1) = pack c.pc c.module
  numFrames : st'.numFrames = frames + 1

variable {st st' : ThreadState H}

/-- Pushing a frame counts it and leaves the machine. -/
theorem vmframePush_ok {frame : VmFrame}
    (h : vmframePush frame st = .ok st') : st'.vm = st.vm ∧ st'.numFrames = st.numFrames + 1 := by
  unfold vmframePush at h
  split at h
  · cases h
  · cases h
    exact ⟨rfl, rfl⟩

/-- A step that succeeds moves on to the next instruction. -/
theorem advance_ok {r : Next (ThreadState H) Halt} {st' : ThreadState H}
    (h : advance r = .ok st') : ∃ st, r = .ok st ∧ st' = { st with vm := st.vm.next } := by
  cases r with
  | ok st =>
    cases h
    exact ⟨st, rfl, rfl⟩
  | halt f => cases h

/-- Entering a function records where it was called from. -/
theorem advance_enter_ok {i : ZInstr} {target : Option Target}
    (h : advance (enter base obj i target st) = .ok st') :
    Entered base ⟨st.vm.sp, st.vm.fp, st.vm.pc, st.currentModule⟩ st.numFrames st' := by
  obtain ⟨st₁, hst₁, rfl⟩ := advance_ok h
  unfold enter at hst₁
  simp only at hst₁
  split at hst₁
  · cases hst₁
  · split at hst₁
    · cases hst₁
    · split at hst₁
      · cases hst₁
      · split at hst₁
        · cases hst₁
        · rename_i hlo hhi _ t _ next _
          obtain ⟨hvm, hnum⟩ := vmframePush_ok hst₁
          refine ⟨by show 2 ≤ st.vm.sp; omega, Nat.not_lt.mp hhi, ?_, ?_, ?_, hnum⟩
          · show st₁.vm.fp = _
            rw [hvm]
            show st.vm.sp - 1 - 1 = st.vm.sp - 2
            omega
          · show st₁.vm.stack (st.vm.sp - 2) = _
            rw [hvm, show st.vm.sp - 2 = st.vm.sp - 1 - 1 by omega]
            exact Function.update_self _ _ _
          · show st₁.vm.stack (st.vm.sp - 1) = _
            rw [hvm]
            refine (Function.update_of_ne ?_ _ _).trans (Function.update_self _ _ _)
            show st.vm.sp - 1 ≠ st.vm.sp - 1 - 1
            omega

/-! ## The three kinds of steps -/

/-- The effect of a state is that of the instruction at its pc. -/
theorem effect_eq_some {st : ThreadState H} {e : Effect} (h : st.effect obj cbs = some e) :
    ∃ i, obj.instrAt st.currentModule st.vm.pc = some i ∧ i.op.effect cbs st = e := by
  obtain ⟨i, hi, he⟩ := Option.map_eq_some_iff.mp h
  exact ⟨i, hi, he⟩

/-- An instruction lies in a module, below 2^31. -/
theorem bounds_of_instrAt {m pc : Nat} {i : ZInstr} (h : obj.instrAt m pc = some i) :
    m < obj.modules.length ∧ pc < 2 ^ 31 := by
  obtain ⟨code, hcode, hi⟩ := Option.bind_eq_some_iff.mp h
  obtain ⟨hm, rfl⟩ := List.getElem?_eq_some_iff.mp hcode
  obtain ⟨hpc, -⟩ := List.getElem?_eq_some_iff.mp hi
  exact ⟨hm, hpc.trans_le (obj.short _ (List.getElem_mem hm))⟩

/-- A plain step leaves the frames. -/
theorem plain_step (heff : st.effect obj cbs = some .plain)
    (hstep : stepThread base obj host cbs st = .ok st') :
    st'.vm.fp = st.vm.fp ∧ st'.numFrames = st.numFrames := by
  obtain ⟨i, hi, he⟩ := effect_eq_some heff
  obtain ⟨op, line⟩ := i
  unfold stepThread at hstep
  rw [hi] at hstep
  cases op with
  | plain instr =>
    simp only at hstep
    split at hstep
    next vm hvm =>
      cases hstep
      exact ⟨execInstr_fp hvm, rfl⟩
    next => cases hstep
  | moduleEnter =>
    cases hstep
    exact ⟨rfl, rfl⟩
  | runCallback arg =>
    obtain ⟨st₁, hst₁, rfl⟩ := advance_ok hstep
    unfold vmRunCallback at hst₁
    simp only at hst₁
    split at hst₁
    · cases hst₁
    · split at hst₁
      · split at hst₁
        · cases hst₁
        · cases hst₁
          exact ⟨rfl, rfl⟩
      next hffi => simp [ZOp.effect, hffi] at he
  | call0 | callModule | ret | moduleRet => simp [ZOp.effect] at he

/-- A call enters its target. -/
theorem call_step {c : Context}
    (heff : st.effect obj cbs = some (.call c))
    (hstep : stepThread base obj host cbs st = .ok st') :
    Entered base c st.numFrames st' ∧ c.fp = st.vm.fp ∧ c.pc < 2 ^ 31 ∧
      c.module < obj.modules.length := by
  obtain ⟨i, hi, he⟩ := effect_eq_some heff
  obtain ⟨hm, hpc⟩ := bounds_of_instrAt hi
  obtain ⟨op, line⟩ := i
  unfold stepThread at hstep
  rw [hi] at hstep
  cases op with
  | call0 arg | callModule m =>
    obtain rfl : _ = c := Effect.call.inj he
    exact ⟨advance_enter_ok hstep, rfl, hpc, hm⟩
  | runCallback arg =>
    cases hffi : (cbs.callback (st.vm.peek 0) st.vm.host).ffi with
    | true => simp [ZOp.effect, hffi] at he
    | false =>
      simp only [ZOp.effect, hffi, Bool.false_eq_true, if_false] at he
      obtain rfl : _ = c := Effect.call.inj he
      simp only [vmRunCallback, hffi, Bool.false_eq_true, if_false] at hstep
      split at hstep
      · cases hstep
      · exact ⟨advance_enter_ok hstep, rfl, hpc, hm⟩
  | plain | moduleEnter | ret | moduleRet => simp [ZOp.effect] at he

/-! ## The chain of frames -/

variable (base obj) in
/-- The saved words of the open calls lie on the stack, chained by the frame pointers. -/
def FramesAt (stack : Nat → Word) : Nat → List Context → Prop
  | fp, [] => fp ≤ stackSize
  | fp, c :: opened =>
    2 ≤ c.sp ∧ c.sp ≤ stackSize ∧ fp = c.sp - 2 ∧
      stack (c.sp - 2) = base.ptr c.fp ∧ stack (c.sp - 1) = pack c.pc c.module ∧
      c.pc < 2 ^ 31 ∧ c.module < obj.modules.length ∧ FramesAt stack c.fp opened

variable {opened : List Context}

/-- The frame pointer lies within the stack. -/
theorem FramesAt.fp_le {stack : Nat → Word} {fp : Nat}
    (h : FramesAt base obj stack fp opened) : fp ≤ stackSize := by
  cases opened with
  | nil => exact h
  | cons c opened =>
    obtain ⟨-, hle, rfl, -⟩ := h
    omega

/-- Frames stay where their two words are kept. -/
theorem FramesAt.keep {stack stack' : Nat → Word} {fp : Nat}
    (h : FramesAt base obj stack fp opened)
    (hkeep : ∀ c ∈ opened, stack' (c.sp - 2) = stack (c.sp - 2) ∧
      stack' (c.sp - 1) = stack (c.sp - 1)) :
    FramesAt base obj stack' fp opened := by
  induction opened generalizing fp with
  | nil => exact h
  | cons c opened ih =>
    obtain ⟨htwo, hle, hfp, hsavedFp, hsavedPc, hpc, hm, hrest⟩ := h
    obtain ⟨hk2, hk1⟩ := hkeep c List.mem_cons_self
    exact ⟨htwo, hle, hfp, hk2.trans hsavedFp, hk1.trans hsavedPc, hpc, hm,
      ih hrest fun d hd => hkeep d (List.mem_cons_of_mem c hd)⟩

/-- A return goes back to the innermost call. -/
theorem ret_step {st : ThreadState H} {c : Context}
    (hframes : FramesAt base obj st.vm.stack st.vm.fp (c :: opened))
    (hnum : st.numFrames = opened.length + 3) (heff : st.effect obj cbs = some .ret) :
    ∃ st', stepThread base obj host cbs st = .ok st' ∧
      st'.vm = { st.vm with sp := c.sp, fp := c.fp, pc := c.pc + 1 } ∧
      st'.currentModule = c.module ∧ st'.numFrames = opened.length + 2 := by
  obtain ⟨htwo, hle, hfp, hsavedFp, hsavedPc, hpc, hm, hrest⟩ := hframes
  have hmlt : c.module < 2 ^ 32 := by
    have := obj.few
    omega
  obtain ⟨hupc, hum⟩ := unpack_pack (show c.pc < 2 ^ 32 by omega) hmlt
  have hslot : base.slot (st.vm.stack st.vm.fp) = c.fp := by
    rw [hfp, hsavedFp, base.slot_ptr hrest.fp_le]
  have hword : st.vm.stack (st.vm.fp + 1) = pack c.pc c.module := by
    rw [hfp, show c.sp - 2 + 1 = c.sp - 1 by omega, hsavedPc]
  have hindex : listIndex obj.modules.length (c.module : Int) = some c.module := by
    unfold listIndex
    have h0 : ¬ ((c.module : Int) < 0) := by omega
    have h1 : (0 : Int) ≤ c.module ∧ (c.module : Int) < obj.modules.length := by omega
    simp [h0, h1]
  have hreturn : advance (vmReturn base obj st) = .ok
      { st with
        vm := { st.vm with fp := c.fp, pc := c.pc + 1, sp := c.sp }
        currentModule := c.module
        numFrames := st.numFrames - 1 } := by
    have hne : st.numFrames ≠ 0 := by omega
    have hsp : st.vm.fp + 2 = c.sp := by omega
    simp only [vmReturn, hne, if_false, hword, hum, hindex, hslot, hupc, hsp]
    rfl
  refine ⟨{ st with
      vm := { st.vm with fp := c.fp, pc := c.pc + 1, sp := c.sp }
      currentModule := c.module
      numFrames := st.numFrames - 1 }, ?_, rfl, rfl, ?_⟩
  swap
  · show st.numFrames - 1 = _
    omega
  obtain ⟨i, hi, he⟩ := effect_eq_some heff
  obtain ⟨op, line⟩ := i
  unfold stepThread
  rw [hi]
  cases op with
  | ret => exact hreturn
  | moduleRet =>
    have hgt : ¬ st.numFrames ≤ 2 := by omega
    simp only [hgt, if_false]
    exact hreturn
  | runCallback arg =>
    simp only [ZOp.effect] at he
    split at he <;> cases he
  | plain | moduleEnter | call0 | callModule => simp [ZOp.effect] at he

/-- In every run the frames of the open calls are on the stack and counted. -/
theorem Run.frames {st : ThreadState H}
    (h : Run base obj host cbs st opened) :
    FramesAt base obj st.vm.stack st.vm.fp opened ∧ st.numFrames = opened.length + 2 := by
  induction h with
  | start entry vm frames => exact ⟨Nat.le_refl stackSize, rfl⟩
  | plain hrun heff hstep hkeep ih =>
    obtain ⟨hfp, hnum⟩ := plain_step heff hstep
    rw [hfp, hnum]
    exact ⟨ih.1.keep hkeep, ih.2⟩
  | call hrun heff hstep hkeep ih =>
    obtain ⟨hent, hfp, hpc, hm⟩ := call_step heff hstep
    refine ⟨⟨hent.two_le, hent.le_size, hent.fp, hent.savedFp, hent.savedPc, hpc, hm, ?_⟩, ?_⟩
    · rw [hfp]
      exact ih.1.keep hkeep
    · rw [hent.numFrames, ih.2, List.length_cons]
  | ret hrun heff hstep ih =>
    obtain ⟨st₁, hst₁, hvm, -, hnum⟩ := ret_step ih.1 ih.2 heff
    obtain rfl := Next.ok.inj (hstep.symm.trans hst₁)
    refine ⟨?_, hnum⟩
    rw [hvm]
    exact ih.1.2.2.2.2.2.2.2

/-- **Each return goes back to its call.** In every state of a run, a return that is due restores
the stack pointer, the frame pointer, the program counter and the module of the last open call, and
a `ZMoveSp` that takes `n` arguments off leaves the stack of the caller. The thread counts two
frames more than there are open calls. -/
theorem returns_to_call {st : ThreadState H} {opened : List Context}
    (h : Run base obj host cbs st opened) :
    st.numFrames = opened.length + 2 ∧
    (∀ c rest, opened = c :: rest → st.effect obj cbs = some .ret →
      ∃ st', stepThread base obj host cbs st = .ok st' ∧ st'.vm.sp = c.sp ∧ st'.vm.fp = c.fp ∧
        st'.vm.pc = c.pc + 1 ∧ st'.currentModule = c.module ∧ st'.numFrames = rest.length + 2 ∧
        ∀ n : Nat, ∃ vm, execInstr host (.moveSp (-n)) st'.vm = .ok vm ∧ vm.sp = c.sp + n ∧
          vm.fp = c.fp ∧ vm.stack = st.vm.stack) ∧
    ∀ pc moduleId, pc < 2 ^ 31 → moduleId < 2 ^ 31 →
      unpackPc (pack pc moduleId) = pc ∧ unpackModule (pack pc moduleId) = moduleId := by
  obtain ⟨hframes, hnum⟩ := h.frames
  refine ⟨hnum, ?_, fun pc m hpc hm => unpack_pack (by omega) (by omega)⟩
  rintro c rest rfl heff
  obtain ⟨st', hstep, hvm, hm, hnum'⟩ := ret_step hframes hnum heff
  refine ⟨st', hstep, by rw [hvm], by rw [hvm], by rw [hvm], hm, hnum', fun n => ?_⟩
  refine ⟨(st'.vm.drop n).next, ?_, ?_, ?_, ?_⟩
  · simp [execInstr]
  · show st'.vm.sp + n = c.sp + n
    rw [hvm]
  · show st'.vm.fp = c.fp
    rw [hvm]
  · show st'.vm.stack = st.vm.stack
    rw [hvm]

end

/-! ## A call and its return -/

def callOnce : ObjectFile where
  modules := [[⟨.call0 1, 1⟩, ⟨.moduleRet, 1⟩, ⟨.plain .nop, 2⟩, ⟨.ret, 2⟩]]
  funcInfo := [⟨0, 2⟩]
  few := by decide
  short := by decide

def lowStack : StackBase := ⟨4096, by decide⟩

def noCallbacks : CallbackHost Unit := ⟨fun _ _ => ⟨0, false⟩, fun _ _ => none⟩

def noFrames : Nat → VmFrame := fun _ => ⟨0, 0, 0, 0, none, 0⟩

/-- After the call of `callOnce`, the return goes back behind it. -/
theorem returns_to_call_callOnce :
    ∃ st : ThreadState Unit, Run lowStack callOnce noHost noCallbacks st
        [⟨stackSize, stackSize, 0, 0⟩] ∧
      ∃ st', stepThread lowStack callOnce noHost noCallbacks st = .ok st' ∧
        st'.vm.sp = stackSize ∧ st'.vm.pc = 1 := by
  have hrun : Run lowStack callOnce noHost noCallbacks _ [⟨stackSize, stackSize, 0, 0⟩] :=
    .call (.start 0 sampleState noFrames) rfl rfl fun c hc => nomatch hc
  obtain ⟨st', hstep, hsp, -, hpc, -⟩ := (returns_to_call hrun).2.1 _ _ rfl rfl
  exact ⟨_, hrun, st', hstep, hsp, hpc⟩

/-- At the start no call is open, and the thread counts two frames. -/
theorem numFrames_start :
    Run lowStack callOnce noHost noCallbacks (startState 0 sampleState noFrames) [] ∧
      (startState 0 sampleState noFrames).numFrames ≠ ([] : List Context).length :=
  ⟨.start 0 sampleState noFrames, by decide⟩

end N00b.Vm
