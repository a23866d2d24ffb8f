import N00b.Vm.Machine

/-!
# Emitting instructions and jumps

`_emit`, `gen_jump_raw` and the two ways a jump gets its target: `gen_finish_jump` for the jumps
whose end the generator knows itself, `gen_apply_waiting_patches` for those that wait for the end
of a loop or a switch.

`instruction_counter` starts at zero with an empty list and goes up by one in `_emit` only, so it
is the length of the list. A jump that needs a patch is remembered by the index of its
instruction.
-/

namespace N00b.Codegen

open N00b.Vm

/-- `n00b_control_info_t`. -/
structure ControlInfo where
  entryIp : Nat := 0
  exitIp : Nat := 0
  awaitingPatches : List Nat := []

/-- `n00b_jump_info_t` without the instruction to patch: the loop or switch it belongs to, and
whether it goes to its top. -/
structure JumpInfo where
  linkedControlStructure : Option Nat := none
  top : Bool := false

/-- `gen_ctx`. -/
structure GenCtx where
  instructions : List Instr := []
  controls : Nat → ControlInfo := fun _ => {}

/-- `instruction_counter`. -/
def GenCtx.counter (ctx : GenCtx) : Nat := ctx.instructions.length

/-- `_emit`. -/
def emit (i : Instr) (ctx : GenCtx) : GenCtx :=
  { ctx with instructions := ctx.instructions ++ [i] }

/-- `gen_load_immediate`. -/
def genLoadImmediate (value : Word) : GenCtx → GenCtx := emit (.pushImm value)

/-! ## Jumps -/

inductive JumpOp where
  | jz | jnz | j
  deriving DecidableEq, Repr

def JumpOp.instr : JumpOp → Nat → Instr
  | jz, arg => .jz arg
  | jnz, arg => .jnz arg
  | j, arg => .j arg

/-- `instr->arg = arg`, on the jumps that are patched. -/
def setArg (arg : Nat) : Instr → Instr
  | .jz _ => .jz arg
  | .jnz _ => .jnz arg
  | .j _ => .j arg
  | i => i

theorem setArg_instr (op : JumpOp) (a b : Nat) : setArg a (op.instr b) = op.instr a := by
  cases op <;> rfl

def patchArg (ix arg : Nat) (ctx : GenCtx) : GenCtx :=
  { ctx with instructions := ctx.instructions.modify ix (setArg arg) }

/-- The target of a jump that is known when the jump is emitted. -/
def knownTarget (ji : JumpInfo) (ctx : GenCtx) : Option Nat :=
  match ji.linkedControlStructure with
  | none => none
  | some c =>
    if ji.top then some (ctx.controls c).entryIp
    else if (ctx.controls c).exitIp ≠ 0 then some (ctx.controls c).exitIp
    else none

/-- The loop or switch of a jump takes note of it. -/
def awaitPatch (ji : JumpInfo) (ix : Nat) (ctx : GenCtx) : GenCtx :=
  match ji.linkedControlStructure with
  | none => ctx
  | some c =>
    let ci := ctx.controls c
    let ci := { ci with awaitingPatches := ci.awaitingPatches ++ [ix] }
    { ctx with controls := Function.update ctx.controls c ci }

/-- `gen_jump_raw`. The second component is the instruction that still needs its target. -/
def genJumpRaw (ji : JumpInfo) (op : JumpOp) (pop : Bool) (ctx : GenCtx) : GenCtx × Option Nat :=
  let ctx := if !pop && op ≠ .j then emit .dupTop ctx else ctx
  match knownTarget ji ctx with
  | some arg => (emit (op.instr arg) ctx, none)
  | none => (awaitPatch ji ctx.counter (emit (op.instr 0) ctx), some ctx.counter)

/-- `gen_finish_jump`. -/
def genFinishJump (toPatch : Option Nat) (ctx : GenCtx) : GenCtx :=
  match toPatch with
  | some ix => patchArg ix ctx.counter ctx
  | none => ctx

/-- `gen_apply_waiting_patches`. -/
def genApplyWaitingPatches (c : Nat) (ctx : GenCtx) : GenCtx :=
  let ci := ctx.controls c
  let exitIp := ctx.counter
  let ctx := { ctx with controls := Function.update ctx.controls c { ci with exitIp } }
  ci.awaitingPatches.foldl (fun ctx ix => patchArg ix exitIp ctx) ctx

/-- `JMP_TEMPLATE`. -/
def jmpTemplate (op : JumpOp) (pop : Bool) (userCode : GenCtx → GenCtx) (ctx : GenCtx) : GenCtx :=
  let r := genJumpRaw {} op pop ctx
  genFinishJump r.2 (userCode r.1)

/-- `GEN_JZ`, `GEN_JNZ`, `GEN_JZ_NOPOP` and `GEN_JNZ_NOPOP`. -/
def genJz : (GenCtx → GenCtx) → GenCtx → GenCtx := jmpTemplate .jz true

def genJnz : (GenCtx → GenCtx) → GenCtx → GenCtx := jmpTemplate .jnz true

def genJzNoPop : (GenCtx → GenCtx) → GenCtx → GenCtx := jmpTemplate .jz false

def genJnzNoPop : (GenCtx → GenCtx) → GenCtx → GenCtx := jmpTemplate .jnz false

/-! ## Generators that only append -/

/-- `gen` appends the block `code`, which may depend on where it starts, and nothing else. -/
def Appends (gen : GenCtx → GenCtx) (code : Nat → List Instr) : Prop :=
  ∀ ctx, gen ctx = { ctx with instructions := ctx.instructions ++ code ctx.counter }

theorem appends_emit (i : Instr) : Appends (emit i) fun _ => [i] := fun _ => rfl

theorem Appends.comp {g h : GenCtx → GenCtx} {c d : Nat → List Instr} (hg : Appends g c)
    (hh : Appends h d) :
    Appends (fun ctx => h (g ctx)) fun base => c base ++ d (base + (c base).length) := by
  intro ctx
  show h (g ctx) = _
  rw [hg ctx, hh]
  simp only [GenCtx.counter, List.length_append, List.append_assoc]

/-- The copy of the tested value that a jump which is not to pop emits in front of itself. -/
def JumpOp.dup (op : JumpOp) (pop : Bool) : List Instr := if !pop && op ≠ .j then [.dupTop] else []

theorem modify_append_cons {α : Type} (f : α → α) (a : α) (r : List α) :
    ∀ l : List α, (l ++ a :: r).modify l.length f = l ++ f a :: r
  | [] => rfl
  | b :: l => by
    rw [List.cons_append, List.length_cons, List.modify_succ_cons, modify_append_cons f a r l,
      List.cons_append]

theorem Appends.jmpTemplate {op : JumpOp} {pop : Bool} {userCode : GenCtx → GenCtx}
    {c : Nat → List Instr} (hc : Appends userCode c) :
    Appends (jmpTemplate op pop userCode) fun base =>
      let start := base + (op.dup pop).length + 1
      op.dup pop ++ op.instr (start + (c start).length) :: c start := by
  intro ctx
  have hdup : (if !pop && op ≠ .j then emit .dupTop ctx else ctx) =
      { ctx with instructions := ctx.instructions ++ op.dup pop } := by
    unfold JumpOp.dup
    split
    next => rfl
    next => rw [List.append_nil]
  simp only [Codegen.jmpTemplate, genJumpRaw, hdup, knownTarget, awaitPatch, genFinishJump]
  rw [hc]
  let start := ctx.instructions.length + (op.dup pop).length + 1
  have hmod := modify_append_cons (setArg (start + (c start).length)) (op.instr 0) (c start)
    (ctx.instructions ++ op.dup pop)
  rw [setArg_instr, List.length_append] at hmod
  simp only [emit, patchArg, GenCtx.counter, List.length_append, List.length_singleton]
  rw [List.append_assoc _ [op.instr 0], List.singleton_append, hmod, List.append_assoc]

end N00b.Codegen
