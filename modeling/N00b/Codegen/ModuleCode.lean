import N00b.Codegen.Jumps
import N00b.Codegen.Exits

/-!
# The code of a module

`gen_module_code`: the checks of the parameters, the body of the module and its functions, one
behind the other in one list of instructions.

## Representation

* The generator of statements knows the instructions of `Instr`. Any other one is a `nop` in the
  list it works on, and `ops` says at which index it is and what it really is.
* A frame is as large as `set_stack_offset` has made it when its body is done. That size is a field
  of the function or module.
* Names, messages and default values are given by their offset among the constants.
-/

namespace N00b.Codegen

open N00b.Vm N00b.Parse

/-! ## Instructions of a module -/

/-- The operations that are not in the code of statements. -/
inductive ModuleOp where
  | bail
  | loadFromAttr (immediate : Nat)
  | runCallback (arg : Nat) (immediate : Bool)
  | moduleEnter (arg : Nat)
  | moduleRet
  | zeroR0
  | lockMutex (arg : Nat)
  | unlockMutex (arg : Nat)
  | ret
  deriving DecidableEq, Repr

inductive ZInstr where
  | stmt (i : Instr)
  | op (o : ModuleOp)
  deriving DecidableEq, Repr

def ZInstr.view : ZInstr → Instr
  | stmt i => i
  | op _ => .nop

def ZInstr.op? : ZInstr → Option ModuleOp
  | stmt _ => none
  | op o => some o

/-- `gen_ctx` in `gen_module_code`. -/
structure ModuleCtx where
  gen : GenCtx := {}
  ops : Nat → Option ModuleOp := fun _ => none

/-- `instruction_counter`. -/
def ModuleCtx.counter (ctx : ModuleCtx) : Nat := ctx.gen.counter

/-- `module->instructions`. -/
def ModuleCtx.code (ctx : ModuleCtx) : List ZInstr :=
  ctx.gen.instructions.mapIdx fun ix i => ((ctx.ops ix).map ZInstr.op).getD (.stmt i)

/-- `emit`. -/
def emitZ (z : ZInstr) (ctx : ModuleCtx) : ModuleCtx where
  gen := emit z.view ctx.gen
  ops := Function.update ctx.ops ctx.counter z.op?

def emitZs (zs : List ZInstr) (ctx : ModuleCtx) : ModuleCtx :=
  zs.foldl (fun ctx z => emitZ z ctx) ctx

/-- `JMP_TEMPLATE`, with a jump that pops what it tests. -/
def jmpTemplateZ (op : JumpOp) (userCode : ModuleCtx → ModuleCtx) (ctx : ModuleCtx) : ModuleCtx :=
  let r := genJumpRaw {} op true ctx.gen
  let ctx := userCode { ctx with gen := r.1 }
  { ctx with gen := genFinishJump r.2 ctx.gen }

/-- `gen_one_node` on the body of a module or function. -/
def genBody (s : Stmt) (ctx : ModuleCtx) : ModuleCtx := { ctx with gen := genStmt s ctx.gen }

/-- `ins->arg = size`, on the instruction that makes room for the frame. -/
def setMoveSp (size : Nat) : Instr → Instr
  | .moveSp _ => .moveSp size
  | i => i

def setFrame (ix size : Nat) (ctx : ModuleCtx) : ModuleCtx :=
  { ctx with gen :=
      { ctx.gen with instructions := ctx.gen.instructions.modify ix (setMoveSp size) } }

/-- Code around the bodies: instructions, or a jump over instructions. -/
inductive Part where
  | code (zs : List ZInstr)
  | skip (op : JumpOp) (zs : List ZInstr)

def genPart : Part → ModuleCtx → ModuleCtx
  | .code zs => emitZs zs
  | .skip op zs => jmpTemplateZ op (emitZs zs)

def genParts (ps : List Part) (ctx : ModuleCtx) : ModuleCtx :=
  ps.foldl (fun ctx p => genPart p ctx) ctx

/-! ## Parameters -/

/-- The symbol of a parameter: an attribute, by the offset of its name, or a variable. -/
inductive ParamSym where
  | attr (name : Nat)
  | var (sym : Symbol)

inductive ParamDefault where
  | immediate (value : Word)
  | constObj (offset : Nat)
  | ref (offset : Nat) (type : Builtin)

/-- `n00b_callback_info_t`. -/
structure CallbackInfo where
  offset : Nat
  nargs : Nat
  useret : Bool

/-- `n00b_module_param_info_t`. -/
structure ParamInfo where
  sym : ParamSym
  paramIndex : Nat
  default : Option ParamDefault := none
  callback : Option CallbackInfo := none
  /-- The message that `gen_param_bail_if_missing` puts together. -/
  missing : Nat

/-- `N00B_F_ATTR_SKIP_LOAD`. -/
def attrSkipLoad : Nat := 2

section

variable (moduleId : Nat)

/-- `gen_sym_store`. -/
def ParamSym.store (popAndLock : Bool) : ParamSym → List ZInstr
  | .attr name => [.stmt (.pushConstObj name), .stmt (.assignAttr popAndLock)]
  | .var sym =>
    (if popAndLock then [] else [.stmt .dupTop]) ++
      [.stmt (symLoadRef sym), .stmt .assignToLoc]

/-- `gen_sym_load_attr_and_found` and `gen_test_param_flag`. The flag is shifted in 32 bits. -/
def ParamInfo.test (p : ParamInfo) : List ZInstr :=
  match p.sym with
  | .attr name => [.stmt (.pushConstObj name), .op (.loadFromAttr attrSkipLoad)]
  | .var _ =>
    [.stmt (.pushStaticObj moduleId (p.paramIndex / 64)),
      .stmt (.pushImm (((1 : BitVec 32) <<< (p.paramIndex % 64 % 32)).signExtend 64)),
      .stmt (.arith .band)]

/-- `gen_param_via_default_value_type` and `gen_param_via_default_ref_type`. -/
def paramViaDefault (sym : ParamSym) : ParamDefault → Part
  | .immediate value => .skip .jnz (.stmt (.pushImm value) :: sym.store true)
  | .constObj offset => .skip .jnz (.stmt (.pushConstObj offset) :: sym.store true)
  | .ref offset t =>
    .skip .jnz (.stmt (.pushConstObj offset) :: .stmt (.tcall .copy (some t)) :: sym.store true)

/-- `gen_run_internal_callback`. -/
def runInternalCallback (cb : CallbackInfo) : List ZInstr :=
  [.stmt (.pushConstObj cb.offset), .op (.runCallback cb.nargs cb.useret)] ++
    (if cb.nargs = 0 then [] else [.stmt (.moveSp (-cb.nargs))]) ++
    (if cb.useret then [.stmt (.popTo .r0)] else [])

/-- `gen_param_via_callback`. An attribute is not locked. -/
def paramViaCallback (sym : ParamSym) (cb : CallbackInfo) : List ZInstr :=
  runInternalCallback cb ++
    match sym with
    | .attr _ => sym.store false
    | .var _ => sym.store true

/-- `gen_param_bail_if_missing`. -/
def paramBailIfMissing (missing : Nat) : Part :=
  .skip .jnz [.stmt (.pushConstObj missing), .op .bail]

/-- One turn of the loop of `gen_parameter_checks`. -/
def ParamInfo.parts (p : ParamInfo) : List Part :=
  .code (p.test moduleId) ::
    match p.default with
    | some value => [paramViaDefault p.sym value]
    | none =>
      .code ((p.callback.map (paramViaCallback p.sym)).getD []) :: [paramBailIfMissing p.missing]

/-! ## Functions -/

/-- The statics of a `once` function. -/
structure OnceInfo where
  boolOffset : Nat
  lockOffset : Nat
  memoOffset : Nat

/-- Where `$result` is. -/
inductive RetSym where
  | register
  | symbol (sym : Symbol)

/-- `n00b_fn_decl_t`, with the body of its declaration node. -/
structure FnDecl where
  once : Option OnceInfo := none
  voidReturn : Bool
  retsym : Option RetSym
  body : Stmt
  frameSize : Nat

/-- `gen_return_once_memo`. -/
def FnDecl.returnOnceMemo (f : FnDecl) (o : OnceInfo) : List ZInstr :=
  if f.voidReturn then [] else [.stmt (.pushStaticObj moduleId o.memoOffset), .op .ret]

/-- `gen_set_once_memo`. -/
def FnDecl.setOnceMemo (f : FnDecl) (o : OnceInfo) : List ZInstr :=
  if f.voidReturn then []
  else [.stmt (.pushFrom .r0), .stmt (.pushStaticRef moduleId o.memoOffset), .stmt .assignToLoc]

/-- What `gen_function` emits between the label and the room for the frame. -/
def FnDecl.prologue (f : FnDecl) : List Part :=
  (match f.once with
    | none => []
    | some o =>
      [.code [.stmt (.pushStaticObj moduleId o.boolOffset)],
        .skip .jz (f.returnOnceMemo moduleId o),
        .code [.op (.lockMutex o.lockOffset), .stmt (.pushStaticObj moduleId o.boolOffset)],
        .skip .jz [.op (.unlockMutex o.lockOffset), .stmt (.pushStaticObj moduleId o.memoOffset),
          .op .ret],
        .code [.stmt (.pushImm 1), .stmt (.pushStaticRef moduleId o.boolOffset),
          .stmt .assignToLoc]]) ++
    [.code (if f.voidReturn then [] else [.op .zeroR0])]

/-- What `gen_function` emits behind the body. -/
def FnDecl.epilogue (f : FnDecl) : List Part :=
  [.code (match f.once with
      | none => []
      | some o => f.setOnceMemo moduleId o ++ [.op (.unlockMutex o.lockOffset)]),
    .code (match f.retsym with
      | none => []
      | some .register => [.stmt (.pushFrom .r0), .stmt (.popTo .r0)]
      | some (.symbol sym) => [.stmt (symLoad sym), .stmt (.popTo .r0)]),
    .code [.op .ret]]

/-- `gen_function`. -/
def genFunction (f : FnDecl) (ctx : ModuleCtx) : ModuleCtx :=
  let ctx := genParts (f.prologue moduleId) (emitZ (.stmt .nop) ctx)
  let spLoc := ctx.counter
  let ctx := genBody f.body (emitZ (.stmt (.moveSp 0)) ctx)
  setFrame spLoc f.frameSize (genParts (f.epilogue moduleId) ctx)

end

/-! ## Modules -/

/-- `n00b_module_t`, as far as `gen_module_code` reads it. -/
structure ModuleUnit where
  moduleId : Nat
  params : List ParamInfo
  body : Stmt
  maxStackSize : Nat
  functions : List FnDecl

namespace ModuleUnit

/-- `gen_parameter_checks`. -/
def parameterChecks (m : ModuleUnit) : List Part := m.params.flatMap (ParamInfo.parts m.moduleId)

end ModuleUnit

/-- `gen_module`: the label, the checks, `ZModuleEnter`, room for the frame and the body. The second
component is `module_patch_loc`. -/
def genModule (m : ModuleUnit) (ctx : ModuleCtx) : ModuleCtx × Nat :=
  let ctx := genParts m.parameterChecks (emitZ (.stmt .nop) ctx)
  let ctx := emitZ (.op (.moduleEnter m.params.length)) ctx
  (genBody m.body (emitZ (.stmt (.moveSp 0)) ctx), ctx.counter)

/-- `gen_module_code`. -/
def genModuleCode (m : ModuleUnit) : ModuleCtx :=
  let r := genModule m {}
  let ctx := emitZ (.op .moduleRet) (setFrame r.2 m.maxStackSize r.1)
  let ctx := if m.functions.isEmpty then ctx else emitZ (.stmt .nop) ctx
  m.functions.foldl (fun ctx f => genFunction m.moduleId f ctx) ctx

/-! ## Where the jumps of a module go -/

def Part.size : Part → Nat
  | .code zs => zs.length
  | .skip _ zs => zs.length + 1

def partsSize (ps : List Part) : Nat := (ps.map Part.size).sum

/-- A jump over instructions goes behind them. -/
def partsJumps : Nat → List Part → List Jump
  | _, [] => []
  | base, .code zs :: ps => partsJumps (base + zs.length) ps
  | base, .skip op zs :: ps =>
    ⟨base, op, base + (zs.length + 1)⟩ :: partsJumps (base + (zs.length + 1)) ps

/-- Outside of all loops, switches and typeofs. -/
def Targets.outermost : Targets := ⟨fun _ => 0, fun _ => 0⟩

namespace FnDecl

/-- Where the body of a function starts that starts at `base`. -/
def start (moduleId base : Nat) (f : FnDecl) : Nat := base + 1 + partsSize (f.prologue moduleId) + 1

def size (moduleId : Nat) (f : FnDecl) : Nat :=
  1 + partsSize (f.prologue moduleId) + 1 + f.body.size + partsSize (f.epilogue moduleId)

def jumps (moduleId base : Nat) (f : FnDecl) : List Jump :=
  partsJumps (base + 1) (f.prologue moduleId) ++
    f.body.jumps Targets.outermost (f.start moduleId base)

def entries (moduleId base : Nat) (f : FnDecl) : List Entry :=
  f.body.entries (f.start moduleId base) 0

def exits (moduleId base : Nat) (f : FnDecl) : List Exit := f.body.exits (f.start moduleId base)

end FnDecl

/-- What `g` says about functions that are generated one after the other from `base` on. -/
def functionsAt {α : Type} (moduleId : Nat) (g : Nat → FnDecl → List α) : Nat → List FnDecl → List α
  | _, [] => []
  | base, f :: fs => g base f ++ functionsAt moduleId g (base + f.size moduleId) fs

def functionsSize (moduleId : Nat) (fs : List FnDecl) : Nat := (fs.map (FnDecl.size moduleId)).sum

def functionsBound (fs : List FnDecl) : List Nat := fs.flatMap (·.body.bound)

namespace ModuleUnit

def start (m : ModuleUnit) : Nat := 1 + partsSize m.parameterChecks + 1 + 1

def functionsStart (m : ModuleUnit) : Nat :=
  m.start + m.body.size + 1 + (if m.functions.isEmpty then 0 else 1)

def size (m : ModuleUnit) : Nat := m.functionsStart + functionsSize m.moduleId m.functions

/-- The jumps of a module and where they go. -/
def jumps (m : ModuleUnit) : List Jump :=
  partsJumps 1 m.parameterChecks ++ m.body.jumps Targets.outermost m.start ++
    functionsAt m.moduleId (FnDecl.jumps m.moduleId) m.functionsStart m.functions

/-- Where the loops of a module begin. -/
def entries (m : ModuleUnit) : List Entry :=
  m.body.entries m.start 0 ++
    functionsAt m.moduleId (FnDecl.entries m.moduleId) m.functionsStart m.functions

/-- Where the loops, switches and typeofs of a module end. -/
def exits (m : ModuleUnit) : List Exit :=
  m.body.exits m.start ++
    functionsAt m.moduleId (FnDecl.exits m.moduleId) m.functionsStart m.functions

/-- The loops, switches and typeofs of a module. -/
def bound (m : ModuleUnit) : List Nat := m.body.bound ++ functionsBound m.functions

def exprs (m : ModuleUnit) : List ExprCode :=
  m.body.exprs ++ m.functions.flatMap (·.body.exprs)

/-- What the check pass makes sure of: a `break` or `continue` is in what it names, and every loop,
`switch` and `typeof` has a record of its own. -/
structure Scoped (m : ModuleUnit) : Prop where
  body : m.body.Scoped [] []
  functions : ∀ f ∈ m.functions, f.body.Scoped [] []
  nodup : m.bound.Nodup

end ModuleUnit

def jumpsOfZ (base : Nat) (zs : List ZInstr) : List Jump := jumpsOf base (zs.map ZInstr.view)

/-! ## What the generator adds to a module -/

namespace ModuleCtx

/-- The instructions that statements do not have are `nop` to their generator. -/
def Noted (ctx : ModuleCtx) : Prop :=
  ∀ ix o, ctx.ops ix = some o → ctx.gen.instructions[ix]? = some .nop

theorem Noted.mono {ctx : ModuleCtx} {gen : GenCtx} (h : ctx.Noted)
    (hnop : ∀ ix : Nat, ctx.gen.instructions[ix]? = some .nop → gen.instructions[ix]? = some .nop) :
    Noted { ctx with gen } :=
  fun ix o ho => hnop ix (h ix o ho)

/-- The code of a module is what was generated, with the targets that were noted. -/
theorem map_view_code {ctx : ModuleCtx} (h : ctx.Noted) :
    ctx.code.map ZInstr.view = ctx.gen.instructions := by
  refine List.ext_getElem? fun ix => ?_
  rw [List.getElem?_map, code, List.getElem?_mapIdx, Option.map_map]
  cases ho : ctx.ops ix with
  | none =>
    have hid : (ZInstr.view ∘ fun i => ((none : Option ModuleOp).map ZInstr.op).getD (.stmt i)) =
        id := rfl
    rw [hid, Option.map_id]
    rfl
  | some o =>
    rw [h ix o ho]
    rfl

end ModuleCtx

/-- From one context to another, the generator added `n` instructions with the jumps `js`, and put
down entries and exits in records of `bound`. -/
structure Adds (bound : List Nat) (ctx ctx' : ModuleCtx) (n : Nat) (js : List Jump)
    (es : List Entry) (xs : List Exit) : Prop where
  counter : ctx'.counter = ctx.counter + n
  jumps : jumpsOf 0 ctx'.gen.instructions = jumpsOf 0 ctx.gen.instructions ++ js
  noted : ctx.Noted → ctx'.Noted
  entryOf : ctx'.gen.entryOf = setEntries es ctx.gen.entryOf
  exitOf : Closes ctx.gen ctx'.gen xs
  controls : ∀ c ∉ bound, ctx'.gen.controls c = ctx.gen.controls c

namespace Adds

variable {bound bound' : List Nat} {ctx ctx' ctx'' : ModuleCtx} {n n' : Nat}
  {js js' : List Jump} {es es' : List Entry} {xs xs' : List Exit}

/-- What is added in two steps is added one behind the other. -/
theorem trans (h : Adds bound ctx ctx' n js es xs) (h' : Adds bound' ctx' ctx'' n' js' es' xs') :
    Adds (bound ++ bound') ctx ctx'' (n + n') (js ++ js') (es ++ es') (xs ++ xs') where
  counter := by rw [h'.counter, h.counter, Nat.add_assoc]
  jumps := by rw [h'.jumps, h.jumps, List.append_assoc]
  noted hnoted := h'.noted (h.noted hnoted)
  entryOf := by rw [h'.entryOf, h.entryOf, setEntries, setEntries, setEntries, List.foldl_append]
  exitOf := h.exitOf.trans h'.exitOf
  controls c hc := by
    rw [h'.controls c fun hmem => hc (List.mem_append_right _ hmem),
      h.controls c fun hmem => hc (List.mem_append_left _ hmem)]

theorem step (h : Adds bound ctx ctx' n js es xs) (h' : Adds [] ctx' ctx'' n' js' [] []) :
    Adds bound ctx ctx'' (n + n') (js ++ js') es xs := by
  have htrans := h.trans h'
  rwa [List.append_nil, List.append_nil, List.append_nil] at htrans

protected theorem refl (ctx : ModuleCtx) : Adds [] ctx ctx 0 [] [] [] where
  counter := rfl
  jumps := (List.append_nil _).symm
  noted := id
  entryOf := rfl
  exitOf := Closes.refl _
  controls _ _ := rfl

theorem cast (h : Adds bound ctx ctx' n js es xs) (hn : n = n') (hjs : js = js') :
    Adds bound ctx ctx' n' js' es xs := hn ▸ hjs ▸ h

end Adds

/-! ## Code around the bodies -/

def PlainCode (zs : List ZInstr) : Prop := ∀ z ∈ zs, asJump z.view = none

/-- An instruction is added behind the code. -/
theorem adds_emitZ {z : ZInstr} (h : asJump z.view = none) (ctx : ModuleCtx) :
    Adds [] ctx (emitZ z ctx) 1 [] [] [] where
  counter := List.length_append
  jumps := by
    show jumpsOf 0 (ctx.gen.instructions ++ [z.view]) = _
    rw [jumpsOf_append, jumpsOf_of_none h]
  noted hnoted := by
    intro ix o ho
    show (ctx.gen.instructions ++ [z.view])[ix]? = some .nop
    by_cases hix : ix = ctx.counter
    · subst hix
      have hz : z.op? = some o := by
        have heq : Function.update ctx.ops ctx.counter z.op? ctx.counter = some o := ho
        rwa [Function.update_self] at heq
      have hview : z.view = .nop := by
        cases z with
        | stmt i => cases hz
        | op o => rfl
      rw [hview]
      exact List.getElem?_concat_length
    · have heq : Function.update ctx.ops ctx.counter z.op? ix = some o := ho
      rw [Function.update_of_ne hix] at heq
      have hold := hnoted ix o heq
      rw [List.getElem?_append_left (List.getElem?_eq_some_iff.mp hold).1]
      exact hold
  entryOf := rfl
  exitOf := Closes.refl _
  controls _ _ := rfl

theorem adds_emitZs {zs : List ZInstr} (h : PlainCode zs) (ctx : ModuleCtx) :
    Adds [] ctx (emitZs zs ctx) zs.length [] [] [] := by
  induction zs generalizing ctx with
  | nil => exact Adds.refl ctx
  | cons z zs ih =>
    have hz := adds_emitZ (h z List.mem_cons_self) ctx
    exact (hz.step (ih (fun z' hz' => h z' (List.mem_cons_of_mem _ hz')) _)).cast
      (Nat.add_comm _ _) rfl

/-- Several are added in their order. -/
theorem emitZs_instructions (zs : List ZInstr) (ctx : ModuleCtx) :
    (emitZs zs ctx).gen.instructions = ctx.gen.instructions ++ zs.map ZInstr.view := by
  induction zs generalizing ctx with
  | nil => exact (List.append_nil _).symm
  | cons z zs ih =>
    show (emitZs zs (emitZ z ctx)).gen.instructions = _
    rw [ih]
    exact List.append_assoc _ _ _

theorem getElem?_modify_nop {f : Instr → Instr} (hf : f .nop = .nop) {is : List Instr} {ix k : Nat}
    (h : is[ix]? = some .nop) : (is.modify k f)[ix]? = some .nop := by
  rw [List.getElem?_modify, h]
  split
  · exact congrArg some hf
  · rfl

/-- A jump over plain code is added with its target. -/
theorem adds_jmpTemplateZ (op : JumpOp) {zs : List ZInstr} (h : PlainCode zs) (ctx : ModuleCtx) :
    Adds [] ctx (jmpTemplateZ op (emitZs zs) ctx) (zs.length + 1)
      [⟨ctx.counter, op, ctx.counter + (zs.length + 1)⟩] [] [] := by
  have hraw := genJumpRaw_local op ctx.gen true (.inl rfl)
  let ctx1 : ModuleCtx := { ctx with gen := emit (op.instr 0) ctx.gen }
  have hcode := adds_emitZs h ctx1
  have hcounter1 : ctx1.counter = ctx.counter + 1 := List.length_append
  have hcounter : (emitZs zs ctx1).counter = ctx.counter + (zs.length + 1) := by
    rw [hcode.counter, hcounter1, Nat.add_assoc, Nat.add_comm 1]
  have hfinal : jmpTemplateZ op (emitZs zs) ctx =
      { emitZs zs ctx1 with
        gen := patchArg ctx.counter (emitZs zs ctx1).counter (emitZs zs ctx1).gen } := by
    rw [jmpTemplateZ, hraw]
    rfl
  have hinstructions : (jmpTemplateZ op (emitZs zs) ctx).gen.instructions =
      ctx.gen.instructions ++
        op.instr (ctx.counter + (zs.length + 1)) :: zs.map ZInstr.view := by
    have hmodify := modify_append_cons (setArg (ctx.counter + (zs.length + 1))) (op.instr 0)
      (zs.map ZInstr.view) ctx.gen.instructions
    rw [setArg_instr] at hmodify
    rw [hfinal, hcounter, ← hmodify]
    show ((emitZs zs ctx1).gen.instructions).modify _ _ = _
    rw [emitZs_instructions]
    show ((ctx.gen.instructions ++ [op.instr 0]) ++ _).modify _ _ = _
    rw [List.append_assoc]
    rfl
  refine ⟨?_, ?_, fun hnoted => ?_, ?_, ?_, fun c hc => ?_⟩
  · rw [hfinal]
    show ((emitZs zs ctx1).gen.instructions.modify _ _).length = _
    rw [List.length_modify]
    exact hcounter
  · have hnone : jumpsOf (ctx.counter + 1) (zs.map ZInstr.view) = [] := by
      refine jumpsOf_eq_nil (fun i hi => ?_) _
      obtain ⟨z, hz, rfl⟩ := List.mem_map.mp hi
      exact h z hz
    rw [hinstructions, jumpsOf_append, jumpsOf_jump, Nat.zero_add]
    exact congrArg (fun js => _ ++ _ :: js) hnone
  · rw [hfinal]
    have hnoted1 : ctx1.Noted := hnoted.mono fun ix hix =>
      (List.getElem?_append_left (List.getElem?_eq_some_iff.mp hix).1).trans hix
    exact (hcode.noted hnoted1).mono fun ix hix => getElem?_modify_nop rfl hix
  · rw [hfinal]
    exact hcode.entryOf
  · rw [hfinal]
    exact hcode.exitOf
  · rw [hfinal]
    exact hcode.controls c hc

/-- The code in a part has no jumps of its own. -/
def Part.Plain : Part → Prop
  | .code zs => PlainCode zs
  | .skip _ zs => PlainCode zs

/-- **Plain parts** are added with their jumps. -/
theorem adds_genParts {ps : List Part} (h : ∀ p ∈ ps, p.Plain) (ctx : ModuleCtx) :
    Adds [] ctx (genParts ps ctx) (partsSize ps) (partsJumps ctx.counter ps) [] [] := by
  induction ps generalizing ctx with
  | nil => exact Adds.refl ctx
  | cons p ps ih =>
    have hrest := fun ctx => ih (fun q hq => h q (List.mem_cons_of_mem _ hq)) ctx
    cases p with
    | code zs =>
      have hpart := adds_emitZs (h _ List.mem_cons_self) ctx
      have hnext := hrest (emitZs zs ctx)
      rw [hpart.counter] at hnext
      exact hpart.step hnext
    | skip op zs =>
      have hpart := adds_jmpTemplateZ op (h _ List.mem_cons_self) ctx
      have hnext := hrest (jmpTemplateZ op (emitZs zs) ctx)
      rw [hpart.counter] at hnext
      exact hpart.step hnext

/-- The size of a frame that is filled in later is no jump. -/
theorem jumpsOf_modify_setMoveSp (size : Nat) (is : List Instr) (base ix : Nat) :
    jumpsOf base (is.modify ix (setMoveSp size)) = jumpsOf base is := by
  have hkeep : ∀ i, asJump (setMoveSp size i) = asJump i := by
    intro i
    cases i <;> rfl
  induction is generalizing base ix with
  | nil => cases ix <;> rfl
  | cons i is ih =>
    cases ix with
    | zero =>
      rw [List.modify_zero_cons, jumpsOf, jumpsOf, hkeep]
    | succ ix => rw [List.modify_succ_cons, jumpsOf, jumpsOf, ih]

/-- Filling in the size of a frame adds nothing. -/
theorem adds_setFrame (ix size : Nat) (ctx : ModuleCtx) :
    Adds [] ctx (setFrame ix size ctx) 0 [] [] [] where
  counter := List.length_modify _ _ _
  jumps := by
    rw [List.append_nil]
    exact jumpsOf_modify_setMoveSp size _ 0 ix
  noted hnoted := hnoted.mono fun _ hix => getElem?_modify_nop rfl hix
  entryOf := rfl
  exitOf := Closes.refl _
  controls _ _ := rfl

/-! ## Bodies -/

/-- A body that can be generated: its jumps stay in it, and its records are new. -/
structure BodyReady (s : Stmt) (ctx : ModuleCtx) : Prop where
  closed : s.Scoped [] []
  nodup : s.bound.Nodup
  fresh : ∀ c ∈ s.bound, ctx.gen.controls c = {}

/-- A body lays down its layout. -/
theorem BodyReady.lays {s : Stmt} {ctx : ModuleCtx} (h : BodyReady s ctx) :
    Lays [] s.bound ctx.gen (genStmt s ctx.gen) (s.layout outermost ctx.counter 0) := by
  refine s.generates outermost [] [] 0 h.closed ctx.gen ?_
  exact ⟨h.fresh, h.nodup, fun _ hc => absurd hc List.not_mem_nil, fun _ hc => hc,
    fun _ hc => absurd hc List.not_mem_nil, fun _ hc => absurd hc List.not_mem_nil⟩

/-- **A body** is added with its jumps, its entries and its exits. -/
theorem adds_genBody {s : Stmt} {ctx : ModuleCtx} (h : BodyReady s ctx) :
    Adds s.bound ctx (genBody s ctx) s.size (s.jumps Targets.outermost ctx.counter)
      (s.entries ctx.counter 0) (s.exits ctx.counter) where
  counter := (s.sets 0 ctx.gen).counter
  jumps := by
    show jumpsOf 0 (genStmt s ctx.gen).instructions = _
    rw [h.lays.instructions, jumpsOf_append, Nat.zero_add]
    -- No jump goes to a construct around the body, so it does not matter where these end.
    have hsame : ∀ c ∈ ([] : List Nat), ctx.gen.exitOf c = (fun _ => 0) c :=
      fun c hc => absurd hc List.not_mem_nil
    have hcode := Layout.code_congr hsame ctx.gen.counter h.lays.exitsIn
    rw [hcode]
    exact congrArg _ (s.jumps_layout outermost (fun _ => 0) ctx.counter 0)
  noted hnoted := hnoted.mono fun ix hix => by
    rw [h.lays.instructions, List.getElem?_append_left (List.getElem?_eq_some_iff.mp hix).1]
    exact hix
  entryOf := (s.sets 0 ctx.gen).entryOf
  exitOf := s.closes ctx.gen
  controls c hc := by
    show (genStmt s ctx.gen).controls c = _
    rw [h.lays.controls c hc, Layout.positions_eq_nil List.not_mem_nil _ h.lays.exitsIn,
      ControlInfo.await_nil]

/-! ## Functions and modules -/

theorem plainCode_cons {z : ZInstr} {zs : List ZInstr} (hz : asJump z.view = none)
    (h : PlainCode zs) : PlainCode (z :: zs) := by
  intro z' hz'
  rcases List.mem_cons.mp hz' with rfl | hz'
  · exact hz
  · exact h z' hz'

theorem plainCode_append {zs zs' : List ZInstr} (h : PlainCode zs) (h' : PlainCode zs') :
    PlainCode (zs ++ zs') := by
  intro z hz
  rcases List.mem_append.mp hz with hz | hz
  · exact h z hz
  · exact h' z hz

theorem plainCode_nil : PlainCode [] := fun _ h => absurd h List.not_mem_nil

/-- The stores of a parameter are plain. -/
theorem plainCode_store (b : Bool) (sym : ParamSym) : PlainCode (sym.store b) := by
  cases sym with
  | attr name => exact plainCode_cons rfl (plainCode_cons rfl plainCode_nil)
  | var sym =>
    have hstore : PlainCode [.stmt (symLoadRef sym), .stmt .assignToLoc] :=
      plainCode_cons (asJump_symLoadRef sym) (plainCode_cons rfl plainCode_nil)
    cases b with
    | false => exact plainCode_cons rfl hstore
    | true => exact hstore

theorem plain_paramViaDefault (sym : ParamSym) (value : ParamDefault) :
    (paramViaDefault sym value).Plain := by
  cases value with
  | immediate value | constObj offset => exact plainCode_cons rfl (plainCode_store true sym)
  | ref offset t => exact plainCode_cons rfl (plainCode_cons rfl (plainCode_store true sym))

/-- So is the call that gives a parameter its default. -/
theorem plainCode_paramViaCallback (sym : ParamSym) (cb : CallbackInfo) :
    PlainCode (paramViaCallback sym cb) := by
  have hrun : PlainCode (runInternalCallback cb) := by
    refine plainCode_append (plainCode_append ?_ ?_) ?_
    · exact plainCode_cons rfl (plainCode_cons rfl plainCode_nil)
    · split
      · exact plainCode_nil
      · exact plainCode_cons rfl plainCode_nil
    · split
      · exact plainCode_cons rfl plainCode_nil
      · exact plainCode_nil
  refine plainCode_append hrun ?_
  cases sym with
  | attr name => exact plainCode_store false _
  | var sym => exact plainCode_store true _

/-- The checks of a parameter are plain. -/
theorem ParamInfo.plain_parts (moduleId : Nat) (p : ParamInfo) :
    ∀ part ∈ p.parts moduleId, part.Plain := by
  have htest : PlainCode (p.test moduleId) := by
    unfold test
    split
    · exact plainCode_cons rfl (plainCode_cons rfl plainCode_nil)
    · exact plainCode_cons rfl (plainCode_cons rfl (plainCode_cons rfl plainCode_nil))
  have hmissing : (paramBailIfMissing p.missing).Plain :=
    plainCode_cons rfl (plainCode_cons rfl plainCode_nil)
  have hcallback : PlainCode ((p.callback.map (paramViaCallback p.sym)).getD []) := by
    cases p.callback with
    | none => exact plainCode_nil
    | some cb => exact plainCode_paramViaCallback p.sym cb
  intro part hpart
  unfold parts at hpart
  rcases List.mem_cons.mp hpart with rfl | hpart
  · exact htest
  · cases hdefault : p.default with
    | some value =>
      rw [hdefault] at hpart
      obtain rfl := List.mem_singleton.mp hpart
      exact plain_paramViaDefault p.sym value
    | none =>
      rw [hdefault] at hpart
      rcases List.mem_cons.mp hpart with rfl | hpart
      · exact hcallback
      · obtain rfl := List.mem_singleton.mp hpart
        exact hmissing

theorem ModuleUnit.plain_parameterChecks (m : ModuleUnit) :
    ∀ part ∈ m.parameterChecks, part.Plain := by
  intro part hpart
  obtain ⟨p, -, hp⟩ := List.mem_flatMap.mp hpart
  exact p.plain_parts m.moduleId part hp

namespace FnDecl

/-- The prologue of a function is plain. -/
theorem plain_prologue (moduleId : Nat) (f : FnDecl) :
    ∀ part ∈ f.prologue moduleId, part.Plain := by
  intro part hpart
  rcases List.mem_append.mp hpart with hpart | hpart
  · cases honce : f.once with
    | none =>
      rw [honce] at hpart
      cases hpart
    | some o =>
      rw [honce] at hpart
      have hmemo : PlainCode (f.returnOnceMemo moduleId o) := by
        unfold returnOnceMemo
        split
        · exact plainCode_nil
        · exact plainCode_cons rfl (plainCode_cons rfl plainCode_nil)
      simp only [List.mem_cons, List.not_mem_nil, or_false] at hpart
      rcases hpart with rfl | rfl | rfl | rfl | rfl
      · exact plainCode_cons rfl plainCode_nil
      · exact hmemo
      · exact plainCode_cons rfl (plainCode_cons rfl plainCode_nil)
      · exact plainCode_cons rfl (plainCode_cons rfl (plainCode_cons rfl plainCode_nil))
      · exact plainCode_cons rfl (plainCode_cons rfl (plainCode_cons rfl plainCode_nil))
  · obtain rfl := List.mem_singleton.mp hpart
    show PlainCode _
    split
    · exact plainCode_nil
    · exact plainCode_cons rfl plainCode_nil

/-- So is its epilogue. -/
theorem plain_epilogue (moduleId : Nat) (f : FnDecl) :
    ∀ part ∈ f.epilogue moduleId, part.Plain := by
  have hmemo : ∀ o, PlainCode (f.setOnceMemo moduleId o) := by
    intro o
    unfold setOnceMemo
    split
    · exact plainCode_nil
    · exact plainCode_cons rfl (plainCode_cons rfl (plainCode_cons rfl plainCode_nil))
  intro part hpart
  simp only [epilogue, List.mem_cons, List.not_mem_nil, or_false] at hpart
  rcases hpart with rfl | rfl | rfl
  · show PlainCode _
    split
    · exact plainCode_nil
    · exact plainCode_append (hmemo _) (plainCode_cons rfl plainCode_nil)
  · show PlainCode _
    split
    · exact plainCode_nil
    · exact plainCode_cons rfl (plainCode_cons rfl plainCode_nil)
    · exact plainCode_cons (asJump_symLoad _) (plainCode_cons rfl plainCode_nil)
  · exact plainCode_cons rfl plainCode_nil

theorem partsJumps_epilogue (moduleId base : Nat) (f : FnDecl) :
    partsJumps base (f.epilogue moduleId) = [] := rfl

end FnDecl

/-- What is added leaves the records of other statements as they were. -/
theorem Adds.fresh {ctx ctx' : ModuleCtx} {n : Nat} {js : List Jump} {es : List Entry}
    {xs : List Exit} {bound bound' : List Nat} (h : Adds bound ctx ctx' n js es xs)
    (hfresh : ∀ c ∈ bound', ctx.gen.controls c = {}) (hdisj : ∀ c ∈ bound', c ∉ bound) :
    ∀ c ∈ bound', ctx'.gen.controls c = {} :=
  fun c hc => (h.controls c (hdisj c hc)).trans (hfresh c hc)

/-- **A function** is added: its prologue, its body and its epilogue. -/
theorem adds_genFunction (moduleId : Nat) {f : FnDecl} {ctx : ModuleCtx}
    (h : BodyReady f.body ctx) :
    Adds f.body.bound ctx (genFunction moduleId f ctx) (f.size moduleId)
      (f.jumps moduleId ctx.counter) (f.entries moduleId ctx.counter)
      (f.exits moduleId ctx.counter) := by
  have hlabel := adds_emitZ (z := .stmt .nop) rfl ctx
  have hprologue := adds_genParts (f.plain_prologue moduleId) (emitZ (.stmt .nop) ctx)
  rw [hlabel.counter] at hprologue
  have hroom := (hlabel.trans hprologue).step (adds_emitZ (z := .stmt (.moveSp 0)) rfl _)
  have hready : BodyReady f.body (emitZ (.stmt (.moveSp 0))
      (genParts (f.prologue moduleId) (emitZ (.stmt .nop) ctx))) :=
    ⟨h.closed, h.nodup, hroom.fresh h.fresh fun _ _ => List.not_mem_nil⟩
  have hbody := adds_genBody hready
  have hstart : ctx.counter + (1 + partsSize (f.prologue moduleId) + 1) =
      f.start moduleId ctx.counter := by
    unfold FnDecl.start
    omega
  rw [hroom.counter, hstart] at hbody
  have hall := ((hroom.trans hbody).step (adds_genParts (f.plain_epilogue moduleId) _)).step
    (adds_setFrame (genParts (f.prologue moduleId) (emitZ (.stmt .nop) ctx)).counter f.frameSize _)
  refine hall.cast rfl ?_
  rw [f.partsJumps_epilogue, List.append_nil, List.append_nil, List.append_nil]
  rfl

/-- All functions are added one behind the other. -/
theorem adds_functions (moduleId : Nat) {fs : List FnDecl}
    (hclosed : ∀ f ∈ fs, f.body.Scoped [] []) (hnodup : (functionsBound fs).Nodup)
    (ctx : ModuleCtx)
    (hfresh : ∀ c ∈ functionsBound fs, ctx.gen.controls c = {}) :
    Adds (functionsBound fs) ctx (fs.foldl (fun ctx f => genFunction moduleId f ctx) ctx)
      (functionsSize moduleId fs) (functionsAt moduleId (FnDecl.jumps moduleId) ctx.counter fs)
      (functionsAt moduleId (FnDecl.entries moduleId) ctx.counter fs)
      (functionsAt moduleId (FnDecl.exits moduleId) ctx.counter fs) := by
  induction fs generalizing ctx with
  | nil => exact Adds.refl ctx
  | cons f fs ih =>
    have hbound : functionsBound (f :: fs) = f.body.bound ++ functionsBound fs := List.flatMap_cons
    rw [hbound] at hnodup hfresh ⊢
    have hready : BodyReady f.body ctx :=
      ⟨hclosed f List.mem_cons_self, (List.nodup_append.mp hnodup).1,
        fun c hc => hfresh c (List.mem_append_left _ hc)⟩
    have hone := adds_genFunction moduleId hready
    have hrest := ih (fun g hg => hclosed g (List.mem_cons_of_mem _ hg))
      (List.nodup_append.mp hnodup).2.1 (genFunction moduleId f ctx)
      (hone.fresh (fun c hc => hfresh c (List.mem_append_right _ hc))
        fun c hc hmem => (List.nodup_append.mp hnodup).2.2 c hmem c hc rfl)
    rw [hone.counter] at hrest
    exact hone.trans hrest

namespace ModuleUnit

variable {m : ModuleUnit}

/-- **The code of a module** is what its parts add. -/
theorem adds_genModuleCode (h : m.Scoped) :
    Adds m.bound {} (genModuleCode m) m.size m.jumps m.entries m.exits := by
  have hlabel := adds_emitZ (z := .stmt .nop) rfl {}
  have hchecks := adds_genParts m.plain_parameterChecks (emitZ (.stmt .nop) {})
  rw [hlabel.counter] at hchecks
  have hroom := ((hlabel.trans hchecks).step
    (adds_emitZ (z := .op (.moduleEnter m.params.length)) rfl _)).step
      (adds_emitZ (z := .stmt (.moveSp 0)) rfl _)
  have hnodup := List.nodup_append.mp h.nodup
  have hready : BodyReady m.body (emitZ (.stmt (.moveSp 0))
      (emitZ (.op (.moduleEnter m.params.length))
        (genParts m.parameterChecks (emitZ (.stmt .nop) {})))) :=
    ⟨h.body, hnodup.1, hroom.fresh (fun _ _ => rfl) fun _ _ => List.not_mem_nil⟩
  have hbody := adds_genBody hready
  have hstart : ({} : ModuleCtx).counter + (1 + partsSize m.parameterChecks + 1 + 1) = m.start :=
    Nat.zero_add _
  rw [hroom.counter, hstart] at hbody
  have hret := ((hroom.trans hbody).step (adds_setFrame (genModule m {}).2 m.maxStackSize _)).step
    (adds_emitZ (z := .op .moduleRet) rfl _)
  -- The label in front of the functions is there when there are functions.
  let done := emitZ (.op .moduleRet) (setFrame (genModule m {}).2 m.maxStackSize (genModule m {}).1)
  obtain ⟨ctx, hctx, hlabels⟩ : ∃ ctx,
      (if m.functions.isEmpty then done else emitZ (.stmt .nop) done) = ctx ∧
        Adds [] done ctx (if m.functions.isEmpty then 0 else 1) [] [] [] := by
    split
    · exact ⟨_, rfl, Adds.refl _⟩
    · exact ⟨_, rfl, adds_emitZ rfl _⟩
  have hmodule := hret.step hlabels
  have hfunctions := adds_functions m.moduleId h.functions hnodup.2.1 ctx
    (hmodule.fresh (fun _ _ => rfl) fun c hc hmem => hnodup.2.2 c hmem c hc rfl)
  have hfrom : ctx.counter = m.functionsStart := by
    rw [hmodule.counter]
    unfold functionsStart start ModuleCtx.counter GenCtx.counter
    simp only [List.length_nil]
    omega
  rw [hfrom] at hfunctions
  have hall := hmodule.trans hfunctions
  have hgen : genModuleCode m =
      m.functions.foldl (fun ctx f => genFunction m.moduleId f ctx) ctx := by
    rw [← hctx]
    rfl
  rw [hgen]
  refine hall.cast ?_ ?_
  · unfold size functionsStart start
    omega
  · simp only [List.append_nil, List.nil_append]
    rfl

end ModuleUnit

/-! ## Every jump stays in the module -/

theorem Targets.within_outermost (bound : Nat) : Targets.outermost.Within [] [] bound where
  exit _ hc := absurd hc List.not_mem_nil
  entry _ hc := absurd hc List.not_mem_nil

/-- A part jumps no further than its end. -/
theorem partsJumps_le (ps : List Part) (base : Nat) :
    ∀ jmp ∈ partsJumps base ps, jmp.target ≤ base + partsSize ps := by
  induction ps generalizing base with
  | nil => exact fun _ h => absurd h List.not_mem_nil
  | cons p ps ih =>
    have hsize : partsSize (p :: ps) = p.size + partsSize ps := List.sum_cons
    intro jmp hjmp
    cases p with
    | code zs =>
      have hle := ih _ jmp hjmp
      rw [hsize, Part.size]
      omega
    | skip op zs =>
      rw [hsize, Part.size]
      rcases List.mem_cons.mp hjmp with rfl | hjmp
      · dsimp only
        omega
      · have hle := ih _ jmp hjmp
        omega

/-- A function jumps inside of itself. -/
theorem FnDecl.jumps_lt (moduleId base : Nat) (f : FnDecl) (hclosed : f.body.Scoped [] [])
    (he : ∀ e ∈ f.body.exprs, e.Resolved) :
    ∀ jmp ∈ f.jumps moduleId base, jmp.target < base + f.size moduleId := by
  have hret : 1 ≤ partsSize (f.epilogue moduleId) := by
    simp only [partsSize, epilogue, List.map_cons, List.map_nil, List.sum_cons, List.sum_nil,
      Part.size, List.length_singleton]
    omega
  intro jmp hjmp
  unfold size
  rcases List.mem_append.mp hjmp with hjmp | hjmp
  · have hle := partsJumps_le _ _ jmp hjmp
    omega
  · have hle := f.body.jumps_le (f.start moduleId base) hclosed he
      (Targets.within_outermost (f.start moduleId base + f.body.size)) (Nat.le_refl _) jmp hjmp
    unfold start at hle
    omega

theorem functionsAt_jumps_lt {moduleId : Nat} {fs : List FnDecl}
    (hclosed : ∀ f ∈ fs, f.body.Scoped [] [])
    (he : ∀ e ∈ fs.flatMap (·.body.exprs), e.Resolved) (base : Nat) :
    ∀ jmp ∈ functionsAt moduleId (FnDecl.jumps moduleId) base fs,
      jmp.target < base + functionsSize moduleId fs := by
  induction fs generalizing base with
  | nil => exact fun _ h => absurd h List.not_mem_nil
  | cons f fs ih =>
    rw [List.flatMap_cons] at he
    have hsize : functionsSize moduleId (f :: fs) = f.size moduleId + functionsSize moduleId fs :=
      List.sum_cons
    intro jmp hjmp
    rw [hsize]
    rcases List.mem_append.mp hjmp with hjmp | hjmp
    · have hlt := f.jumps_lt moduleId base (hclosed f List.mem_cons_self)
        (fun e h => he e (List.mem_append_left _ h)) jmp hjmp
      omega
    · have hlt := ih (fun g hg => hclosed g (List.mem_cons_of_mem _ hg))
        (fun e h => he e (List.mem_append_right _ h)) _ jmp hjmp
      omega

namespace ModuleUnit

variable {m : ModuleUnit}

/-- **A module jumps** inside of its code. -/
theorem jumps_lt (h : m.Scoped) (he : ∀ e ∈ m.exprs, e.Resolved) :
    ∀ jmp ∈ m.jumps, jmp.target < m.size := by
  intro jmp hjmp
  unfold size
  rcases List.mem_append.mp hjmp with hjmp | hjmp
  · have hbehind : m.start + m.body.size < m.functionsStart := by
      unfold functionsStart
      omega
    rcases List.mem_append.mp hjmp with hjmp | hjmp
    · have hle := partsJumps_le _ _ jmp hjmp
      unfold functionsStart start at *
      omega
    · have hle := m.body.jumps_le m.start h.body (fun e h => he e (List.mem_append_left _ h))
        (Targets.within_outermost (m.start + m.body.size)) (Nat.le_refl _) jmp hjmp
      omega
  · exact functionsAt_jumps_lt h.functions (fun e h => he e (List.mem_append_right _ h)) _ jmp hjmp

theorem entries_sublist (moduleId base : Nat) (fs : List FnDecl) :
    ((functionsAt moduleId (FnDecl.entries moduleId) base fs).map (·.record)).Sublist
      (functionsBound fs) := by
  induction fs generalizing base with
  | nil => exact List.Sublist.slnil
  | cons f fs ih =>
    rw [functionsAt, List.map_append]
    exact (f.body.entries_subset _ 0).append (ih _)

theorem exits_perm (moduleId base : Nat) (fs : List FnDecl) :
    ((functionsAt moduleId (FnDecl.exits moduleId) base fs).map (·.record)).Perm
      (functionsBound fs) := by
  induction fs generalizing base with
  | nil => exact List.Perm.nil
  | cons f fs ih =>
    rw [functionsAt, List.map_append]
    exact (f.body.exits_perm _).append (ih _)

/-- The entry of a statement is where its record says. -/
theorem entryIp_of_mem (h : m.Scoped) {e : Entry} (he : e ∈ m.entries) :
    ((genModuleCode m).gen.controls e.record).entryIp = e.ip := by
  have hset : (genModuleCode m).gen.entryOf e.record = e.ip := by
    rw [(adds_genModuleCode h).entryOf]
    refine setEntries_of_mem (h.nodup.sublist ?_) he _
    unfold entries bound
    rw [List.map_append]
    exact (m.body.entries_subset _ 0).append (entries_sublist _ _ _)
  exact hset

/-- So is its exit. -/
theorem exitIp_of_mem (h : m.Scoped) {x : Exit} (hx : x ∈ m.exits) :
    ((genModuleCode m).gen.controls x.record).exitIp = x.ip := by
  have hset : (genModuleCode m).gen.exitOf x.record = x.ip := by
    rw [(adds_genModuleCode h).exitOf]
    refine setExits_of_mem (List.Perm.nodup_iff ?_ |>.mpr h.nodup) hx _
    unfold exits bound
    rw [List.map_append]
    exact (m.body.exits_perm _).append (exits_perm _ _ _)
  exact hset

/-- **Every jump in the code of a module goes where its construct says, which is in the module.**
`jumps` are these places, and `entries` and `exits` the ones in the records. -/
theorem jumps_resolved (m : ModuleUnit) (h : m.Scoped)
    (hexprs : ∀ e ∈ m.exprs, ∃ n : Node, e = n.exprCode) :
    jumpsOfZ 0 (genModuleCode m).code = m.jumps ∧
      (∀ jmp ∈ m.jumps, jmp.target < (genModuleCode m).code.length) ∧
      (∀ e ∈ m.entries, ((genModuleCode m).gen.controls e.record).entryIp = e.ip) ∧
      (∀ x ∈ m.exits, ((genModuleCode m).gen.controls x.record).exitIp = x.ip) ∧
      ∀ e ∈ m.exprs, ∃ n : Node, e = n.exprCode ∧ ∀ base, e.jumps base = n.jumps base := by
  have hadds := adds_genModuleCode h
  have hnoted : (genModuleCode m).Noted := hadds.noted fun _ _ ho => by cases ho
  have hlength : (genModuleCode m).code.length = m.size := by
    rw [ModuleCtx.code, List.length_mapIdx]
    exact hadds.counter.trans (Nat.zero_add _)
  have he : ∀ e ∈ m.exprs, e.Resolved := by
    intro e hmem
    obtain ⟨n, rfl⟩ := hexprs e hmem
    exact n.resolved
  refine ⟨?_, ?_, fun e => entryIp_of_mem h, fun x => exitIp_of_mem h, fun e hmem => ?_⟩
  · rw [jumpsOfZ, ModuleCtx.map_view_code hnoted]
    exact hadds.jumps
  · rw [hlength]
    exact jumps_lt h he
  · obtain ⟨n, rfl⟩ := hexprs e hmem
    exact ⟨n, rfl, n.jumps_exprCode⟩

/-- `while x { if y { break } else { continue } }`, and a function that is one `switch` with a
`break` in a case. -/
def loopAndSwitch : ModuleUnit where
  moduleId := 0
  params := []
  body := .while { branchInfo := 0 } (Node.identifier (.stack 0)).exprCode
    (.cond (Node.identifier (.stack 1)).exprCode (.break 0) (.else (.continue 0)))
  maxStackSize := 2
  functions := [{
    voidReturn := true
    retsym := none
    body := .switch 1 false (Node.identifier (.stack 0)).exprCode .int
      (.case [.value (Node.simpleLit 3).exprCode] (.break 1) .none)
    frameSize := 1 }]

theorem jumps_resolved_loopAndSwitch :
    jumpsOfZ 0 (genModuleCode loopAndSwitch).code =
        [⟨6, .jz, 13⟩, ⟨8, .jz, 11⟩, ⟨9, .j, 13⟩, ⟨10, .j, 12⟩, ⟨11, .j, 3⟩, ⟨12, .j, 3⟩,
          ⟨21, .jnz, 23⟩, ⟨22, .j, 25⟩, ⟨23, .j, 25⟩, ⟨24, .j, 25⟩] ∧
      (∀ jmp ∈ loopAndSwitch.jumps, jmp.target < (genModuleCode loopAndSwitch).code.length) ∧
      ((genModuleCode loopAndSwitch).gen.controls 0).entryIp = 3 ∧
      ((genModuleCode loopAndSwitch).gen.controls 0).exitIp = 13 := by
  have hscoped : loopAndSwitch.Scoped := by
    refine ⟨?_, ?_, by decide⟩
    · exact ⟨List.mem_cons_self, List.mem_cons_self⟩
    · intro f hf
      obtain rfl := List.mem_singleton.mp hf
      exact ⟨List.mem_cons_self, trivial⟩
  have hexprs : ∀ e ∈ loopAndSwitch.exprs, ∃ n : Node, e = n.exprCode := by
    intro e he
    have hcases : e ∈ [(Node.identifier (.stack 0)).exprCode, (Node.identifier (.stack 1)).exprCode,
      (Node.identifier (.stack 0)).exprCode, (Node.simpleLit 3).exprCode] := he
    simp only [List.mem_cons, List.not_mem_nil, or_false] at hcases
    rcases hcases with rfl | rfl | rfl | rfl <;> exact ⟨_, rfl⟩
  obtain ⟨hjumps, hlt, hentry, hexit, -⟩ := jumps_resolved loopAndSwitch hscoped hexprs
  refine ⟨hjumps.trans (by decide), hlt, ?_, ?_⟩
  · exact hentry ⟨0, 3, 0⟩ List.mem_cons_self
  · exact hexit ⟨0, 13⟩ List.mem_cons_self

end ModuleUnit

end N00b.Codegen
