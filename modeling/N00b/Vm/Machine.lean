import N00b.Core.Builtin
import N00b.Lib.Region

/-!
# The virtual machine

The part of `n00b_vm_runloop` that expressions and statements use, with the operand stack as the
array it is: `sp` and `fp` are indices into `stack`, and the stack grows down.

## Representation

* A stack value is a word of 64 bits.
* `Raise` is an exception of the run loop. `undefined` stands where the C code computes something
  the language leaves undefined: a signed subtraction that overflows, a shift by 64 or more, the
  quotient of the least integer and `-1`, and the unchecked divisions by zero.
* What the machine asks of the rest of the runtime (methods of types, attributes, memory behind
  pointers) is the parameter `Host`. How many slots such an instruction takes and leaves is fixed
  by the run loop, the words are the host's.
-/

namespace N00b.Vm

open N00b.Lib

abbrev Word := BitVec 64

/-- `N00B_STACK_SIZE`. -/
def stackSize : Nat := 2 ^ 17

/-! ## Instructions -/

/-- The two-operand instructions on integers. -/
inductive ArithOp where
  | add | sub | mul | div | mod | uadd | usub | umul | udiv | umod
  | bor | band | bxor | shl | shr
  deriving DecidableEq, Repr

/-- The instructions that are `SIMPLE_COMPARE` or `SIMPLE_COMPARE_UNSIGNED`. -/
inductive CmpOp where
  | cmp | neq | lt | lte | gt | gte | ult | ulte | ugt | ugte
  deriving DecidableEq, Repr

inductive Reg where
  | r0 | r1 | r2 | r3
  deriving DecidableEq, Repr

/-- The members of `n00b_builtin_type_fn` that generated code calls through `ZTCall`. -/
inductive TypeFn where
  | view | copy | add | sub | mul | div | mod | eq | lt | gt | len
  | indexGet | indexSet | sliceGet | sliceSet
  deriving DecidableEq, Repr

inductive FloatOp where
  | fadd | fsub | fmul | fdiv
  deriving DecidableEq, Repr

/-- `n00b_zinstruction_t`: the operation with the fields it reads. -/
inductive Instr where
  | nop
  | moveSp (arg : Int)
  | pushConstObj (arg : Nat)
  | pushImm (immediate : Word)
  | pushLocalObj (arg : Nat)
  | pushLocalRef (arg : Nat)
  | pushStaticObj (moduleId arg : Nat)
  | pushStaticRef (moduleId arg : Nat)
  | dupTop
  | pop
  | deref
  | jz (arg : Nat)
  | jnz (arg : Nat)
  | j (arg : Nat)
  | arith (op : ArithOp)
  | float (op : FloatOp)
  | compare (op : CmpOp)
  | subNoPop
  | shlI (arg : Word)
  | not
  | abs
  | getSign
  | swap
  | gteNoPop
  | cmpNoPop
  | unsteal
  | popTo (r : Reg)
  | pushFrom (r : Reg)
  | tcall (fn : TypeFn) (typeInfo : Option Builtin)
  | pushObjType
  | typeCmp
  | loadFromView (arg : Bool)
  | assignToLoc
  | loadFromAttr (flag : Bool)
  | assignAttr (lock : Bool)
  | unpack (arg : Nat)
  deriving DecidableEq, Repr

/-! ## States -/

/-- What a pointer word points at. -/
inductive Loc where
  | slot (addr : Nat)
  | static (moduleId offset : Nat)
  | heap (addr : Word)
  deriving DecidableEq, Repr

/-- Why a run ends early. -/
inductive Fault where
  | raise (message : String)
  | undefined
  deriving DecidableEq, Repr

/-- `n00b_vmthread_t`. `host` is the state of everything else. -/
structure VmState (H : Type) where
  pc : Nat
  sp : Nat
  fp : Nat
  stack : Nat → Word
  statics : Nat → Nat → Word
  regs : Reg → Word
  host : H

/-- A call into the rest of the runtime. Reading an item of a view depends on the register `r1`,
too, which counts the items. -/
inductive HostOp where
  | constObj (arg : Nat)
  | float (op : FloatOp)
  | tcall (fn : TypeFn) (typeInfo : Option Builtin)
  | objType
  | typeCmp
  | view (kv : Bool) (count : Word)
  | loadAttr (flag : Bool)
  | assignAttr (lock : Bool)
  | tupleGet (ix : Nat)
  deriving DecidableEq, Repr

/-- The rest of the runtime: pointers, memory behind them, and calls. A call gets its operands from
the top of the stack down and gives the word for each slot it leaves, or the fault that ends it. -/
structure Host (H : Type) where
  locOf : Word → Loc
  refOf : Loc → Word
  read : Word → H → Word
  write : Word → Word → H → H
  call : HostOp → List Word → H → Except Fault ((Nat → Word) × H)

variable {H : Type}

abbrev StepResult (H : Type) := Next (VmState H) Fault

namespace VmState

/-- `tstate->sp[i]`. -/
def peek (st : VmState H) (i : Nat) : Word := st.stack (st.sp + i)

def poke (st : VmState H) (addr : Nat) (w : Word) : VmState H :=
  { st with stack := Function.update st.stack addr w }

/-- `--tstate->sp; *tstate->sp = w`. -/
def push (st : VmState H) (w : Word) : VmState H :=
  { st with sp := st.sp - 1, stack := Function.update st.stack (st.sp - 1) w }

/-- `tstate->sp += n`. -/
def drop (st : VmState H) (n : Nat) : VmState H := { st with sp := st.sp + n }

/-- `++tstate->pc`. -/
def next (st : VmState H) : VmState H := { st with pc := st.pc + 1 }

end VmState

/-- `STACK_REQUIRE_VALUES`. -/
def requireValues (n : Nat) (st : VmState H) (k : StepResult H) : StepResult H :=
  if st.sp + n ≤ stackSize then k else .halt (.raise "stack underflow")

/-- `STACK_REQUIRE_SLOTS`. -/
def requireSlots (n : Nat) (st : VmState H) (k : StepResult H) : StepResult H :=
  if n ≤ st.sp then k else .halt (.raise "stack overflow")

/-! ## Arithmetic -/

def intMin : Word := BitVec.intMin 64

/-- The operators on the left operand `a` and the right operand `b`, which was on top. -/
def arithWord : ArithOp → Word → Word → Except Fault Word
  | .add, a, b => .ok (a + b)
  | .sub, a, b => if a.ssubOverflow b then .error .undefined else .ok (a - b)
  | .mul, a, b => .ok (a * b)
  | .div, a, b =>
    if b = 0 then .error (.raise "Division by zero error.")
    else if a = intMin ∧ b = -1 then .error .undefined
    else .ok (a.sdiv b)
  | .mod, a, b => if b = 0 then .error .undefined else .ok (a.umod b)
  | .uadd, a, b => .ok (a + b)
  | .usub, a, b => .ok (a - b)
  | .umul, a, b => .ok (a * b)
  | .udiv, a, b => if b = 0 then .error .undefined else .ok (a.udiv b)
  | .umod, a, b => if b = 0 then .error .undefined else .ok (a.umod b)
  | .bor, a, b => .ok (a ||| b)
  | .band, a, b => .ok (a &&& b)
  | .bxor, a, b => .ok (a ^^^ b)
  | .shl, a, b => if b.toNat < 64 then .ok (a <<< b.toNat) else .error .undefined
  | .shr, a, b => if b.toNat < 64 then .ok (a >>> b.toNat) else .error .undefined

def ofBool (b : Bool) : Word := if b then 1 else 0

/-- The comparisons. The unsigned ones copy their operands to signed variables first and so
compare them as signed, too. -/
def compareWord : CmpOp → Word → Word → Bool
  | .cmp, a, b => a == b
  | .neq, a, b => a != b
  | .lt, a, b | .ult, a, b => a.slt b
  | .lte, a, b | .ulte, a, b => a.sle b
  | .gt, a, b | .ugt, a, b => b.slt a
  | .gte, a, b | .ugte, a, b => b.sle a

/-- `n00b_eq`, `n00b_lt` and `n00b_gt` at a type without a method of its own: the two words are
compared as pointers. -/
def rawTypeFn : TypeFn → Word → Word → Option Bool
  | .eq, a, b => some (a == b)
  | .lt, a, b => some (a.ult b)
  | .gt, a, b => some (b.ult a)
  | _, _, _ => none

/-! ## One step -/

/-- How many slots a method call takes off the stack and how many it leaves in their place. -/
def TypeFn.operands : TypeFn → Nat
  | .view | .copy | .len => 1
  | .add | .sub | .mul | .div | .mod | .eq | .lt | .gt | .indexGet => 2
  | .indexSet | .sliceGet => 3
  | .sliceSet => 4

def TypeFn.results : TypeFn → Nat
  | .view => 2
  | .indexSet | .sliceSet => 0
  | _ => 1

section

variable (host : Host H)

/-- `n` operands from the top of the stack down. -/
def VmState.operands (st : VmState H) (n : Nat) : List Word := (List.range n).map st.peek

/-- Replaces `pops` slots by `pushes` words of the host; word `0` is the new top. -/
def hostCall (op : HostOp) (pops pushes : Nat) (st : VmState H) : StepResult H :=
  match host.call op (st.operands pops) st.host with
  | .error f => .halt f
  | .ok (ws, h) =>
    let sp := st.sp + pops - pushes
    .ok { st with
      pc := st.pc + 1
      sp
      stack := fun a => if sp ≤ a ∧ a < sp + pushes then ws (a - sp) else st.stack a
      host := h }

/-- `*ptr = w`. -/
def store (ptr w : Word) (st : VmState H) : VmState H :=
  match host.locOf ptr with
  | .slot addr => st.poke addr w
  | .static m off =>
    { st with statics := Function.update st.statics m (Function.update (st.statics m) off w) }
  | .heap p => { st with host := host.write p w st.host }

/-- `*ptr`. -/
def load (ptr : Word) (st : VmState H) : Word :=
  match host.locOf ptr with
  | .slot addr => st.stack addr
  | .static m off => st.statics m off
  | .heap p => host.read p st.host

/-- A result in place of the top `n + 1` slots. -/
def replaceTop (n : Nat) (w : Word) (st : VmState H) : VmState H :=
  (st.drop n).poke (st.sp + n) w

/-- The loop of `ZUnpack`: item `arg - x` of the tuple in `r1` goes where the top slot points. -/
def unpackLoop (arg : Nat) : Nat → VmState H → StepResult H
  | 0, st => .ok st.next
  | n + 1, st =>
    match host.call (.tupleGet n) [st.regs .r1] st.host with
    | .error f => .halt f
    | .ok (ws, h) =>
      unpackLoop arg n ((store host (st.peek 0) (ws 0) { st with host := h }).drop 1)

/-- One turn of the run loop at the instruction `i`. -/
def execInstr (i : Instr) (st : VmState H) : StepResult H :=
  match i with
  | .nop => .ok st.next
  | .moveSp arg =>
    -- For a negative `arg` the check is `sp > &stack[SIZE - arg]`, which never fails.
    if 0 < arg then requireSlots arg.toNat st (.ok { st with sp := st.sp - arg.toNat }.next)
    else .ok (st.drop (-arg).toNat).next
  | .pushConstObj arg => requireSlots 1 st (hostCall host (.constObj arg) 0 1 st)
  | .pushImm w => requireSlots 1 st (.ok (st.push w).next)
  | .pushLocalObj arg => requireSlots 1 st (.ok (st.push (st.stack (st.fp - arg))).next)
  | .pushLocalRef arg => requireSlots 1 st (.ok (st.push (host.refOf (.slot (st.fp - arg)))).next)
  | .pushStaticObj m arg => requireSlots 1 st (.ok (st.push (st.statics m arg)).next)
  | .pushStaticRef m arg => requireSlots 1 st (.ok (st.push (host.refOf (.static m arg))).next)
  | .dupTop => requireValues 1 st (requireSlots 1 st (.ok (st.push (st.peek 0)).next))
  | .pop => requireValues 1 st (.ok (st.drop 1).next)
  | .deref => requireValues 1 st (.ok (replaceTop 0 (load host (st.peek 0) st) st).next)
  | .jz arg => requireValues 1 st <|
    if st.peek 0 = 0 then .ok { st with pc := arg } else .ok (st.drop 1).next
  | .jnz arg => requireValues 1 st <|
    if st.peek 0 ≠ 0 then .ok { st with pc := arg } else .ok (st.drop 1).next
  | .j arg => .ok { st with pc := arg }
  | .arith op => requireValues 2 st <|
    match arithWord op (st.peek 1) (st.peek 0) with
    | .ok w => .ok (replaceTop 1 w st).next
    | .error f => .halt f
  | .float op => requireValues 2 st (hostCall host (.float op) 2 1 st)
  | .compare op => requireValues 2 st <|
    .ok (replaceTop 1 (ofBool (compareWord op (st.peek 1) (st.peek 0))) st).next
  | .subNoPop => requireValues 2 st <| requireSlots 1 st <|
    match arithWord .sub (st.peek 1) (st.peek 0) with
    | .ok w => .ok (st.push w).next
    | .error f => .halt f
  | .shlI arg => requireValues 1 st <|
    match arithWord .shl arg (st.peek 0) with
    | .ok w => .ok (replaceTop 0 w st).next
    | .error f => .halt f
  | .not => requireValues 1 st (.ok (replaceTop 0 (ofBool (st.peek 0 == 0)) st).next)
  | .abs => requireValues 1 st <|
    let sign := (st.peek 0).sshiftRight 63
    .ok (replaceTop 0 ((st.peek 0 ^^^ sign) + (sign &&& 1)) st).next
  | .getSign => requireValues 1 st <|
    .ok (replaceTop 0 ((st.peek 0).sshiftRight 63 ||| 1) st).next
  | .swap => requireValues 2 st <|
    .ok ((st.poke st.sp (st.peek 1)).poke (st.sp + 1) (st.peek 0)).next
  | .gteNoPop => requireValues 2 st <| requireSlots 1 st <|
    .ok (st.push (ofBool ((st.peek 0).ule (st.peek 1)))).next
  | .cmpNoPop => requireValues 2 st <| requireSlots 1 st <|
    .ok (st.push (ofBool (st.peek 1 == st.peek 0))).next
  | .unsteal => requireValues 1 st <| requireSlots 1 st <|
    .ok ((st.poke st.sp (st.peek 0 &&& ~~~ 7)).push (st.peek 0 &&& 7)).next
  | .popTo r => requireValues 1 st <|
    .ok { st with regs := Function.update st.regs r (st.peek 0), sp := st.sp + 1 }.next
  | .pushFrom .r3 =>
    -- `ZPushFromR3` moves `sp` before it asks for a slot.
    requireSlots 2 st (.ok (st.push (st.regs .r3)).next)
  | .pushFrom r => requireSlots 1 st (.ok (st.push (st.regs r)).next)
  | .tcall fn ty => requireValues fn.operands st <| requireSlots (fn.results - fn.operands) st <|
    match (if ty = some .bool then rawTypeFn fn (st.peek 1) (st.peek 0) else none) with
    | some b => .ok (replaceTop 1 (ofBool b) st).next
    | none => hostCall host (.tcall fn ty) fn.operands fn.results st
  | .pushObjType => requireSlots 1 st (hostCall host .objType 1 1 st)
  | .typeCmp => requireValues 2 st (hostCall host .typeCmp 2 1 st)
  | .loadFromView kv => requireValues 2 st <| requireSlots 2 st <|
    -- Only items of eight bytes come in pairs.
    hostCall host (.view kv (st.regs .r1)) 2 (if kv && st.peek 0 == 8 then 4 else 3) st
  | .assignToLoc => requireValues 2 st <|
    .ok ((store host (st.peek 0) (st.peek 1) st).drop 2).next
  | .loadFromAttr flag => requireValues 1 st <|
    hostCall host (.loadAttr flag) 1 (if flag then 2 else 1) st
  | .assignAttr lock => requireValues 2 st (hostCall host (.assignAttr lock) 2 0 st)
  | .unpack arg => unpackLoop host arg arg st

/-- One turn of the run loop. Past the last instruction there is nothing to fetch. -/
def step (code : List Instr) (st : VmState H) : StepResult H :=
  match code[st.pc]? with
  | some i => execInstr host i st
  | none => .halt .undefined

end

end N00b.Vm
