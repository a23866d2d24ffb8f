import N00b.Codegen.Emit
import N00b.Parse.Context

/-!
# Code for expressions

`gen_one_node` on the nodes of expressions over words: literals, identifiers, binary and unary
operators, comparisons, `and` and `or`. `Node` is the tree as the check pass leaves it, with the
type that `gen_binary_op` dispatches on.

`code` is the same code laid out directly, with every jump at its target from the start.
`gen_appends` connects the two, so that what is proved about `code` holds of what is emitted.
-/

namespace N00b.Codegen

open N00b.Vm N00b.Parse

/-! ## Symbols -/

/-- Where a symbol lives, as `gen_sym_load` finds out from its kind and flags: constants of value
types are loaded as immediates, formals, variables of functions and most loop variables are stack
slots, other variables are module slots. -/
inductive Symbol where
  | const (value : Word)
  | stack (staticOffset : Nat)
  | static (localModuleId staticOffset : Nat)
  deriving DecidableEq, Repr

/-- `gen_sym_load` of a value. -/
def symLoad : Symbol → Instr
  | .const value => .pushImm value
  | .stack offset => .pushLocalObj offset
  | .static moduleId offset => .pushStaticObj moduleId offset

/-- `gen_sym_load` with `addressof`, which the constants do not get to. -/
def symLoadRef : Symbol → Instr
  | .const value => .pushImm value
  | .stack offset => .pushLocalRef offset
  | .static moduleId offset => .pushStaticRef moduleId offset

/-! ## Operators -/

/-- `gen_int_binary_op`. -/
def genIntBinaryOp (op : Operator) (sign : Bool) : Instr :=
  match op with
  | .plus => .arith (if sign then .add else .uadd)
  | .minus => .arith (if sign then .sub else .usub)
  | .mul => .arith (if sign then .mul else .umul)
  | .div | .fdiv => .arith (if sign then .div else .udiv)
  | .mod => .arith (if sign then .mod else .umod)
  | .shl => .arith .shl
  | .shr => .arith .shr
  | .bitand => .arith .band
  | .bitor => .arith .bor
  | .bitxor => .arith .bxor
  | .lt => .compare (if sign then .lt else .ult)
  | .lte => .compare (if sign then .lte else .ulte)
  | .gt => .compare (if sign then .gt else .ugt)
  | .gte => .compare (if sign then .gte else .ugte)
  | .eq => .compare .cmp
  | .neq => .compare .neq

/-- `gen_polymorphic_binary_op`. The operators it declares unreachable emit nothing. -/
def genPolymorphicBinaryOp (op : Operator) (t : Builtin) : List Instr :=
  match op with
  | .plus => [.tcall .add (some t)]
  | .minus => [.tcall .sub (some t)]
  | .mul => [.tcall .mul (some t)]
  | .div => [.tcall .div (some t)]
  | .mod => [.tcall .mod (some t)]
  | .lt => [.tcall .lt (some t)]
  | .gt => [.tcall .gt (some t)]
  | .eq => [.tcall .eq (some t)]
  | .neq => [.tcall .eq (some t), .not]
  | .lte => [.tcall .gt (some t), .not]
  | .gte => [.tcall .lt (some t), .not]
  | .fdiv | .shl | .shr | .bitand | .bitor | .bitxor => []

/-- `gen_float_binary_op`. The operators it declares unreachable emit nothing. -/
def genFloatBinaryOp : Operator → List Instr
  | .plus => [.float .fadd]
  | .minus => [.float .fsub]
  | .mul => [.float .fmul]
  | .div | .fdiv => [.float .fdiv]
  | _ => []

/-- `skip_poly_call`. -/
def skipPolyCall (t : Builtin) : Bool := t.isBox || t.isIntType || t.isFloatType

/-- What `gen_binary_op` emits after the operands. -/
def genBinaryOp (op : Operator) (t : Builtin) : List Instr :=
  if !skipPolyCall t then genPolymorphicBinaryOp op t
  else if t.isIntType then [genIntBinaryOp op t.isSigned]
  else if t.unbox = .bool then [genIntBinaryOp op false]
  else if t.unbox = .f64 then genFloatBinaryOp op
  else []

/-! ## Nodes -/

/-- A checked expression tree. A comparison dispatches on the type of its first operand, another
binary operator on its own. -/
inductive Node where
  | simpleLit (value : Word)
  | identifier (sym : Symbol)
  | binaryOp (op : Operator) (type : Builtin) (left right : Node)
  | cmp (op : Operator) (type : Builtin) (left right : Node)
  | unaryOp (isNot : Bool) (kid : Node)
  | and (left right : Node)
  | or (left right : Node)
  | expression (kid : Node)
  deriving DecidableEq, Repr

def emitAll (is : List Instr) (ctx : GenCtx) : GenCtx :=
  { ctx with instructions := ctx.instructions ++ is }

/-- `gen_one_node`. -/
def gen : Node → GenCtx → GenCtx
  | .simpleLit value => genLoadImmediate value
  | .identifier sym => emit (symLoad sym)
  | .binaryOp op t l r => fun ctx => emitAll (genBinaryOp op t) (gen r (gen l ctx))
  | .cmp op t l r => fun ctx => emitAll (genBinaryOp op t) (gen r (gen l ctx))
  | .unaryOp true kid => fun ctx => emit .not (gen kid (gen kid ctx))
  | .unaryOp false kid => fun ctx => emit (.arith .mul) (genLoadImmediate (-1) (gen kid ctx))
  | .or l r => fun ctx => genJnzNoPop (fun ctx => gen r (emit .pop ctx)) (gen l ctx)
  | .and l r => fun ctx => genJzNoPop (fun ctx => gen r (emit .pop ctx)) (gen l ctx)
  | .expression kid => gen kid

/-! ## The layout -/

def Node.size : Node → Nat
  | .simpleLit _ | .identifier _ => 1
  | .binaryOp op t l r | .cmp op t l r => l.size + r.size + (genBinaryOp op t).length
  | .unaryOp true kid => kid.size + kid.size + 1
  | .unaryOp false kid => kid.size + 2
  | .or l r | .and l r => l.size + 3 + r.size
  | .expression kid => kid.size

/-- The code of a node that starts at `base`. -/
def Node.code : Node → Nat → List Instr
  | .simpleLit value, _ => [.pushImm value]
  | .identifier sym, _ => [symLoad sym]
  | .binaryOp op t l r, base | .cmp op t l r, base =>
    l.code base ++ (r.code (base + l.size) ++ genBinaryOp op t)
  | .unaryOp true kid, base => kid.code base ++ (kid.code (base + kid.size) ++ [.not])
  | .unaryOp false kid, base => kid.code base ++ [.pushImm (-1), .arith .mul]
  | .or l r, base =>
    let start := base + l.size + 3
    l.code base ++ (.dupTop :: .jnz (start + r.size) :: .pop :: r.code start)
  | .and l r, base =>
    let start := base + l.size + 3
    l.code base ++ (.dupTop :: .jz (start + r.size) :: .pop :: r.code start)
  | .expression kid, base => kid.code base

theorem Node.length_code : ∀ (n : Node) (base : Nat), (n.code base).length = n.size
  | .simpleLit _, _ | .identifier _, _ => rfl
  | .binaryOp _ _ l r, base | .cmp _ _ l r, base => by
    simp only [code, size, List.length_append, l.length_code, r.length_code, Nat.add_assoc]
  | .unaryOp true kid, base => by
    simp only [code, size, List.length_append, kid.length_code, List.length_singleton,
      Nat.add_assoc]
  | .unaryOp false kid, base => by
    simp only [code, size, List.length_append, kid.length_code, List.length_cons, List.length_nil]
  | .or l r, base | .and l r, base => by
    simp only [code, size, List.length_append, l.length_code, r.length_code, List.length_cons]
    omega
  | .expression kid, base => kid.length_code base

theorem appends_emitAll (is : List Instr) : Appends (emitAll is) fun _ => is := fun _ => rfl

theorem appends_shortCircuit {op : JumpOp} {l r : Node} (hop : op ≠ .j)
    (hl : Appends (gen l) l.code) (hr : Appends (gen r) r.code) :
    Appends (fun ctx => jmpTemplate op false (fun ctx => gen r (emit .pop ctx)) (gen l ctx))
      fun base => l.code base ++ (.dupTop :: op.instr (base + l.size + 3 + r.size) :: .pop ::
        r.code (base + l.size + 3)) := by
  have hdup : op.dup false = [.dupTop] := by simp [JumpOp.dup, hop]
  intro ctx
  rw [(hl.comp ((appends_emit .pop).comp hr).jmpTemplate) ctx, hdup]
  simp only [Node.length_code, List.length_nil, List.length_cons, List.singleton_append,
    Nat.zero_add]
  have hend : ctx.counter + l.size + 1 + 1 + (r.size + 1) = ctx.counter + l.size + 3 + r.size := by
    omega
  rw [hend]

theorem gen_appends : ∀ n : Node, Appends (gen n) n.code
  | .simpleLit _ => appends_emit _
  | .identifier _ => appends_emit _
  | .binaryOp op t l r | .cmp op t l r => by
    intro ctx
    rw [gen, ((gen_appends l).comp (gen_appends r)).comp (appends_emitAll _) ctx]
    simp only [Node.code, Node.length_code, List.append_assoc]
  | .unaryOp true kid => by
    intro ctx
    rw [gen, ((gen_appends kid).comp (gen_appends kid)).comp (appends_emit _) ctx]
    simp only [Node.code, Node.length_code, List.append_assoc]
  | .unaryOp false kid => by
    intro ctx
    have h := ((gen_appends kid).comp (appends_emit (.pushImm (-1)))).comp
      (appends_emit (.arith .mul)) ctx
    simp only [List.append_assoc, List.singleton_append] at h
    exact h
  | .or l r => appends_shortCircuit (by decide) (gen_appends l) (gen_appends r)
  | .and l r => appends_shortCircuit (by decide) (gen_appends l) (gen_appends r)
  | .expression kid => gen_appends kid

end N00b.Codegen
