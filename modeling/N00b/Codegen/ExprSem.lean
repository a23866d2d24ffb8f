import N00b.Codegen.Expr

/-!
# The meaning of expressions

Expressions over 64-bit integers and booleans, their value, and the tree that the check pass hands
to the code generator for them. `Clean` is the part of the evaluations that the generated code gets
right.
-/

namespace N00b.Codegen

open N00b.Vm N00b.Parse

/-! ## The language -/

inductive Ty where
  | int | bool
  deriving DecidableEq, Repr

abbrev Ty.Value : Ty → Type
  | .int => Word
  | .bool => Bool

def encode : (t : Ty) → t.Value → Word
  | .int, v => v
  | .bool, b => ofBool b

inductive Var where
  | local (staticOffset : Nat)
  | module (moduleId staticOffset : Nat)
  deriving DecidableEq, Repr

inductive IntOp where
  | plus | minus | mul | div | bitand | bitor | bitxor | shl | shr
  deriving DecidableEq, Repr

inductive Rel where
  | eq | neq | lt | lte | gt | gte
  deriving DecidableEq, Repr

/-- Typed expressions. `boxed` is the one thing the check pass leaves open: whether the type it
gives to the operands is the value type or its box. -/
inductive Expr : Ty → Type where
  | intLit (v : Word) : Expr .int
  | boolLit (b : Bool) : Expr .bool
  | var (t : Ty) (x : Var) : Expr t
  | arith (op : IntOp) (boxed : Bool) (a b : Expr .int) : Expr .int
  | neg (a : Expr .int) : Expr .int
  | rel (t : Ty) (op : Rel) (boxed : Bool) (a b : Expr t) : Expr .bool
  | not (a : Expr .bool) : Expr .bool
  | and (a b : Expr .bool) : Expr .bool
  | or (a b : Expr .bool) : Expr .bool

abbrev Env := (t : Ty) → Var → t.Value

/-- Two's complement arithmetic; the shifts and the bit operators are those on unsigned words.
`none` is a division by zero. -/
def evalArith : IntOp → Word → Word → Option Word
  | .plus, a, b => some (a + b)
  | .minus, a, b => some (a - b)
  | .mul, a, b => some (a * b)
  | .div, a, b => if b = 0 then none else some (a.sdiv b)
  | .bitand, a, b => some (a &&& b)
  | .bitor, a, b => some (a ||| b)
  | .bitxor, a, b => some (a ^^^ b)
  | .shl, a, b => some (a <<< b.toNat)
  | .shr, a, b => some (a >>> b.toNat)

/-- The number that a comparison compares. -/
def order : (t : Ty) → t.Value → Int
  | .int, v => v.toInt
  | .bool, b => if b then 1 else 0

def evalRel (op : Rel) (x y : Int) : Bool :=
  match op with
  | .eq => x = y
  | .neq => x ≠ y
  | .lt => x < y
  | .lte => x ≤ y
  | .gt => y < x
  | .gte => y ≤ x

/-- The value of an expression, operands from left to right; `none` is a division by zero. -/
def eval (env : Env) : {t : Ty} → Expr t → Option t.Value
  | _, .intLit v => some v
  | _, .boolLit b => some b
  | _, .var t x => some (env t x)
  | _, .arith op _ a b => (eval env a).bind fun x => (eval env b).bind fun y => evalArith op x y
  | _, .neg a => (eval env a).map fun x => -x
  | _, .rel t op _ a b => (eval env a).bind fun x => (eval env b).bind fun y =>
      some (evalRel op (order t x) (order t y))
  | _, .not a => (eval env a).map fun x => !x
  | _, .and a b => (eval env a).bind fun x => if x then eval env b else some false
  | _, .or a b => (eval env a).bind fun x => if x then some true else eval env b

/-! ## The checked tree of an expression -/

def Var.symbol : Var → Symbol
  | .local off => .stack off
  | .module m off => .static m off

def IntOp.operator : IntOp → Operator
  | .plus => .plus | .minus => .minus | .mul => .mul | .div => .div | .bitand => .bitand
  | .bitor => .bitor | .bitxor => .bitxor | .shl => .shl | .shr => .shr

def Rel.operator : Rel → Operator
  | .eq => .eq | .neq => .neq | .lt => .lt | .lte => .lte | .gt => .gt | .gte => .gte

def Ty.builtin : Ty → Bool → Builtin
  | .int, false => .int
  | .int, true => .boxInt
  | .bool, false => .bool
  | .bool, true => .boxBool

def Expr.node : {t : Ty} → Expr t → Node
  | _, .intLit v => .simpleLit v
  | _, .boolLit b => .simpleLit (ofBool b)
  | _, .var _ x => .identifier x.symbol
  | _, .arith op boxed a b => .binaryOp op.operator (Ty.int.builtin boxed) a.node b.node
  | _, .neg a => .unaryOp false a.node
  | _, .rel t op boxed a b => .cmp op.operator (t.builtin boxed) a.node b.node
  | _, .not a => .unaryOp true a.node
  | _, .and a b => .and a.node b.node
  | _, .or a b => .or a.node b.node

/-! ## When the code is right -/

/-- The C code of the machine computes the operation. -/
def Defined : IntOp → Word → Word → Prop
  | .minus, a, b => a.ssubOverflow b = false
  | .div, a, b => ¬ (a = intMin ∧ b = -1)
  | .shl, _, b | .shr, _, b => b.toNat < 64
  | _, _, _ => True

/-- Up to its end, or to a division by zero, the evaluation takes no short cut, evaluates no `not`
and computes nothing undefined. -/
def Clean (env : Env) : {t : Ty} → Expr t → Prop
  | _, .intLit _ | _, .boolLit _ | _, .var _ _ => True
  | _, .arith op _ a b => Clean env a ∧ ∀ x, eval env a = some x →
      Clean env b ∧ ∀ y, eval env b = some y → Defined op x y
  | _, .neg a => Clean env a
  | _, .rel _ _ _ a b => Clean env a ∧ ∀ x, eval env a = some x → Clean env b
  | _, .not a => Clean env a ∧ eval env a = none
  | _, .and a b => Clean env a ∧ ∀ x, eval env a = some x → x = true ∧ Clean env b
  | _, .or a b => Clean env a ∧ ∀ x, eval env a = some x → x = false ∧ Clean env b

/-- How many slots a clean evaluation fills at most. -/
def slots (env : Env) : {t : Ty} → Expr t → Nat
  | _, .intLit _ | _, .boolLit _ | _, .var _ _ => 1
  | _, .arith _ _ a b | _, .rel _ _ _ a b =>
    if (eval env a).isSome then max (slots env a) (1 + slots env b) else slots env a
  | _, .neg a => if (eval env a).isSome then max (slots env a) 2 else slots env a
  | _, .not a => slots env a
  | _, .and a b | _, .or a b =>
    if (eval env a).isSome then max (max (slots env a) 2) (slots env b) else slots env a

end N00b.Codegen
