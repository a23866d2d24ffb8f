import N00b.Core.Builtin
import N00b.Parse.Context
import Mathlib

/-!
# The expression parser

`expression()` of `parse.nc` with everything below it: the eighteen pairs `x_expr` /
`x_expr_rhs`, `expression_start`, the literals of one token and the postfix forms
(`access_expr`, `member_expr`, `index_expr`, `call_expr`).

## The family of binary levels

All pairs have one shape. `x_expr` looks at the current token: at its own operator it opens a
node, consumes the operator and parses the right operand with `x_expr_rhs`; at anything else it
hands over to the next tighter level. `x_expr_rhs` reads an operand and then, as long as
`x_expr` finds an operator, puts what it has read so far in front of the node that came back.
The member functions are `exprAt` and `rhsAt` at their `Level`, which carries the operator token,
the node kind and the operator code of the pair.

## What is left to a parameter

Literals of several tokens (type specifications with parameters, callbacks, lists, dictionaries,
tuples) are parsed by functions of their own. They are the parameter `compoundLit`, which is given
the kind of the first token.
-/

namespace N00b.Parse

/-! ## The levels -/

/-- One pair of functions `x_expr` / `x_expr_rhs`, from the loosest to the tightest. -/
inductive Level where
  | or | and | ne | bitOr | bitXor | bitAnd | eq | gte | lte | gt | lt
  | plus | minus | mod | mul | div | shr | shl
  deriving DecidableEq, Repr

namespace Level

/-- Position in the call chain; a larger number binds tighter. -/
def rank (l : Level) : Nat := l.ctorIdx

def ofRank : Nat → Option Level
  | 0 => some or | 1 => some and | 2 => some ne | 3 => some bitOr | 4 => some bitXor
  | 5 => some bitAnd | 6 => some eq | 7 => some gte | 8 => some lte | 9 => some gt
  | 10 => some lt | 11 => some plus | 12 => some minus | 13 => some mod | 14 => some mul
  | 15 => some div | 16 => some shr | 17 => some shl | _ => none

theorem ofRank_rank (l : Level) : ofRank l.rank = some l := by cases l <;> rfl

theorem rank_injective : Function.Injective rank := by
  intro a b h
  have ha := ofRank_rank a
  rw [h, ofRank_rank b] at ha
  exact (Option.some.inj ha).symm

theorem rank_lt (l : Level) : l.rank < 18 := by cases l <;> decide

/-- Looser levels are smaller. -/
instance : LinearOrder Level := LinearOrder.lift' rank rank_injective

theorem le_def (a b : Level) : a ≤ b ↔ a.rank ≤ b.rank := Iff.rfl

theorem lt_def (a b : Level) : a < b ↔ a.rank < b.rank := Iff.rfl

def token : Level → TokenKind
  | or => .or | and => .and | ne => .neq | bitOr => .bitOr | bitXor => .bitXor
  | bitAnd => .bitAnd | eq => .cmp | gte => .gte | lte => .lte | gt => .gt | lt => .lt
  | plus => .plus | minus => .minus | mod => .mod | mul => .mul | div => .div
  | shr => .shr | shl => .shl

/-- The node kind that a pair gives to `temporary_tree`. -/
def nodeKind : Level → NodeKind
  | or => .or | and => .and
  | ne | eq | gte | lte | gt | lt => .cmp
  | bitOr | bitXor | bitAnd | plus | minus | mod | mul | div | shr | shl => .binaryOp

/-- The operator that a pair gives to `binop_restore_and_return`. -/
def op : Level → Option Operator
  | or | and => none
  | ne => some .neq | bitOr => some .bitor | bitXor => some .bitxor | bitAnd => some .bitand
  | eq => some .eq | gte => some .gte | lte => some .lte | gt => some .gt | lt => some .lt
  | plus => some .plus | minus => some .minus | mod => some .mod | mul => some .mul
  | div => some .div | shr => some .shr | shl => some .shl

/-- The pair that `x_expr` calls when the token is not its own; the last calls `not_expr`. -/
def next (l : Level) : Option Level := ofRank (l.rank + 1)

end Level

/-! ## Operands of one token -/

/-- `simple_lit`. Turning the text into a value only records errors and is left out. -/
def simpleLit : ParseM Unit := do
  let ctx ← ParseM.get
  if ctx.tokKind ∈ [TokenKind.intLit, .hexLit, .floatLit, .stringLit, .charLit, .unquotedLit,
      .true, .false, .nil] then do
    startNode .simpleLit true
    endNode
  else
    addParseError .needSimpleLit

/-- `unquoted_lit`. -/
def unquotedLit : ParseM Unit := do
  startNode .litUnquoted true
  endNode

/-- `identifier`. -/
def identifier : ParseM Unit := do
  let ctx ← ParseM.get
  if ctx.tokKind ≠ .identifier then do
    addParseError .idExpected
    ParseM.throw '.'
  else do
    startNode .identifier true
    endNode

/-- `identifier_is_builtin_type`. -/
def identifierIsBuiltinType (ctx : ParseCtx) : Bool :=
  Builtin.all.any fun b =>
    (b.kind = .primitive || b.kind = .list || b.kind = .tuple || b.kind = .dict)
      && b.name = ctx.tokCur.text

/-- `not_expr`: a `not` after a complete operand becomes a node without one. -/
def notExpr : ParseM (Option Tree) := do
  let ctx ← ParseM.get
  if ctx.tokKind = .not then do
    temporaryTree .unaryOp
    consume
    return some (← restoreTree)
  else return none

/-! ## The parser -/

section

variable (compoundLit : TokenKind → ParseM Unit)

/-- `type_spec` at the name of a builtin type. -/
def typeSpec : ParseM Unit := do
  startNode .litTspec false
  if lookahead (← ParseM.get) ≠ .lbracket then do
    startNode .litTspecNamedType true
    endNode
  else compoundLit .identifier
  endNode

/-- `literal`. -/
def literal : ParseM Unit := do
  let ctx ← ParseM.get
  match ctx.tokKind with
  | .identifier => if identifierIsBuiltinType ctx then typeSpec compoundLit else pure ()
  | .intLit | .hexLit | .floatLit | .stringLit | .charLit | .true | .false | .nil => simpleLit
  | .unquotedLit => unquotedLit
  | k => compoundLit k

-- Every function takes one unit of fuel more than those it calls.
mutual

/-- `x_expr` for the level `l`. -/
def exprAt : Nat → Level → ParseM (Option Tree)
  | 0, _ => ParseM.outOfFuel
  | n + 1, l => do
    let ctx ← ParseM.get
    if ctx.tokKind = l.token then do
      temporaryTree l.nodeKind
      consume
      adoptKid (some (← rhsAt n l))
      return some (← binopRestoreAndReturn l.op)
    else
      match l.next with
      | some l' => exprAt n l'
      | none => notExpr

/-- The loop of `x_expr_rhs`, with what has been read so far. -/
def rhsLoop : Nat → Level → Tree → ParseM Tree
  | 0, _, _ => ParseM.outOfFuel
  | n + 1, l, expr => do
    match ← exprAt n l with
    | none => return expr
    | some rhs => rhsLoop n l (rhs.adoptAndPrepend expr)

/-- `x_expr_rhs` for the level `l`; at the level `or` it is `expression`. -/
def rhsAt : Nat → Level → ParseM Tree
  | 0, _ => ParseM.outOfFuel
  | n + 1, l => do rhsLoop n l (← expressionStart n)

/-- `expression_start`. -/
def expressionStart : Nat → ParseM Tree
  | 0 => ParseM.outOfFuel
  | n + 1 => do
    let ctx ← ParseM.get
    match ctx.tokKind with
    | .plus => do
      consume
      rhsAt n .lt
    | .minus => do
      temporaryTree .unaryOp
      consume
      adoptKid (some (← rhsAt n .minus))
      restoreTree
    | .not => do
      temporaryTree .unaryOp
      consume
      adoptKid (some (← rhsAt n .or))
      restoreTree
    | .backtick | .object | .func | .intLit | .hexLit | .stringLit | .charLit | .floatLit
    | .true | .false | .nil | .unquotedLit | .lbracket | .lbrace | .lparen => do
      temporaryTree .expression
      literal compoundLit
      restoreTree
    | .identifier => do
      temporaryTree .expression
      if identifierIsBuiltinType ctx then literal compoundLit else accessExpr n
      restoreTree
    | _ => do
      errSkipStmt .badExpressionStart
      ParseM.throw '!'

/-- `access_expr`, from the identifier on: `expression_start` sends it nothing else. -/
def accessExpr : Nat → ParseM Unit
  | 0 => ParseM.outOfFuel
  | n + 1 => do
    temporaryTree .identifier
    consume
    let lhs ← restoreTree
    let ctx ← ParseM.get
    match ctx.tokKind with
    | .period => adoptKid (some (← memberExpr n lhs))
    | .lbracket => adoptKid (some (← indexExpr n lhs))
    | .lparen => adoptKid (some (← callExpr n lhs))
    | _ => adoptKid (some lhs)

/-- The loop of `member_expr` over further `.name` parts. -/
def memberParts : Nat → ParseM Unit
  | 0 => ParseM.outOfFuel
  | n + 1 => do
    let ctx ← ParseM.get
    if ctx.tokKind = .period then do
      consume
      identifier
      memberParts n
    else return ()

/-- `member_expr`. -/
def memberExpr : Nat → Tree → ParseM Tree
  | 0, _ => ParseM.outOfFuel
  | n + 1, lhs => do
    temporaryTree .member
    adoptKid (some lhs)
    consume
    identifier
    memberParts n
    let result ← restoreTree
    let ctx ← ParseM.get
    match ctx.tokKind with
    | .lbracket => indexExpr n result
    | .lparen => callExpr n result
    | _ => return result

/-- `optional_range`. -/
def optionalRange : Nat → Tree → ParseM Bool
  | 0, _ => ParseM.outOfFuel
  | n + 1, lhs => do
    let ctx ← ParseM.get
    if ctx.tokKind ∈ [TokenKind.to, .comma, .colon] then do
      startNode .range true
      adoptKid (some lhs)
      let ctx ← ParseM.get
      if ctx.tokKind = .rbracket then do
        startNode .elided false
        endNode
      else
        adoptKid (some (← rhsAt n .or))
      endNode
      return true
    else return false

/-- `index_expr`. A call after the bracket is applied to `lhs`, not to the indexed value. -/
def indexExpr : Nat → Tree → ParseM Tree
  | 0, _ => ParseM.outOfFuel
  | n + 1, lhs => do
    temporaryTree .index
    adoptKid (some lhs)
    let _ ← expect .lbracket
    let ctx ← ParseM.get
    let item ← if ctx.tokKind = .colon then do
        temporaryTree .elided
        restoreTree
      else rhsAt n .or
    if ← optionalRange n item then pure () else adoptKid (some item)
    let _ ← expect .rbracket
    let result ← restoreTree
    let ctx ← ParseM.get
    match ctx.tokKind with
    | .period => memberExpr n result
    | .lbracket => indexExpr n result
    | .lparen => callExpr n lhs
    | _ => return result

/-- The argument loop of `call_expr`. -/
def callArgs : Nat → ParseM Unit
  | 0 => ParseM.outOfFuel
  | n + 1 => do
    adoptKid (some (← rhsAt n .or))
    let ctx ← ParseM.get
    if ctx.tokKind = .comma then do
      consume
      callArgs n
    else return ()

/-- `call_expr`. A second call is applied to `lhs` again, not to the first call. -/
def callExpr : Nat → Tree → ParseM Tree
  | 0, _ => ParseM.outOfFuel
  | n + 1, lhs => do
    temporaryTree .call
    adoptKid (some lhs)
    let _ ← expect .lparen
    let ctx ← ParseM.get
    if ctx.tokKind = .rparen then pure () else callArgs n
    let _ ← expect .rparen
    let result ← restoreTree
    let ctx ← ParseM.get
    match ctx.tokKind with
    | .period => memberExpr n result
    | .lbracket => indexExpr n result
    | .lparen => callExpr n lhs
    | _ => return result

end

/-! ## The functions under their names in the source -/

def shlExpr (n : Nat) := exprAt compoundLit n .shl
def shlExprRhs (n : Nat) := rhsAt compoundLit n .shl
def shrExpr (n : Nat) := exprAt compoundLit n .shr
def shrExprRhs (n : Nat) := rhsAt compoundLit n .shr
def divExpr (n : Nat) := exprAt compoundLit n .div
def divExprRhs (n : Nat) := rhsAt compoundLit n .div
def mulExpr (n : Nat) := exprAt compoundLit n .mul
def mulExprRhs (n : Nat) := rhsAt compoundLit n .mul
def modExpr (n : Nat) := exprAt compoundLit n .mod
def modExprRhs (n : Nat) := rhsAt compoundLit n .mod
def minusExpr (n : Nat) := exprAt compoundLit n .minus
def minusExprRhs (n : Nat) := rhsAt compoundLit n .minus
def plusExpr (n : Nat) := exprAt compoundLit n .plus
def plusExprRhs (n : Nat) := rhsAt compoundLit n .plus
def ltExpr (n : Nat) := exprAt compoundLit n .lt
def ltExprRhs (n : Nat) := rhsAt compoundLit n .lt
def gtExpr (n : Nat) := exprAt compoundLit n .gt
def gtExprRhs (n : Nat) := rhsAt compoundLit n .gt
def lteExpr (n : Nat) := exprAt compoundLit n .lte
def lteExprRhs (n : Nat) := rhsAt compoundLit n .lte
def gteExpr (n : Nat) := exprAt compoundLit n .gte
def gteExprRhs (n : Nat) := rhsAt compoundLit n .gte
def eqExpr (n : Nat) := exprAt compoundLit n .eq
def eqExprRhs (n : Nat) := rhsAt compoundLit n .eq
def bitAndExpr (n : Nat) := exprAt compoundLit n .bitAnd
def bitAndExprRhs (n : Nat) := rhsAt compoundLit n .bitAnd
def bitXorExpr (n : Nat) := exprAt compoundLit n .bitXor
def bitXorExprRhs (n : Nat) := rhsAt compoundLit n .bitXor
def bitOrExpr (n : Nat) := exprAt compoundLit n .bitOr
def bitOrExprRhs (n : Nat) := rhsAt compoundLit n .bitOr
def neExpr (n : Nat) := exprAt compoundLit n .ne
def neExprRhs (n : Nat) := rhsAt compoundLit n .ne
def andExpr (n : Nat) := exprAt compoundLit n .and
def andExprRhs (n : Nat) := rhsAt compoundLit n .and
def orExpr (n : Nat) := exprAt compoundLit n .or

/-- `expression`: the right operand of `or` is parsed by it, like that of any other level. -/
def expression (n : Nat) : ParseM Tree := rhsAt compoundLit n .or

end

end N00b.Parse
