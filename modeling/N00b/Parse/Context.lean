import Mathlib

/-!
# The parse context

The part of `parse.nc` that the expression parser stands on: the token stream with `consume`,
the tree under construction, and the two ways a function can end (return, or jump to the
enclosing checkpoint).

## Representation

* The token stream is the list of the tokens from `token_ix` on. Past the end the current token
  is `eof`, as the lexer puts one there and `tok_raw_advance_once` never leaves it.
* `ctx->cur` points into a tree. A node that is being built by `start_node` is held apart from
  its parents, which wait in `parents`; `end_node` hangs it under the first of them.
* `temporary_tree` pushes the whole position on `root_stack` and `restore_tree` takes it back.
* A `longjmp` to a checkpoint is the outcome `thrown`, with the code and the context at the jump.
* `noFuel` is the model's own: the recursion of the parser is cut at a depth.
-/

namespace N00b.Parse

/-! ## Tokens -/

/-- `n00b_token_kind_t`. -/
inductive TokenKind where
  | error | space | semi | newline | lineComment | longComment | lockAttr
  | plus | minus | mul | div | mod | lte | lt | gte | gt | neq | not
  | colon | assign | cmp | comma | period
  | lbrace | rbrace | lbracket | rbracket | lparen | rparen | and | or
  | intLit | hexLit | floatLit | stringLit | charLit | unquotedLit | true | false | nil
  | «if» | elif | «else» | «for» | «from» | to | «break» | «continue» | «return» | enum
  | identifier | func | var | global | const | once | «let» | «private» | backtick | arrow
  | object | «while» | «in» | bitAnd | bitOr | bitXor | shl | shr | typeof | switch | case
  | plusEq | minusEq | mulEq | divEq | modEq | bitAndEq | bitOrEq | bitXorEq | shlEq | shrEq
  | lock | eof
  deriving DecidableEq, Repr

/-- `n00b_token_t`: what the parser reads of a token. -/
structure Token where
  kind : TokenKind
  text : String := ""
  deriving DecidableEq, Repr

def eofToken : Token := { kind := .eof }

/-! ## Trees -/

/-- The members of `n00b_node_kind_t` that the expression parser creates. -/
inductive NodeKind where
  | simpleLit | litUnquoted | or | and | cmp | binaryOp | unaryOp | identifier | member | index
  | call | range | expression | elided | litTspec | litTspecNamedType
  deriving DecidableEq, Repr

/-- `n00b_operator_t`. -/
inductive Operator where
  | plus | minus | mul | mod | div | fdiv | shl | shr | bitand | bitor | bitxor
  | lt | lte | gt | gte | eq | neq
  deriving DecidableEq, Repr

/-- `n00b_pnode_t`. `extraInfo` is the operator that `binop_restore_and_return` stores. -/
structure PNode where
  kind : NodeKind
  token : Token
  extraInfo : Option Operator := none
  totalKids : Nat := 0
  siblingId : Nat := 0
  comments : List Token := []
  deriving DecidableEq, Repr

/-- `n00b_tree_node_t`. -/
inductive Tree where
  | node (contents : PNode) (children : List Tree)
  deriving Repr

namespace Tree

def contents : Tree → PNode
  | node p _ => p

def children : Tree → List Tree
  | node _ kids => kids

def mapContents (f : PNode → PNode) : Tree → Tree
  | node p kids => node (f p) kids

/-- `n00b_tree_adopt_node`. -/
def adoptNode (t kid : Tree) : Tree := node t.contents (t.children ++ [kid])

/-- `n00b_tree_adopt_and_prepend`. The C code shifts the children by one slot; whether it also
grows the array makes no difference to the list. -/
def adoptAndPrepend (t kid : Tree) : Tree := node t.contents (kid :: t.children)

end Tree

/-! ## The context and its outcomes -/

/-- The parse errors that the expression parser records. -/
inductive ErrorCode where
  | missingExpression | badExpressionStart | expectedToken | expectedStmtEnd | idExpected
  | needSimpleLit
  deriving DecidableEq, Repr

/-- `parse_ctx`. -/
structure ParseCtx where
  tokens : List Token
  cur : Tree
  parents : List Tree := []
  rootStack : List (Tree × List Tree) := []
  litDepth : Nat := 0
  errors : List ErrorCode := []

/-- How a parser function ends. -/
inductive Outcome (α : Type) where
  | ok (value : α) (ctx : ParseCtx)
  | thrown (code : Char) (ctx : ParseCtx)
  | noFuel

def ParseM (α : Type) : Type := ParseCtx → Outcome α

namespace ParseM

def pure {α : Type} (a : α) : ParseM α := fun ctx => .ok a ctx

def bind {α β : Type} (m : ParseM α) (f : α → ParseM β) : ParseM β := fun ctx =>
  match m ctx with
  | .ok a ctx' => f a ctx'
  | .thrown code ctx' => .thrown code ctx'
  | .noFuel => .noFuel

instance : Monad ParseM where
  pure := pure
  bind := bind

theorem bind_ok {α β : Type} {m : ParseM α} {f : α → ParseM β} {ctx ctx' : ParseCtx} {a : α}
    (h : m ctx = .ok a ctx') : (m >>= f) ctx = f a ctx' := by
  show bind m f ctx = _
  simp only [bind, h]

def get : ParseM ParseCtx := fun ctx => .ok ctx ctx

def modify (f : ParseCtx → ParseCtx) : ParseM Unit := fun ctx => .ok () (f ctx)

/-- `n00b_exit_to_checkpoint`. -/
def throw {α : Type} (code : Char) : ParseM α := fun ctx => .thrown code ctx

def outOfFuel {α : Type} : ParseM α := fun _ => .noFuel

end ParseM

/-! ## The token stream -/

def ParseCtx.tokCur (ctx : ParseCtx) : Token := ctx.tokens.headD eofToken

def ParseCtx.tokKind (ctx : ParseCtx) : TokenKind := ctx.tokCur.kind

/-- `tok_raw_advance_once`: the stream stays on its `eof`. -/
def rawAdvance : List Token → List Token
  | [] => []
  | t :: rest => if t.kind = .eof then t :: rest else rest

/-- The tokens that `consume` passes over, with the comments among them. -/
def skipTrivia (litDepth : Nat) : List Token → List Token × List Token
  | [] => ([], [])
  | t :: rest =>
    match t.kind with
    | .space => skipTrivia litDepth rest
    | .newline => if litDepth ≠ 0 then skipTrivia litDepth rest else ([], t :: rest)
    | .lineComment | .longComment =>
      let r := skipTrivia litDepth rest
      (t :: r.1, r.2)
    | _ => ([], t :: rest)

/-- Comments go to the node that is being built and count among its children. -/
def addComments (comments : List Token) (p : PNode) : PNode :=
  { p with
    comments := p.comments ++ comments
    totalKids := p.totalKids + comments.length }

/-- `consume`. -/
def consume : ParseM Unit := ParseM.modify fun ctx =>
  let r := skipTrivia ctx.litDepth (rawAdvance ctx.tokens)
  { ctx with
    tokens := r.2
    cur := ctx.cur.mapContents (addComments r.1) }

/-! ## Errors -/

/-- `add_parse_error`. -/
def addParseError (code : ErrorCode) : ParseM Unit :=
  ParseM.modify fun ctx => { ctx with errors := ctx.errors ++ [code] }

/-- `cur_tok_is_end_of_stmt`. -/
def isEndOfStmt (k : TokenKind) : Bool :=
  k = .semi || k = .newline || k = .rbrace || k = .eof

/-- `cur_eos_is_skippable`. -/
def isSkippable (k : TokenKind) : Bool := k = .semi || k = .newline || k = .lineComment

/-- The first loop of `line_skip_recover`; every turn but the last drops a token. -/
def skipToEndOfStmt : Nat → ParseM Unit
  | 0 => ParseM.outOfFuel
  | n + 1 => do
    let ctx ← ParseM.get
    if isEndOfStmt ctx.tokKind then ParseM.pure () else do consume; skipToEndOfStmt n

/-- The second loop of `line_skip_recover`. -/
def skipEndOfStmts : Nat → ParseM Unit
  | 0 => ParseM.outOfFuel
  | n + 1 => do
    let ctx ← ParseM.get
    if isEndOfStmt ctx.tokKind && isSkippable ctx.tokKind then do consume; skipEndOfStmts n
    else ParseM.pure ()

/-- `line_skip_recover`. -/
def lineSkipRecover : ParseM Unit := do
  let ctx ← ParseM.get
  skipToEndOfStmt (ctx.tokens.length + 1)
  let ctx ← ParseM.get
  skipEndOfStmts (ctx.tokens.length + 1)

/-- `err_skip_stmt`. -/
def errSkipStmt (code : ErrorCode) : ParseM Unit := do
  addParseError code
  lineSkipRecover

/-- `lookahead` by one token, newlines counted: the kind of the token after the current one. -/
def lookahead (ctx : ParseCtx) : TokenKind :=
  ((skipTrivia 0 (rawAdvance ctx.tokens)).2.headD eofToken).kind

/-- `expect`. -/
def expect (k : TokenKind) : ParseM Bool := do
  let ctx ← ParseM.get
  if ctx.tokKind = k then do
    consume
    return true
  else do
    addParseError .expectedToken
    lineSkipRecover
    return false

/-! ## Building the tree -/

/-- `parse_node_init`: a node remembers the token it starts at. -/
def newPNode (ctx : ParseCtx) (kind : NodeKind) : PNode := { kind, token := ctx.tokCur }

/-- `adopt_kid`. A missing operand is an error and leaves for the checkpoint. -/
def adoptKid : Option Tree → ParseM Unit
  | none => do
    addParseError .missingExpression
    ParseM.throw '!'
  | some kid => ParseM.modify fun ctx =>
    let kid := kid.mapContents fun p => { p with siblingId := ctx.cur.contents.totalKids }
    { ctx with
      cur := (ctx.cur.mapContents fun p => { p with totalKids := p.totalKids + 1 }).adoptNode kid }

/-- `_start_node`. The new node hangs under its parent only when it is done. -/
def startNode (kind : NodeKind) (consumeToken : Bool) : ParseM Unit := do
  let child := newPNode (← ParseM.get) kind
  if consumeToken then consume
  ParseM.modify fun ctx => { ctx with cur := .node child [], parents := ctx.cur :: ctx.parents }

/-- `end_node`. -/
def endNode : ParseM Unit := ParseM.modify fun ctx =>
  match ctx.parents with
  | [] => ctx
  | p :: rest => { ctx with cur := p.adoptNode ctx.cur, parents := rest }

/-- `temporary_tree`. -/
def temporaryTree (kind : NodeKind) : ParseM Unit := ParseM.modify fun ctx =>
  { ctx with
    cur := .node (newPNode ctx kind) []
    parents := []
    rootStack := (ctx.cur, ctx.parents) :: ctx.rootStack }

/-- `restore_tree`. -/
def restoreTree : ParseM Tree := fun ctx =>
  match ctx.rootStack with
  | [] => .ok ctx.cur ctx
  | (cur, parents) :: rest => .ok ctx.cur { ctx with cur, parents, rootStack := rest }

/-- `binop_restore_and_return`; `and` and `or` nodes carry no operator. -/
def binopRestoreAndReturn (op : Option Operator) : ParseM Tree := do
  let t ← restoreTree
  match op with
  | none => return t
  | some op => return t.mapContents fun p => { p with extraInfo := some op }

end N00b.Parse
