import N00b.Codegen.Expr

/-!
# Code for statements

`gen_one_node` on the nodes of statements: assignments, conditionals, loops, `switch`, `typeof`,
`break` and `continue`. The code of the expressions in them is given as a block that depends on
nothing but the place where it starts; for the expressions of `Node` that is `gen_appends`.

## Representation

* A body is its statements in sequence.
* A `break` or `continue` names the control record of the loop, `switch` or `typeof` that the
  check pass has linked it to.
* Automatic variables of a loop (`$i`, `$last` and the ones with a label) are there when the
  program uses them.
* Symbols come with their place; which one the variables of loops have is said by `Stmt.allot`.
-/

namespace N00b.Codegen

open N00b.Vm N00b.Parse

/-! ## Expressions in statements -/

/-- The code that `gen_one_node` emits for an expression. -/
structure ExprCode where
  size : Nat
  code : Nat → List Instr
  length_code : ∀ base, (code base).length = size
  size_pos : 0 < size

theorem Node.size_pos : ∀ n : Node, 0 < n.size
  | .simpleLit _ | .identifier _ => Nat.one_pos
  | .binaryOp _ _ l _ | .cmp _ _ l _ | .or l _ | .and l _ => by
    have := l.size_pos
    simp only [size]
    omega
  | .unaryOp true _ | .unaryOp false _ => by
    simp only [size]
    omega
  | .expression kid => kid.size_pos

def Node.exprCode (n : Node) : ExprCode := ⟨n.size, n.code, n.length_code, n.size_pos⟩

def genExpr (e : ExprCode) (ctx : GenCtx) : GenCtx := emitAll (e.code ctx.counter) ctx

/-- A step of code without jumps: one instruction, or an expression. -/
inductive Piece where
  | op (i : Instr)
  | expr (e : ExprCode)

def genPiece : Piece → GenCtx → GenCtx
  | .op i => emit i
  | .expr e => genExpr e

def genPieces (ps : List Piece) (ctx : GenCtx) : GenCtx := ps.foldl (fun ctx p => genPiece p ctx) ctx

/-! ## Assignments -/

/-- The assignments, by `assign_method` and the shape of the left side. -/
inductive Assign where
  | memSlot (sym : Symbol) (value : ExprCode)
  | tuple (syms : List Symbol) (value : ExprCode)
  | viaIndexSetCall (container ix value : ExprCode) (type : Builtin)
  | viaSliceSetCall (container lo hi value : ExprCode) (type : Builtin)
  | viaLenThenSliceSetCall (container lo value : ExprCode) (type : Builtin)
  | toAttribute (name : Nat) (value : ExprCode) (lock : Bool)
  | symDecl (sym : Symbol) (value : ExprCode)
  | binary (op : Operator) (type : Builtin) (sym : Symbol) (value : ExprCode)
  | binaryIndex (op : Operator) (type : Builtin) (container ix value : ExprCode)

/-- `BINOP_ASSIGN_GEN`. -/
def binopAssignGen (op : Operator) (t : Builtin) : List Instr :=
  if t.kind = .primitive then
    if t.isIntType then [genIntBinaryOp op t.isSigned]
    else if t = .bool then [genIntBinaryOp op false]
    else if t = .f64 then genFloatBinaryOp op
    else genPolymorphicBinaryOp op t
  else []

section

open Piece

/-- What `gen_assign`, `gen_binary_assign` and `gen_sym_decl` emit, in order. -/
def Assign.pieces : Assign → List Piece
  | memSlot sym value => [op (symLoadRef sym), expr value, op .swap, op .assignToLoc]
  | tuple syms value =>
    syms.map (fun sym => op (symLoadRef sym)) ++
      [expr value, op (.popTo .r1), op (.unpack syms.length)]
  | viaIndexSetCall container ix value t =>
    [expr container, expr ix, expr value, op .swap, op (.tcall .indexSet (some t))]
  | viaSliceSetCall container lo hi value t =>
    [expr container, expr lo, expr hi, expr value, op (.tcall .sliceSet (some t))]
  | viaLenThenSliceSetCall container lo value t =>
    [expr container, expr lo, expr value, op (.popTo .r0), op (.popTo .r1), op .dupTop,
      op (.tcall .len (some t)), op (.pushFrom .r1), op .swap, op (.pushFrom .r0),
      op (.tcall .sliceSet (some t))]
  | toAttribute name value lock => [op (.pushConstObj name), expr value, op (.assignAttr lock)]
  | symDecl sym value => [expr value, op (symLoadRef sym), op .assignToLoc]
  | binary o t sym value =>
    [op (symLoadRef sym), op .dupTop, op .deref, expr value] ++
      (binopAssignGen o t).map op ++ [op .swap, op .assignToLoc]
  | binaryIndex o t container ix value =>
    [expr container, expr ix, op (.popTo .r1), op (.popTo .r2), op (.pushFrom .r2),
      op (.pushFrom .r1), op (.pushFrom .r2), op (.pushFrom .r1),
      op (.tcall .indexGet (some t)), expr value] ++
      (binopAssignGen o t).map op ++ [op (.tcall .indexSet (some t))]

/-- `gen_sym_store` of a variable. -/
def symStore (sym : Symbol) (pop : Bool) : List Piece :=
  (if pop then [] else [op .dupTop]) ++ [op (symLoadRef sym), op .assignToLoc]

end

/-! ## Statements -/

/-- `n00b_loop_info_t`. -/
structure LoopInfo where
  branchInfo : Nat
  label : Bool := false
  loopIx : Option Symbol := none
  namedLoopIx : Option Symbol := none
  loopLast : Option Symbol := none
  namedLoopLast : Option Symbol := none

/-- `gen_ix | gen_named_ix`. -/
def LoopInfo.genIx (li : LoopInfo) : Bool := li.loopIx.isSome || li.namedLoopIx.isSome

/-- A condition of a `case`. -/
inductive Condition where
  | value (e : ExprCode)
  | range (lo hi : ExprCode)
  | type (constant : Nat)

mutual

inductive Stmt where
  | skip
  | seq (first rest : Stmt)
  | expression (e : ExprCode)
  | assign (a : Assign)
  | cond (test : ExprCode) (body : Stmt) (rest : Chain)
  | while (li : LoopInfo) (test : ExprCode) (body : Stmt)
  | forRange (li : LoopInfo) (lvar : Symbol) (lo hi : ExprCode) (body : Stmt)
  | forIn (li : LoopInfo) (lvar1 : Symbol) (lvar2 : Option Symbol) (container : ExprCode)
      (body : Stmt)
  | switch (branchInfo : Nat) (label : Bool) (value : ExprCode) (type : Builtin) (cases : Cases)
  | typeof (branchInfo : Nat) (label : Bool) (sym : Symbol) (cases : Cases)
  | break (branchInfo : Nat)
  | continue (branchInfo : Nat)

/-- The `elif` and `else` kids of an `if`. -/
inductive Chain where
  | none
  | else (body : Stmt)
  | elif (test : ExprCode) (body : Stmt) (rest : Chain)

/-- The `case` and `else` kids of a `switch` or `typeof`. -/
inductive Cases where
  | none
  | else (body : Stmt)
  | case (conditions : List Condition) (body : Stmt) (rest : Cases)

end

/-! ## Generation -/

/-- `gen_label`. -/
def genLabel (label : Bool) (ctx : GenCtx) : GenCtx := if label then emit .nop ctx else ctx

/-- `gen_index_var_init`. -/
def genIndexVarInit (li : LoopInfo) (ctx : GenCtx) : GenCtx :=
  if li.genIx then genLoadImmediate 0 ctx else ctx

/-- What `gen_index_var_increment` emits. -/
def indexVarIncrement (li : LoopInfo) : List Piece :=
  if li.genIx then
    (li.loopIx.map (symStore · false)).getD [] ++ (li.namedLoopIx.map (symStore · false)).getD [] ++
      [Piece.op (.pushImm 1), Piece.op (.arith .add)]
  else []

/-- `gen_index_var_cleanup`. -/
def genIndexVarCleanup (li : LoopInfo) (ctx : GenCtx) : GenCtx :=
  if li.genIx then emit .pop ctx else ctx

/-- What `gen_len_var_init` emits. -/
def lenVarInit (li : LoopInfo) : List Piece :=
  match li.loopLast, li.namedLoopLast with
  | some sym, _ => symStore sym false
  | none, some sym => symStore sym false
  | none, none => []

/-- What `gen_ranged_for` emits for `$last` and its labelled form. -/
def calcLast (li : LoopInfo) : List Piece :=
  match li.loopLast, li.namedLoopLast with
  | none, none => []
  | some sym, none | none, some sym => [Piece.op .dupTop, Piece.op .abs] ++ symStore sym true
  | some sym, some named =>
    [Piece.op .dupTop, Piece.op .abs, Piece.op .dupTop] ++ symStore sym true ++ symStore named true

/-- `set_loop_entry_point`. -/
def setLoopEntryPoint (c : Nat) (ctx : GenCtx) : GenCtx :=
  let ci := { ctx.controls c with entryIp := ctx.counter }
  { ctx with controls := Function.update ctx.controls c ci }

/-- `gen_j`, for the jumps to a loop, `switch` or `typeof`. -/
def genJ (ji : JumpInfo) (ctx : GenCtx) : GenCtx := (genJumpRaw ji .j false ctx).1

/-- `gen_equality_test`. -/
def equalityTest (t : Builtin) : Instr := if t.byValue then .compare .cmp else .tcall .eq (some t)

/-- One turn of the first loop of `gen_one_case` and of `gen_one_tcase`, up to the jump. -/
def genCondition (t : Builtin) (c : Condition) (ctx : GenCtx) : GenCtx :=
  let ctx := emit .dupTop ctx
  match c with
  | .value e => emit (equalityTest t) (genExpr e ctx)
  | .range lo hi =>
    let ctx := genExpr hi (genExpr lo ctx)
    -- `gen_range_test`
    let ctx := emit (.compare (if t.isSigned then .gte else .ugte)) (emit (.popTo .r0) ctx)
    genJz (fun ctx => emit (.compare .lte) (emit (.pushFrom .r0) (emit .dupTop ctx))) ctx
  | .type constant => emit .typeCmp (emit (.pushConstObj constant) ctx)

/-- The first loop of `gen_one_case`. The second component is `local_jumps`. -/
def genConditions (t : Builtin) : List Condition → GenCtx → GenCtx × List (Option Nat)
  | [], ctx => (ctx, [])
  | c :: cs, ctx =>
    let r := genJumpRaw {} .jnz true (genCondition t c ctx)
    let rs := genConditions t cs r.1
    (rs.1, r.2 :: rs.2)

/-- A loop of `gen_finish_jump`. -/
def genFinishJumps (jumps : List (Option Nat)) (ctx : GenCtx) : GenCtx :=
  jumps.foldl (fun ctx toPatch => genFinishJump toPatch ctx) ctx

mutual

/-- `gen_one_node` on a statement. -/
def genStmt : Stmt → GenCtx → GenCtx
  | .skip, ctx => ctx
  | .seq first rest, ctx => genStmt rest (genStmt first ctx)
  | .expression e, ctx => genExpr e ctx
  | .assign a, ctx => genPieces a.pieces ctx
  | .cond test body rest, ctx =>
    -- The pending jumps to the end are `target_info->targets`.
    let r := genJumpRaw {} .jz true (genExpr test ctx)
    let e := genJumpRaw {} .j false (genStmt body r.1)
    let rs := genChain rest (genFinishJump r.2 e.1)
    genFinishJumps (e.2 :: rs.2) rs.1
  | .while li test body, ctx =>
    let ctx := setLoopEntryPoint li.branchInfo (genIndexVarInit li ctx)
    let ctx := emit (.compare .cmp) (genLoadImmediate 1 (genExpr test (genLabel li.label ctx)))
    let ctx := genJz (fun ctx =>
      genJ { linkedControlStructure := some li.branchInfo, top := true }
        (genPieces (indexVarIncrement li) (genStmt body ctx))) ctx
    genIndexVarCleanup li (genApplyWaitingPatches li.branchInfo ctx)
  | .forRange li lvar lo hi body, ctx =>
    let ctx := genExpr hi (genExpr lo (genLabel li.label ctx))
    let ctx := emit .subNoPop (emit .swap ctx)
    let ctx := emit .getSign (genPieces (calcLast li) ctx)
    let ctx := setLoopEntryPoint li.branchInfo (genIndexVarInit li ctx)
    let ctx := genPieces (indexVarIncrement li) ctx
    let ctx := if li.genIx then emit (.popTo .r3) ctx else ctx
    let ctx := emit .cmpNoPop (emit (.popTo .r1) ctx)
    let ctx := genJnz (fun ctx =>
      let ctx := genPieces (symStore lvar false) ctx
      let ctx := emit (.pushFrom .r1) (emit (.arith .add) (emit (.pushFrom .r1) ctx))
      let ctx := if li.genIx then emit (.pushFrom .r3) ctx else ctx
      genJ { linkedControlStructure := some li.branchInfo, top := true } (genStmt body ctx)) ctx
    emit (.moveSp (-3)) (genApplyWaitingPatches li.branchInfo ctx)
  | .forIn li lvar1 lvar2 container body, ctx =>
    let ctx := emit (.tcall .view none) (genExpr container (genLabel li.label ctx))
    let ctx := emit (.popTo .r2) (genPieces (lenVarInit li) ctx)
    let ctx := emit (.shlI 1) (emit .unsteal ctx)
    let ctx := if li.genIx then genIndexVarInit li ctx else genLoadImmediate 0 ctx
    let ctx := setLoopEntryPoint li.branchInfo (emit (.pushFrom .r2) ctx)
    let ctx := genJnz (fun ctx =>
      let ctx := emit (.popTo .r2) ctx
      -- `deal_with_iteration_count`
      let ctx := if li.genIx then genPieces (indexVarIncrement li) ctx
        else emit (.arith .add) (genLoadImmediate 1 ctx)
      let ctx := emit (.loadFromView lvar2.isSome) (emit (.popTo .r1) ctx)
      let ctx := genPieces (symStore lvar1 true ++ (lvar2.map (symStore · true)).getD []) ctx
      let ctx := emit (.pushFrom .r2) (emit (.pushFrom .r1) ctx)
      genJ { linkedControlStructure := some li.branchInfo, top := true } (genStmt body ctx))
      (emit .gteNoPop ctx)
    emit (.moveSp (-5)) (genApplyWaitingPatches li.branchInfo ctx)
  | .switch branchInfo label value t cases, ctx =>
    let ctx := genExpr value (genLabel label ctx)
    genApplyWaitingPatches branchInfo (genCases branchInfo t true cases ctx)
  | .typeof branchInfo label sym cases, ctx =>
    let ctx := emit .pushObjType (emit (symLoad sym) (genLabel label ctx))
    genApplyWaitingPatches branchInfo (genCases branchInfo .typespec false cases ctx)
  | .break branchInfo, ctx => genJ { linkedControlStructure := some branchInfo } ctx
  | .continue branchInfo, ctx =>
    genJ { linkedControlStructure := some branchInfo, top := true } ctx

/-- The kids of an `if` from the third on: `gen_elif` and the case of `nt_else`. -/
def genChain : Chain → GenCtx → GenCtx × List (Option Nat)
  | .none, ctx => (ctx, [])
  | .else body, ctx => (genStmt body ctx, [])
  | .elif test body rest, ctx =>
    let r := genJumpRaw {} .jz true (genExpr test ctx)
    let e := genJumpRaw {} .j false (genStmt body r.1)
    let rs := genChain rest (genFinishJump r.2 e.1)
    (rs.1, e.2 :: rs.2)

/-- The loops of `gen_switch` and `gen_typeof` over their kids: `gen_one_case`, `gen_one_tcase`,
and the `else`, before which a `switch` pops its value. -/
def genCases (branchInfo : Nat) (t : Builtin) (popForElse : Bool) : Cases → GenCtx → GenCtx
  | .none, ctx => ctx
  | .else body, ctx => genStmt body (if popForElse then emit .pop ctx else ctx)
  | .case conditions body rest, ctx =>
    let r := genConditions t conditions ctx
    let caseEnd := genJumpRaw {} .j false r.1
    let ctx := genStmt body (genFinishJumps r.2 caseEnd.1)
    let ctx := genJ { linkedControlStructure := some branchInfo } ctx
    genCases branchInfo t popForElse rest (genFinishJump caseEnd.2 ctx)

end

end N00b.Codegen
