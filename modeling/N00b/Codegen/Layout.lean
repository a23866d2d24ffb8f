import N00b.Codegen.Stmt

/-!
# The layout of statements

The code of a statement laid out directly, with every jump at its target, and beside each
instruction how many slots the statement has on the operand stack when control gets there.

`genStmt` emits jumps before their targets are known and patches them later. `Layout` is what
comes out; `Lays` is the relation between the generator's context before and after.

## Leaks

The depths are those that the constructs of the language call for. Where the instruction really
emitted leaves more on the stack (or less), the difference is written beside it as a leak: one
number for going on to the next instruction, one for a jump.
-/

namespace N00b.Codegen

open N00b.Vm

/-! ## Items -/

/-- What stands at a place of the layout: an instruction, an expression, or a jump to the end of
a loop, `switch` or `typeof` around it. -/
inductive What where
  | op (i : Instr)
  | expr (e : ExprCode)
  | exit (c : Nat)

def What.size : What → Nat
  | op _ | exit _ => 1
  | expr e => e.size

def What.code (exitOf : Nat → Nat) (base : Nat) : What → List Instr
  | op i => [i]
  | expr e => e.code base
  | exit c => [.j (exitOf c)]

theorem What.length_code (exitOf : Nat → Nat) (base : Nat) (w : What) :
    (w.code exitOf base).length = w.size := by
  cases w with
  | op i => rfl
  | expr e => exact e.length_code base
  | exit c => rfl

/-- A place of the layout with the depth of the stack there and the leaks. -/
structure Item where
  what : What
  depth : Int
  fall : Int := 0
  taken : Int := 0

abbrev Layout := List Item

namespace Layout

def size (l : Layout) : Nat := (l.map (·.what.size)).sum

@[simp] theorem size_nil : size [] = 0 := rfl

@[simp] theorem size_cons (it : Item) (l : Layout) : size (it :: l) = it.what.size + size l := by
  simp [size]

@[simp] theorem size_append (l l' : Layout) : size (l ++ l') = size l + size l' := by
  simp [size]

/-- The instructions, for a choice of the ends of the loops around. -/
def code (exitOf : Nat → Nat) : Layout → Nat → List Instr
  | [], _ => []
  | it :: l, base => it.what.code exitOf base ++ code exitOf l (base + it.what.size)

@[simp] theorem length_code (exitOf : Nat → Nat) (l : Layout) (base : Nat) :
    (code exitOf l base).length = size l := by
  induction l generalizing base with
  | nil => rfl
  | cons it l ih => rw [code, List.length_append, What.length_code, ih, size_cons]

theorem code_append (exitOf : Nat → Nat) (l l' : Layout) (base : Nat) :
    code exitOf (l ++ l') base = code exitOf l base ++ code exitOf l' (base + size l) := by
  induction l generalizing base with
  | nil => simp [code]
  | cons it l ih => rw [List.cons_append, code, code, ih, size_cons, List.append_assoc, Nat.add_assoc]

/-- The places of the jumps to the end of `c`. -/
def positions (c : Nat) : Layout → Nat → List Nat
  | [], _ => []
  | it :: l, base =>
    match it.what with
    | .exit c' => if c' = c then base :: positions c l (base + 1) else positions c l (base + 1)
    | w => positions c l (base + w.size)

theorem positions_append (c : Nat) (l l' : Layout) (base : Nat) :
    positions c (l ++ l') base = positions c l base ++ positions c l' (base + size l) := by
  induction l generalizing base with
  | nil => simp [positions]
  | cons it l ih =>
    obtain ⟨w, d, f, t⟩ := it
    cases w with
    | op i | expr e => simp only [List.cons_append, positions, ih, size_cons, Nat.add_assoc]
    | exit c' =>
      simp only [List.cons_append, positions, ih, size_cons, What.size, Nat.add_assoc]
      split
      · rfl
      · rfl

def bindItem (c target : Nat) (it : Item) : Item :=
  match it.what with
  | .exit c' => if c' = c then { it with what := .op (.j target) } else it
  | _ => it

/-- The jumps to the end of `c` know it. -/
def bind (c target : Nat) (l : Layout) : Layout := l.map (bindItem c target)

theorem size_bindItem (c target : Nat) (it : Item) :
    (bindItem c target it).what.size = it.what.size := by
  obtain ⟨w, d, f, t⟩ := it
  cases w with
  | op i => rfl
  | expr e => rfl
  | exit c' => simp only [bindItem]; split <;> rfl

@[simp] theorem size_bind (c target : Nat) (l : Layout) : size (bind c target l) = size l := by
  induction l with
  | nil => rfl
  | cons it l ih =>
    rw [bind, List.map_cons, size_cons, size_cons, size_bindItem]
    exact congrArg _ ih

end Layout

/-! ## Effects on the stack -/

/-- How many slots an instruction that goes on to the next one pushes. -/
def effect : Instr → Int
  | .nop | .swap | .not | .abs | .getSign | .shlI _ | .deref | .pushObjType => 0
  | .jz _ | .jnz _ | .j _ => 0
  | .moveSp arg => arg
  | .pushConstObj _ | .pushImm _ | .pushLocalObj _ | .pushLocalRef _ | .pushStaticObj _ _
  | .pushStaticRef _ _ | .dupTop | .subNoPop | .gteNoPop | .cmpNoPop | .unsteal
  | .pushFrom _ => 1
  | .pop | .arith _ | .float _ | .compare _ | .popTo _ | .typeCmp => -1
  | .tcall fn _ => fn.results - fn.operands
  | .loadFromView kv => if kv then 2 else 1
  | .assignToLoc | .assignAttr _ => -2
  | .loadFromAttr flag => if flag then 1 else 0
  | .unpack n => -n

def Piece.what : Piece → What
  | .op i => .op i
  | .expr e => .expr e

def Piece.effect : Piece → Int
  | .op i => Codegen.effect i
  | .expr _ => 1

/-- Pieces in a row from a depth. What is left over at the end is a leak of the last one. -/
def line (leak : Int) : Int → List Piece → Layout
  | _, [] => []
  | d, [p] => [{ what := p.what, depth := d, fall := leak }]
  | d, p :: q :: ps => { what := p.what, depth := d } :: line leak (d + p.effect) (q :: ps)

/-- A jump, with what it leaks when it is taken. -/
def jump (i : Instr) (d taken : Int) : Layout := [⟨.op i, d, 0, taken⟩]

@[simp] theorem size_jump (i : Instr) (d taken : Int) : Layout.size (jump i d taken) = 1 := rfl

/-- A jump to the end of a loop, `switch` or `typeof` around it. -/
def exitJump (c : Nat) (d taken : Int) : Layout := [⟨.exit c, d, 0, taken⟩]

@[simp] theorem size_exitJump (c : Nat) (d taken : Int) :
    Layout.size (exitJump c d taken) = 1 := rfl

def sizeOf (ps : List Piece) : Nat := (ps.map (·.what.size)).sum

@[simp] theorem size_line (leak d : Int) (ps : List Piece) :
    Layout.size (line leak d ps) = sizeOf ps := by
  induction ps generalizing d with
  | nil => rfl
  | cons p ps ih =>
    cases ps with
    | nil => rfl
    | cons q ps =>
      rw [line, Layout.size_cons, ih]
      simp [sizeOf]

/-! ## Sizes -/

section

open Piece

def labelPieces (label : Bool) : List Piece := if label then [op .nop] else []

def LoopInfo.ifIx (li : LoopInfo) (i : Instr) : List Piece := if li.genIx then [op i] else []

def LoopInfo.ixSlots (li : LoopInfo) : Nat := if li.genIx then 1 else 0

def whileHead (li : LoopInfo) (test : ExprCode) : List Piece :=
  labelPieces li.label ++ [expr test, op (.pushImm 1), op (.compare .cmp)]

def rangeInit (li : LoopInfo) (lo hi : ExprCode) : List Piece :=
  labelPieces li.label ++ [expr lo, expr hi, op .swap, op .subNoPop] ++ calcLast li ++
    [op .getSign] ++ li.ifIx (.pushImm 0)

def rangeHead (li : LoopInfo) : List Piece :=
  indexVarIncrement li ++ li.ifIx (.popTo .r3) ++ [op (.popTo .r1), op .cmpNoPop]

def rangeStep (li : LoopInfo) (lvar : Symbol) : List Piece :=
  symStore lvar false ++ [op (.pushFrom .r1), op (.arith .add), op (.pushFrom .r1)] ++
    li.ifIx (.pushFrom .r3)

def containerInit (li : LoopInfo) (container : ExprCode) : List Piece :=
  labelPieces li.label ++ [expr container, op (.tcall .view none)] ++ lenVarInit li ++
    [op (.popTo .r2), op .unsteal, op (.shlI 1), op (.pushImm 0), op (.pushFrom .r2)]

/-- `deal_with_iteration_count`. -/
def iterationCount (li : LoopInfo) : List Piece :=
  if li.genIx then indexVarIncrement li else [op (.pushImm 1), op (.arith .add)]

def containerStep (li : LoopInfo) (lvar1 : Symbol) (lvar2 : Option Symbol) : List Piece :=
  [op (.popTo .r2)] ++ iterationCount li ++ [op (.popTo .r1), op (.loadFromView lvar2.isSome)] ++
    symStore lvar1 true ++ (lvar2.map (symStore · true)).getD [] ++
    [op (.pushFrom .r1), op (.pushFrom .r2)]

def Condition.pieces (t : Builtin) : Condition → List Piece
  | .value e => [op .dupTop, expr e, op (equalityTest t)]
  | .range lo hi =>
    [op .dupTop, expr lo, expr hi, op (.popTo .r0),
      op (.compare (if t.isSigned then .gte else .ugte))]
  | .type constant => [op .dupTop, op (.pushConstObj constant), op .typeCmp]

/-- The second half of a range, behind its jump. -/
def upperTest : List Piece := [op .dupTop, op (.pushFrom .r0), op (.compare .lte)]

def Condition.size (t : Builtin) (c : Condition) : Nat :=
  match c with
  | .range _ _ => sizeOf (c.pieces t) + 1 + sizeOf upperTest
  | _ => sizeOf (c.pieces t)

def conditionsSize (t : Builtin) : List Condition → Nat
  | [] => 0
  | c :: cs => c.size t + 1 + conditionsSize t cs

end

mutual

def Stmt.size : Stmt → Nat
  | .skip => 0
  | .seq first rest => first.size + rest.size
  | .expression e => e.size
  | .assign a => sizeOf a.pieces
  | .cond test body rest => test.size + 1 + body.size + 1 + rest.size
  | .while li test body =>
    sizeOf (li.ifIx (.pushImm 0)) + sizeOf (whileHead li test) + 1 + body.size +
      sizeOf (indexVarIncrement li) + 1 + sizeOf (li.ifIx .pop)
  | .forRange li lvar lo hi body =>
    sizeOf (rangeInit li lo hi) + sizeOf (rangeHead li) + 1 + sizeOf (rangeStep li lvar) +
      body.size + 1 + 1
  | .forIn li lvar1 lvar2 container body =>
    sizeOf (containerInit li container) + 1 + 1 + sizeOf (containerStep li lvar1 lvar2) +
      body.size + 1 + 1
  | .switch _ label value t cases =>
    sizeOf (labelPieces label) + value.size + cases.size t true
  | .typeof _ label _ cases =>
    sizeOf (labelPieces label) + 2 + cases.size .typespec false
  | .break _ | .continue _ => 1

def Chain.size : Chain → Nat
  | .none => 0
  | .else body => body.size
  | .elif test body rest => test.size + 1 + body.size + 1 + rest.size

def Cases.size (t : Builtin) (popForElse : Bool) : Cases → Nat
  | .none => 0
  | .else body => (if popForElse then 1 else 0) + body.size
  | .case conditions body rest =>
    conditionsSize t conditions + 1 + body.size + 1 + rest.size t popForElse

end

/-! ## The layout -/

/-- What is known of the loops, switches and typeofs around a statement: where `continue` goes,
and the depths at both ends. -/
structure Enclosing where
  entry : Nat → Nat
  entryDepth : Nat → Int
  exitDepth : Nat → Int

def Enclosing.bind (env : Enclosing) (c entry : Nat) (entryDepth exitDepth : Int) : Enclosing where
  entry := Function.update env.entry c entry
  entryDepth := Function.update env.entryDepth c entryDepth
  exitDepth := Function.update env.exitDepth c exitDepth

/-- Inside a `switch` or `typeof`, which has no entry point. -/
def Enclosing.bindExit (env : Enclosing) (c : Nat) (exitDepth : Int) : Enclosing :=
  { env with exitDepth := Function.update env.exitDepth c exitDepth }

/-- An assignment with an operator for which nothing is emitted keeps its right side. -/
def Assign.leak : Assign → Int
  | .binary op t _ _ | .binaryIndex op t _ _ _ => if binopAssignGen op t = [] then 1 else 0
  | _ => 0

/-- The test of a condition against the value on top at depth `dv`. -/
def Condition.layout (t : Builtin) (dv : Int) (base : Nat) (c : Condition) : Layout :=
  match c with
  | .range _ _ =>
    let behind := base + sizeOf (c.pieces t) + 1 + sizeOf upperTest
    line 0 dv (c.pieces t) ++ jump (.jz behind) (dv + 1) 0 ++
      line 0 dv upperTest
  | _ => line 0 dv (c.pieces t)

/-- Conditions with their jumps to the body. A jump that is taken leaves the value and the
test. -/
def layoutConditions (t : Builtin) (body : Nat) (d dv : Int) : List Condition → Nat → Layout
  | [], _ => []
  | c :: cs, base =>
    c.layout t dv base ++
      jump (.jnz body) (dv + 1) (dv + 1 - d) ++
      layoutConditions t body d dv cs (base + c.size t + 1)

/-- A test with its jump around the body, the body and the jump to the end. The jump around the
body leaves the test when it is taken. -/
def layoutArm (test : ExprCode) (body : Layout) (d : Int) (next exit : Nat) : Layout :=
  line 0 d [.expr test] ++ jump (.jz next) (d + 1) 1 ++ body ++
    jump (.j exit) d 0

def Cases.hasElse : Cases → Bool
  | .none => false
  | .else _ => true
  | .case _ _ rest => rest.hasElse

mutual

/-- The layout of a statement that starts at `base` with `d` slots on the stack. -/
def Stmt.layout (env : Enclosing) (base : Nat) (d : Int) : Stmt → Layout
  | .skip => []
  | .seq first rest => first.layout env base d ++ rest.layout env (base + first.size) d
  | .expression e => line 1 d [.expr e]
  | .assign a => line a.leak d a.pieces
  | .cond test body rest =>
    let next := base + test.size + 1 + body.size + 1
    layoutArm test (body.layout env (base + test.size + 1) d) d next (next + rest.size) ++
      rest.layout env next d
  | .while li test body =>
    let entry := base + sizeOf (li.ifIx (.pushImm 0))
    let start := entry + sizeOf (whileHead li test) + 1
    let exit := start + body.size + sizeOf (indexVarIncrement li) + 1
    let inner := d + li.ixSlots
    line 0 d (li.ifIx (.pushImm 0)) ++ line 0 inner (whileHead li test) ++
      jump (.jz exit) (inner + 1) 1 ++
      (body.layout (env.bind li.branchInfo entry inner inner) start inner).bind li.branchInfo exit ++
      line 0 inner (indexVarIncrement li) ++ jump (.j entry) inner 0 ++
      line 0 inner (li.ifIx .pop)
  | .forRange li lvar lo hi body =>
    let entry := base + sizeOf (rangeInit li lo hi)
    let start := entry + sizeOf (rangeHead li) + 1 + sizeOf (rangeStep li lvar)
    let exit := start + body.size + 1
    let inner := d + 3 + li.ixSlots
    line 0 d (rangeInit li lo hi) ++ line 0 inner (rangeHead li) ++
      jump (.jnz exit) (d + 3) 0 ++ line 0 (d + 2) (rangeStep li lvar) ++
      (body.layout (env.bind li.branchInfo entry inner (d + 3)) start inner).bind
        li.branchInfo exit ++
      jump (.j entry) inner 0 ++ line 0 (d + 3) [.op (.moveSp (-3))]
  | .forIn li lvar1 lvar2 container body =>
    let entry := base + sizeOf (containerInit li container)
    let start := entry + 1 + 1 + sizeOf (containerStep li lvar1 lvar2)
    let exit := start + body.size + 1
    line 0 d (containerInit li container) ++ line 0 (d + 4) [.op .gteNoPop] ++
      jump (.jnz exit) (d + 5) 0 ++
      line 0 (d + 4) (containerStep li lvar1 lvar2) ++
      (body.layout (env.bind li.branchInfo entry (d + 4) (d + 5)) start (d + 4)).bind
        li.branchInfo exit ++
      jump (.j entry) (d + 4) 0 ++ line 0 (d + 5) [.op (.moveSp (-5))]
  | .switch branchInfo label value t cases =>
    let start := base + sizeOf (labelPieces label) + value.size
    -- Only an `else` takes the value away.
    let dv := if cases.hasElse then d + 1 else d
    line 0 d (labelPieces label) ++ line (if cases.hasElse then 0 else 1) d [.expr value] ++
      (cases.layout (env.bindExit branchInfo d) branchInfo t true start d dv).bind
        branchInfo (start + cases.size t true)
  | .typeof branchInfo label sym cases =>
    let start := base + sizeOf (labelPieces label) + 2
    line 0 d (labelPieces label) ++ line 1 d [.op (symLoad sym), .op .pushObjType] ++
      (cases.layout (env.bindExit branchInfo d) branchInfo .typespec false start d d).bind
        branchInfo (start + cases.size .typespec false)
  | .break branchInfo =>
    exitJump branchInfo d (d - env.exitDepth branchInfo)
  | .continue branchInfo =>
    jump (.j (env.entry branchInfo)) d (d - env.entryDepth branchInfo)

def Chain.layout (env : Enclosing) (base : Nat) (d : Int) : Chain → Layout
  | .none => []
  | .else body => body.layout env base d
  | .elif test body rest =>
    let next := base + test.size + 1 + body.size + 1
    layoutArm test (body.layout env (base + test.size + 1) d) d next (next + rest.size) ++
      rest.layout env next d

/-- The kids of a `switch` or `typeof` over the value on top at depth `dv`. -/
def Cases.layout (env : Enclosing) (c : Nat) (t : Builtin) (popForElse : Bool) (base : Nat)
    (d dv : Int) : Cases → Layout
  | .none => []
  | .else body =>
    line 0 dv (if popForElse then [.op .pop] else []) ++
      body.layout env (base + (if popForElse then 1 else 0)) d
  | .case conditions body rest =>
    let start := base + conditionsSize t conditions + 1
    let next := start + body.size + 1
    layoutConditions t start d dv conditions base ++ jump (.j next) dv 0 ++
      body.layout env start d ++ exitJump c d 0 ++
      rest.layout env c t popForElse next d dv

end

end N00b.Codegen
