import N00b.Codegen.StackNeutral

/-!
# Where the jumps go

`Stmt.jumps` lists the jumps of a statement with the places they go to, in the words of the
language: the start of a loop, the place behind a construct, the next arm of a chain, the end of the
chain. It is the same list that is read off the instructions.

## Main results

* `Stmt.jumps_le`: no jump leaves the statement, but to a loop, `switch` or `typeof` around it.
-/

namespace N00b.Codegen

open N00b.Vm N00b.Parse

/-! ## Jumps in instructions -/

/-- A jump: the index of its instruction, what it tests, and where it goes. -/
structure Jump where
  place : Nat
  op : JumpOp
  target : Nat
deriving DecidableEq, Repr

def asJump : Instr → Option (JumpOp × Nat)
  | .jz arg => some (.jz, arg)
  | .jnz arg => some (.jnz, arg)
  | .j arg => some (.j, arg)
  | _ => none

/-- An instruction is read back as the jump that it is. -/
theorem asJump_eq_some {i : Instr} {op : JumpOp} {arg : Nat} :
    asJump i = some (op, arg) ↔ i = op.instr arg := by
  constructor
  · intro h
    cases i <;> cases h <;> rfl
  · rintro rfl
    cases op <;> rfl

/-- The jumps among instructions that start at `base`. -/
def jumpsOf : Nat → List Instr → List Jump
  | _, [] => []
  | base, i :: is =>
    ((asJump i).map fun r => ⟨base, r.1, r.2⟩).toList ++ jumpsOf (base + 1) is

/-- The jumps of code are those of its parts, each at its place. -/
theorem jumpsOf_append (base : Nat) (is js : List Instr) :
    jumpsOf base (is ++ js) = jumpsOf base is ++ jumpsOf (base + is.length) js := by
  induction is generalizing base with
  | nil => rfl
  | cons i is ih =>
    rw [List.cons_append, jumpsOf, jumpsOf, ih, List.append_assoc, List.length_cons,
      Nat.add_assoc, Nat.add_comm 1]

/-- A jump in front is the first of the jumps. -/
theorem jumpsOf_jump (base : Nat) (op : JumpOp) (arg : Nat) (is : List Instr) :
    jumpsOf base (op.instr arg :: is) = ⟨base, op, arg⟩ :: jumpsOf (base + 1) is := by
  rw [jumpsOf, asJump_eq_some.mpr rfl]
  rfl

/-! ## The jumps of a statement -/

def ExprCode.jumps (e : ExprCode) (base : Nat) : List Jump := jumpsOf base (e.code base)

def piecesJumps : Nat → List Piece → List Jump
  | _, [] => []
  | base, .op i :: ps => jumpsOf base [i] ++ piecesJumps (base + 1) ps
  | base, .expr e :: ps => e.jumps base ++ piecesJumps (base + e.size) ps

/-- Where the loops, switches and typeofs around a statement begin, and where they end. -/
structure Targets where
  entry : Nat → Nat
  exit : Nat → Nat

def Targets.bind (env : Targets) (c entry exit : Nat) : Targets where
  entry := Function.update env.entry c entry
  exit := Function.update env.exit c exit

/-- Inside a `switch` or `typeof`. -/
def Targets.bindExit (env : Targets) (c exit : Nat) : Targets :=
  { env with exit := Function.update env.exit c exit }

/-- The second half of a range is skipped when the first one fails. -/
def Condition.jumps (t : Builtin) (base : Nat) (c : Condition) : List Jump :=
  match c with
  | .range _ _ =>
    piecesJumps base (c.pieces t) ++
      [⟨base + sizeOf (c.pieces t), .jz, base + c.size t⟩]
  | _ => piecesJumps base (c.pieces t)

/-- Every condition that holds goes to the body. -/
def conditionsJumps (t : Builtin) (body : Nat) : List Condition → Nat → List Jump
  | [], _ => []
  | c :: cs, base =>
    c.jumps t base ++ ⟨base + c.size t, .jnz, body⟩ ::
      conditionsJumps t body cs (base + c.size t + 1)

mutual

/-- The jumps of a statement at `base`. -/
def Stmt.jumps (env : Targets) (base : Nat) : Stmt → List Jump
  | .skip => []
  | .seq first rest => first.jumps env base ++ rest.jumps env (base + first.size)
  | .expression e => e.jumps base
  | .assign a => piecesJumps base a.pieces
  | .cond test body rest =>
    let start := base + test.size + 1
    let next := start + body.size + 1
    let stop := next + rest.size
    test.jumps base ++ ⟨base + test.size, .jz, next⟩ ::
      (body.jumps env start ++ ⟨start + body.size, .j, stop⟩ :: rest.jumps env next stop)
  | .while li test body =>
    let entry := base + sizeOf (li.ifIx (.pushImm 0))
    let start := entry + sizeOf (whileHead li test) + 1
    let back := start + body.size + sizeOf (indexVarIncrement li)
    let exit := back + 1
    piecesJumps entry (whileHead li test) ++
      ⟨entry + sizeOf (whileHead li test), .jz, exit⟩ ::
      (body.jumps (env.bind li.branchInfo entry exit) start ++ ⟨back, .j, entry⟩ :: [])
  | .forRange li lvar lo hi body =>
    let entry := base + sizeOf (rangeInit li lo hi)
    let start := entry + sizeOf (rangeHead li) + 1 + sizeOf (rangeStep li lvar)
    let back := start + body.size
    let exit := back + 1
    piecesJumps base (rangeInit li lo hi) ++
      ⟨entry + sizeOf (rangeHead li), .jnz, exit⟩ ::
      (body.jumps (env.bind li.branchInfo entry exit) start ++ ⟨back, .j, entry⟩ :: [])
  | .forIn li lvar1 lvar2 container body =>
    let entry := base + sizeOf (containerInit li container)
    let start := entry + 1 + 1 + sizeOf (containerStep li lvar1 lvar2)
    let back := start + body.size
    let exit := back + 1
    piecesJumps base (containerInit li container) ++
      ⟨entry + 1, .jnz, exit⟩ ::
      (body.jumps (env.bind li.branchInfo entry exit) start ++ ⟨back, .j, entry⟩ :: [])
  | .switch branchInfo label value t cases =>
    let start := base + sizeOf (labelPieces label) + value.size
    let stop := start + cases.size t true
    value.jumps (base + sizeOf (labelPieces label)) ++
      cases.jumps (env.bindExit branchInfo stop) t true start stop
  | .typeof branchInfo label _ cases =>
    let start := base + sizeOf (labelPieces label) + 2
    let stop := start + cases.size .typespec false
    cases.jumps (env.bindExit branchInfo stop) .typespec false start stop
  | .break branchInfo => [⟨base, .j, env.exit branchInfo⟩]
  | .continue branchInfo => [⟨base, .j, env.entry branchInfo⟩]

/-- The arms of a chain that ends at `stop`. -/
def Chain.jumps (env : Targets) (base stop : Nat) : Chain → List Jump
  | .none => []
  | .else body => body.jumps env base
  | .elif test body rest =>
    let start := base + test.size + 1
    let next := start + body.size + 1
    test.jumps base ++ ⟨base + test.size, .jz, next⟩ ::
      (body.jumps env start ++ ⟨start + body.size, .j, stop⟩ :: rest.jumps env next stop)

/-- The cases of a `switch` or `typeof` that ends at `stop`. -/
def Cases.jumps (env : Targets) (t : Builtin) (popForElse : Bool) (base stop : Nat) :
    Cases → List Jump
  | .none => []
  | .else body => body.jumps env (base + (if popForElse then 1 else 0))
  | .case conditions body rest =>
    let start := base + conditionsSize t conditions + 1
    let next := start + body.size + 1
    conditionsJumps t start conditions base ++
      ⟨base + conditionsSize t conditions, .j, next⟩ ::
      (body.jumps env start ++ ⟨start + body.size, .j, stop⟩ ::
        rest.jumps env t popForElse next stop)

end

/-! ## The jumps in a layout -/

namespace Layout

def jumps (exitOf : Nat → Nat) (l : Layout) (base : Nat) : List Jump :=
  jumpsOf base (l.code exitOf base)

variable (exitOf : Nat → Nat)

@[simp] theorem jumps_nil (base : Nat) : jumps exitOf [] base = [] := rfl

/-- The jumps of layouts add up likewise. -/
theorem jumps_append (l l' : Layout) (base : Nat) :
    jumps exitOf (l ++ l') base = jumps exitOf l base ++ jumps exitOf l' (base + l.size) := by
  rw [jumps, code_append, jumpsOf_append, length_code]
  rfl

@[simp] theorem jumps_jump (op : JumpOp) (arg : Nat) (d taken : Int) (base : Nat) :
    jumps exitOf (jump (op.instr arg) d taken) base = [⟨base, op, arg⟩] :=
  jumpsOf_jump base op arg []

@[simp] theorem jumps_exitJump (c : Nat) (d taken : Int) (base : Nat) :
    jumps exitOf (exitJump c d taken) base = [⟨base, .j, exitOf c⟩] := rfl

@[simp] theorem jumps_line (leak d : Int) (ps : List Piece) (base : Nat) :
    jumps exitOf (line leak d ps) base = piecesJumps base ps := by
  induction ps generalizing base d with
  | nil => rfl
  | cons p ps ih =>
    have hone : ∀ fall : Int, jumps exitOf [⟨p.what, d, fall, 0⟩] base =
        piecesJumps base [p] := by
      intro fall
      cases p with
      | op i =>
        rw [piecesJumps, piecesJumps, List.append_nil]
        rfl
      | expr e =>
        rw [piecesJumps, piecesJumps, List.append_nil]
        exact congrArg (jumpsOf base) (List.append_nil _)
    cases ps with
    | nil => exact hone leak
    | cons q ps =>
      have hsplit : line leak d (p :: q :: ps) =
          [⟨p.what, d, 0, 0⟩] ++ line leak (d + p.effect) (q :: ps) := rfl
      rw [hsplit, jumps_append, hone, ih]
      cases p with
      | op i | expr e => simp [piecesJumps, Piece.what, What.size]

/-- Binding an exit gives the code with the exit at the target. -/
theorem code_bind (c target : Nat) (l : Layout) (base : Nat) :
    code exitOf (l.bind c target) base = code (Function.update exitOf c target) l base := by
  induction l generalizing base with
  | nil => rfl
  | cons it l ih =>
    have hcons : Layout.bind c target (it :: l) =
        bindItem c target it :: Layout.bind c target l := rfl
    rw [hcons, code, code, ih, size_bindItem]
    congr 1
    obtain ⟨w, d, fall, taken⟩ := it
    cases w with
    | op i => rfl
    | expr e => rfl
    | exit c' =>
      by_cases hc : c' = c
      · subst hc
        simp only [bindItem, if_true, What.code, Function.update_self]
      · simp only [bindItem, if_neg hc, What.code, Function.update_of_ne hc]

/-- It gives the jumps with the exit at the target too. -/
theorem jumps_bind (c target : Nat) (l : Layout) (base : Nat) :
    jumps exitOf (l.bind c target) base = jumps (Function.update exitOf c target) l base := by
  rw [jumps, code_bind]
  rfl

end Layout

/-! ## Pieces without jumps of their own -/

/-- Only the expressions may have jumps. -/
def Straight (ps : List Piece) : Prop := ∀ i, Piece.op i ∈ ps → asJump i = none

@[simp] theorem straight_nil : Straight [] := fun _ h => absurd h List.not_mem_nil

@[simp] theorem straight_op (i : Instr) (ps : List Piece) :
    Straight (.op i :: ps) ↔ asJump i = none ∧ Straight ps := by
  constructor
  · intro h
    exact ⟨h i List.mem_cons_self, fun j hj => h j (List.mem_cons_of_mem _ hj)⟩
  · rintro ⟨hi, hps⟩ j hj
    rcases List.mem_cons.mp hj with hj | hj
    · cases hj
      exact hi
    · exact hps j hj

@[simp] theorem straight_expr (e : ExprCode) (ps : List Piece) :
    Straight (.expr e :: ps) ↔ Straight ps := by
  constructor
  · exact fun h j hj => h j (List.mem_cons_of_mem _ hj)
  · intro h j hj
    rcases List.mem_cons.mp hj with hj | hj
    · cases hj
    · exact h j hj

@[simp] theorem straight_append (ps qs : List Piece) :
    Straight (ps ++ qs) ↔ Straight ps ∧ Straight qs := by
  constructor
  · intro h
    exact ⟨fun j hj => h j (List.mem_append_left _ hj),
      fun j hj => h j (List.mem_append_right _ hj)⟩
  · rintro ⟨hps, hqs⟩ j hj
    rcases List.mem_append.mp hj with hj | hj
    · exact hps j hj
    · exact hqs j hj

@[simp] theorem straight_map (is : List Instr) :
    Straight (is.map .op) ↔ ∀ i ∈ is, asJump i = none := by
  constructor
  · exact fun h i hi => h i (List.mem_map_of_mem hi)
  · intro h i hi
    obtain ⟨j, hj, heq⟩ := List.mem_map.mp hi
    obtain rfl : j = i := Piece.op.inj heq
    exact h j hj

@[simp] theorem asJump_symLoad (sym : Symbol) : asJump (symLoad sym) = none := by
  cases sym <;> rfl

@[simp] theorem asJump_symLoadRef (sym : Symbol) : asJump (symLoadRef sym) = none := by
  cases sym <;> rfl

@[simp] theorem straight_labelPieces (label : Bool) : Straight (labelPieces label) := by
  cases label <;> simp [labelPieces, asJump]

@[simp] theorem straight_ifIx (li : LoopInfo) (i : Instr) (h : asJump i = none) :
    Straight (li.ifIx i) := by
  unfold LoopInfo.ifIx
  split <;> simp [h]

@[simp] theorem straight_symStore (sym : Symbol) (pop : Bool) : Straight (symStore sym pop) := by
  cases sym <;> cases pop <;> simp [symStore, symLoadRef, asJump]

@[simp] theorem straight_symStore_map (sym : Option Symbol) (pop : Bool) :
    Straight ((sym.map (symStore · pop)).getD []) := by
  cases sym with
  | none => exact straight_nil
  | some sym => exact straight_symStore sym pop

@[simp] theorem straight_indexVarIncrement (li : LoopInfo) : Straight (indexVarIncrement li) := by
  unfold indexVarIncrement
  split <;> simp [asJump]

@[simp] theorem straight_iterationCount (li : LoopInfo) : Straight (iterationCount li) := by
  unfold iterationCount
  split <;> simp [asJump]

@[simp] theorem straight_calcLast (li : LoopInfo) : Straight (calcLast li) := by
  unfold calcLast
  split <;> simp [asJump]

@[simp] theorem straight_lenVarInit (li : LoopInfo) : Straight (lenVarInit li) := by
  unfold lenVarInit
  split <;> simp

theorem jumpsOf_of_none {i : Instr} (h : asJump i = none) (base : Nat) : jumpsOf base [i] = [] := by
  rw [jumpsOf, h]
  rfl

/-- Straight pieces without expressions have no jumps. -/
theorem piecesJumps_eq_nil {ps : List Piece} (hs : Straight ps) (he : exprsOf ps = [])
    (base : Nat) : piecesJumps base ps = [] := by
  induction ps generalizing base with
  | nil => rfl
  | cons p ps ih =>
    cases p with
    | op i =>
      obtain ⟨hi, hrest⟩ := (straight_op i ps).mp hs
      rw [piecesJumps, jumpsOf_of_none hi, List.nil_append]
      exact ih hrest he _
    | expr e => cases he

theorem piecesJumps_ifIx (li : LoopInfo) {i : Instr} (h : asJump i = none) (base : Nat) :
    piecesJumps base (li.ifIx i) = [] :=
  piecesJumps_eq_nil (straight_ifIx li i h) (exprsOf_ifIx li i) base

theorem piecesJumps_labelPieces (label : Bool) (base : Nat) :
    piecesJumps base (labelPieces label) = [] :=
  piecesJumps_eq_nil (straight_labelPieces label) (exprsOf_labelPieces label) base

theorem piecesJumps_indexVarIncrement (li : LoopInfo) (base : Nat) :
    piecesJumps base (indexVarIncrement li) = [] :=
  piecesJumps_eq_nil (straight_indexVarIncrement li) (exprsOf_indexVarIncrement li) base

theorem piecesJumps_rangeHead (li : LoopInfo) (base : Nat) :
    piecesJumps base (rangeHead li) = [] :=
  piecesJumps_eq_nil (by simp [rangeHead, asJump, straight_ifIx li (.popTo .r3) rfl])
    (by simp [rangeHead]) base

theorem piecesJumps_rangeStep (li : LoopInfo) (lvar : Symbol) (base : Nat) :
    piecesJumps base (rangeStep li lvar) = [] :=
  piecesJumps_eq_nil (by simp [rangeStep, asJump, straight_ifIx li (.pushFrom .r3) rfl])
    (by simp [rangeStep]) base

theorem piecesJumps_containerStep (li : LoopInfo) (lvar1 : Symbol) (lvar2 : Option Symbol)
    (base : Nat) : piecesJumps base (containerStep li lvar1 lvar2) = [] :=
  piecesJumps_eq_nil (by simp [containerStep, asJump]) (by simp [containerStep]) base

/-! ## The jumps of a statement are those of its layout -/

/-- The jumps of a condition are those of its pieces. -/
theorem Condition.jumps_layout (exitOf : Nat → Nat) (t : Builtin) (dv : Int) (base : Nat)
    (c : Condition) : Layout.jumps exitOf (c.layout t dv base) base = c.jumps t base := by
  cases c with
  | value e | type constant => exact Layout.jumps_line exitOf 0 dv _ base
  | range lo hi =>
    have hjump := fun arg => Layout.jumps_jump exitOf .jz arg
    simp only [JumpOp.instr] at hjump
    simp only [layout, jumps, Layout.jumps_append, Layout.jumps_line, hjump, size_line, size_jump,
      Layout.size_append]
    have hupper : ∀ b, piecesJumps b upperTest = [] := fun b => rfl
    rw [hupper, List.append_nil]
    simp only [Condition.size, Nat.add_assoc]

/-- Those of several conditions, each with its jump to the body. -/
theorem jumps_layoutConditions (exitOf : Nat → Nat) (t : Builtin) (body : Nat) (d dv : Int)
    (cs : List Condition) (base : Nat) :
    Layout.jumps exitOf (layoutConditions t body d dv cs base) base =
      conditionsJumps t body cs base := by
  induction cs generalizing base with
  | nil => rfl
  | cons c cs ih =>
    have hjump := fun arg => Layout.jumps_jump exitOf .jnz arg
    simp only [JumpOp.instr] at hjump
    simp only [layoutConditions, conditionsJumps, Layout.jumps_append, c.jumps_layout, hjump, ih,
      c.size_layout, size_jump, List.append_assoc, List.singleton_append,
      Nat.add_assoc]

/-- Those of an arm: past it when the test fails, and to the end behind the body. -/
theorem jumps_layoutArm (exitOf : Nat → Nat) (test : ExprCode) (body : Layout) (d : Int)
    (next exit base : Nat) :
    Layout.jumps exitOf (layoutArm test body d next exit) base =
      test.jumps base ++ ⟨base + test.size, .jz, next⟩ ::
        (Layout.jumps exitOf body (base + test.size + 1) ++
          [⟨base + test.size + 1 + body.size, .j, exit⟩]) := by
  have hjz := fun arg => Layout.jumps_jump exitOf .jz arg
  have hj := fun arg => Layout.jumps_jump exitOf .j arg
  simp only [JumpOp.instr] at hjz hj
  have htest : piecesJumps base [.expr test] = test.jumps base := List.append_nil _
  have hsize : sizeOf [.expr test] = test.size := by simp [sizeOf, Piece.what, What.size]
  simp only [layoutArm, Layout.jumps_append, Layout.jumps_line, htest, hjz, hj, size_line, hsize,
    size_jump, List.append_assoc, List.singleton_append, Nat.add_assoc]

/-- Those of a loop: out of it, and back to its entry. -/
theorem jumps_loopLayout (exitOf : Nat → Nat) (op : JumpOp) (c base : Nat)
    (init head step tail pop : List Piece) (body : Layout) (d₀ d₁ d₂ d₃ d₄ d₅ taken : Int)
    (hstep : ∀ b, piecesJumps b step = []) (htail : ∀ b, piecesJumps b tail = [])
    (hpop : ∀ b, piecesJumps b pop = []) :
    let entry := base + sizeOf init
    let start := entry + sizeOf head + 1 + sizeOf step
    let back := start + body.size + sizeOf tail
    let exit := back + 1
    Layout.jumps exitOf
      (line 0 d₀ init ++ line 0 d₁ head ++ jump (op.instr exit) d₂ taken ++ line 0 d₃ step ++
        body.bind c exit ++ line 0 d₄ tail ++ jump (.j entry) d₄ 0 ++ line 0 d₅ pop) base =
      piecesJumps base init ++ (piecesJumps entry head ++ ⟨entry + sizeOf head, op, exit⟩ ::
        (Layout.jumps (Function.update exitOf c exit) body start ++ [⟨back, .j, entry⟩])) := by
  intro entry start back exit
  have hj := fun arg => Layout.jumps_jump exitOf .j arg
  simp only [JumpOp.instr] at hj
  simp only [Layout.jumps_append, Layout.jumps_line, Layout.jumps_jump, Layout.jumps_bind, hj,
    hstep, htail, hpop, size_line, size_jump, Layout.size_bind,
    List.append_assoc, List.singleton_append, List.append_nil, List.nil_append, entry, start, back,
    exit, Nat.add_assoc]

mutual

/-- **The jumps in the code of a statement** are those that the statement means. -/
theorem Stmt.jumps_layout (env : Enclosing) (exitOf : Nat → Nat) (base : Nat) (d : Int) :
    ∀ s : Stmt, Layout.jumps exitOf (s.layout env base d) base = s.jumps ⟨env.entry, exitOf⟩ base
  | .skip => rfl
  | .seq first rest => by
    rw [Stmt.layout, Layout.jumps_append, first.jumps_layout, first.size_layout,
      rest.jumps_layout, Stmt.jumps]
  | .expression e => by
    rw [Stmt.layout, Layout.jumps_line]
    exact List.append_nil _
  | .assign a => by
    rw [Stmt.layout, Layout.jumps_line, Stmt.jumps]
  | .cond test body rest => by
    have hbody := body.jumps_layout env exitOf (base + test.size + 1) d
    have hrest := rest.jumps_layout env exitOf (base + test.size + 1 + body.size + 1)
      (base + test.size + 1 + body.size + 1 + rest.size) d rfl
    rw [Stmt.layout, Layout.jumps_append, jumps_layoutArm, size_layoutArm, hbody, body.size_layout,
      Stmt.jumps, List.append_assoc, List.cons_append, List.append_assoc, List.singleton_append,
      show base + (test.size + 1 + body.size + 1) = base + test.size + 1 + body.size + 1 by omega,
      hrest]
  | .while li test body => by
    have hloop := jumps_loopLayout exitOf .jz li.branchInfo base (li.ifIx (.pushImm 0))
      (whileHead li test) [] (indexVarIncrement li) (li.ifIx .pop)
      (body.layout (env.bind li.branchInfo (base + sizeOf (li.ifIx (.pushImm 0)))
        (d + li.ixSlots) (d + li.ixSlots))
        (base + sizeOf (li.ifIx (.pushImm 0)) + sizeOf (whileHead li test) + 1) (d + li.ixSlots))
      d (d + li.ixSlots) (d + li.ixSlots + 1) 0 (d + li.ixSlots) (d + li.ixSlots) 1
      (fun _ => rfl) (piecesJumps_indexVarIncrement li) (piecesJumps_ifIx li rfl)
    simp only [body.jumps_layout, body.size_layout, piecesJumps_ifIx li
      (show asJump (.pushImm 0) = none from rfl), line, sizeOf_nil, Nat.add_zero, List.append_nil,
      List.nil_append, JumpOp.instr] at hloop
    rw [Stmt.layout, Stmt.jumps]
    exact hloop
  | .forRange li lvar lo hi body => by
    have hloop := jumps_loopLayout exitOf .jnz li.branchInfo base (rangeInit li lo hi)
      (rangeHead li) (rangeStep li lvar) [] [.op (.moveSp (-3))]
      (body.layout (env.bind li.branchInfo (base + sizeOf (rangeInit li lo hi))
        (d + 3 + li.ixSlots) (d + 3))
        (base + sizeOf (rangeInit li lo hi) + sizeOf (rangeHead li) + 1 +
          sizeOf (rangeStep li lvar)) (d + 3 + li.ixSlots))
      d (d + 3 + li.ixSlots) (d + 3) (d + 2) (d + 3 + li.ixSlots) (d + 3) 0
      (piecesJumps_rangeStep li lvar) (fun _ => rfl) (fun _ => rfl)
    simp only [body.jumps_layout, body.size_layout, piecesJumps_rangeHead, line, sizeOf_nil,
      Nat.add_zero, List.append_nil, List.nil_append, JumpOp.instr] at hloop
    rw [Stmt.layout, Stmt.jumps]
    exact hloop
  | .forIn li lvar1 lvar2 container body => by
    have hloop := jumps_loopLayout exitOf .jnz li.branchInfo base (containerInit li container)
      [.op .gteNoPop] (containerStep li lvar1 lvar2) [] [.op (.moveSp (-5))]
      (body.layout (env.bind li.branchInfo (base + sizeOf (containerInit li container))
        (d + 4) (d + 5))
        (base + sizeOf (containerInit li container) + 1 + 1 +
          sizeOf (containerStep li lvar1 lvar2)) (d + 4))
      d (d + 4) (d + 5) (d + 4) (d + 4) (d + 5) 0
      (piecesJumps_containerStep li lvar1 lvar2) (fun _ => rfl) (fun _ => rfl)
    have hhead : ∀ b, piecesJumps b [.op .gteNoPop] = [] := fun _ => rfl
    simp only [body.jumps_layout, body.size_layout, hhead, line, sizeOf_nil, sizeOf_op,
      Nat.add_zero, List.append_nil, List.nil_append, JumpOp.instr] at hloop
    rw [Stmt.layout, Stmt.jumps]
    exact hloop
  | .switch branchInfo label value t cases => by
    have hvalue : ∀ b, piecesJumps b [.expr value] = value.jumps b := fun _ => List.append_nil _
    have hsize : sizeOf [.expr value] = value.size := by simp [sizeOf, Piece.what, What.size]
    have hcases := cases.jumps_layout (env.bindExit branchInfo d)
      (Function.update exitOf branchInfo
        (base + sizeOf (labelPieces label) + value.size + cases.size t true)) branchInfo t true
      (base + sizeOf (labelPieces label) + value.size)
      (base + sizeOf (labelPieces label) + value.size + cases.size t true) d
      (if cases.hasElse then d + 1 else d) (Function.update_self _ _ _)
    simp only [Stmt.layout, Stmt.jumps, Layout.jumps_append, Layout.jumps_line, Layout.jumps_bind,
      piecesJumps_labelPieces, List.nil_append, hvalue, hsize, size_line, Layout.size_append,
      ← Nat.add_assoc, hcases]
    rfl
  | .typeof branchInfo label sym cases => by
    have hvalue : ∀ b, piecesJumps b [.op (symLoad sym), .op .pushObjType] = [] := by
      intro b
      cases sym <;> rfl
    have hcases := cases.jumps_layout (env.bindExit branchInfo d)
      (Function.update exitOf branchInfo
        (base + sizeOf (labelPieces label) + 2 + cases.size .typespec false)) branchInfo .typespec
      false (base + sizeOf (labelPieces label) + 2)
      (base + sizeOf (labelPieces label) + 2 + cases.size .typespec false) d d
      (Function.update_self _ _ _)
    have hsize : sizeOf [.op (symLoad sym), .op .pushObjType] = 2 := rfl
    simp only [Stmt.layout, Stmt.jumps, Layout.jumps_append, Layout.jumps_line, Layout.jumps_bind,
      piecesJumps_labelPieces, List.nil_append, hvalue, hsize, size_line, Layout.size_append,
      ← Nat.add_assoc, hcases]
    rfl
  | .break branchInfo => rfl
  | .continue branchInfo => rfl

/-- The branches of a conditional jump to its end. -/
theorem Chain.jumps_layout (env : Enclosing) (exitOf : Nat → Nat) (base stop : Nat) (d : Int) :
    ∀ s : Chain, stop = base + s.size →
      Layout.jumps exitOf (s.layout env base d) base = s.jumps ⟨env.entry, exitOf⟩ base stop
  | .none, _ => rfl
  | .else body, _ => body.jumps_layout env exitOf base d
  | .elif test body rest, hstop => by
    have hend : base + test.size + 1 + body.size + 1 + rest.size = stop := by
      rw [hstop, Chain.size]
      omega
    have hbody := body.jumps_layout env exitOf (base + test.size + 1) d
    have hrest := rest.jumps_layout env exitOf (base + test.size + 1 + body.size + 1) stop d
      hend.symm
    rw [Chain.layout, Layout.jumps_append, jumps_layoutArm, size_layoutArm, hbody, body.size_layout,
      Chain.jumps, List.append_assoc, List.cons_append, List.append_assoc, List.singleton_append,
      show base + (test.size + 1 + body.size + 1) = base + test.size + 1 + body.size + 1 by omega,
      hrest, hend]

/-- The cases of a switch jump to its exit. -/
theorem Cases.jumps_layout (env : Enclosing) (exitOf : Nat → Nat) (c : Nat) (t : Builtin)
    (popForElse : Bool) (base stop : Nat) (d dv : Int) :
    ∀ s : Cases, exitOf c = stop →
      Layout.jumps exitOf (s.layout env c t popForElse base d dv) base =
        s.jumps ⟨env.entry, exitOf⟩ t popForElse base stop
  | .none, _ => rfl
  | .else body, _ => by
    rw [Cases.layout, Layout.jumps_append, Layout.jumps_line, Cases.jumps, size_line]
    cases popForElse with
    | true => exact body.jumps_layout env exitOf (base + 1) d
    | false => exact body.jumps_layout env exitOf (base + 0) d
  | .case conditions body rest, hstop => by
    have hbody := body.jumps_layout env exitOf (base + conditionsSize t conditions + 1) d
    have hrest := rest.jumps_layout env exitOf c t popForElse
      (base + conditionsSize t conditions + 1 + body.size + 1) stop d dv hstop
    have hj := fun arg => Layout.jumps_jump exitOf .j arg
    simp only [JumpOp.instr] at hj
    simp only [Nat.add_assoc] at hbody hrest
    simp only [Cases.layout, Cases.jumps, Layout.jumps_append, jumps_layoutConditions, hj,
      Layout.jumps_exitJump, hstop, size_layoutConditions, size_jump,
      body.size_layout, size_exitJump, List.append_assoc, List.singleton_append, Nat.add_assoc,
      hbody, hrest]

end

/-! ## No jump leaves its statement -/

/-- The jumps of an expression stay in its block, or go right behind it. -/
def ExprCode.Resolved (e : ExprCode) : Prop :=
  ∀ base, ∀ jmp ∈ e.jumps base, jmp.target ≤ base + e.size

/-- `Resolved`, and no jump goes in front of the block. -/
def ExprCode.Closed (e : ExprCode) : Prop :=
  ∀ base, ∀ jmp ∈ e.jumps base, base ≤ jmp.target ∧ jmp.target ≤ base + e.size

/-- Where the expression lies between two places, its jumps do. -/
def ExprCode.Inside (lo hi : Nat) (e : ExprCode) : Prop :=
  ∀ base, lo ≤ base → base + e.size ≤ hi →
    ∀ jmp ∈ e.jumps base, lo ≤ jmp.target ∧ jmp.target ≤ hi

theorem ExprCode.Resolved.inside {e : ExprCode} (h : e.Resolved) (hi : Nat) : e.Inside 0 hi :=
  fun base _ hbase jmp hjmp => ⟨Nat.zero_le _, (h base jmp hjmp).trans hbase⟩

/-- What jumps inside of itself jumps inside of all that holds it. -/
theorem ExprCode.Closed.inside {e : ExprCode} (h : e.Closed) (lo hi : Nat) : e.Inside lo hi :=
  fun base hlo hbase jmp hjmp =>
    ⟨hlo.trans (h base jmp hjmp).1, (h base jmp hjmp).2.trans hbase⟩

theorem jumpsOf_eq_nil {is : List Instr} (h : ∀ i ∈ is, asJump i = none) (base : Nat) :
    jumpsOf base is = [] := by
  induction is generalizing base with
  | nil => rfl
  | cons i is ih =>
    rw [jumpsOf, h i List.mem_cons_self]
    exact ih (fun j hj => h j (List.mem_cons_of_mem _ hj)) _

theorem asJump_genIntBinaryOp (op : Operator) (sign : Bool) :
    asJump (genIntBinaryOp op sign) = none := by
  cases op <;> rfl

theorem asJump_genPolymorphicBinaryOp (op : Operator) (t : Builtin) :
    ∀ i ∈ genPolymorphicBinaryOp op t, asJump i = none := by
  cases op <;> simp [genPolymorphicBinaryOp, asJump]

theorem asJump_genFloatBinaryOp (op : Operator) :
    ∀ i ∈ genFloatBinaryOp op, asJump i = none := by
  cases op <;> simp [genFloatBinaryOp, asJump]

/-- A binary operator is no jump. -/
theorem asJump_genBinaryOp (op : Operator) (t : Builtin) :
    ∀ i ∈ genBinaryOp op t, asJump i = none := by
  unfold genBinaryOp
  split
  · exact asJump_genPolymorphicBinaryOp op t
  split
  · simp [asJump_genIntBinaryOp]
  split
  · simp [asJump_genIntBinaryOp]
  split
  · exact asJump_genFloatBinaryOp op
  · exact fun _ h => absurd h List.not_mem_nil

/-- The operator of an assignment is none either. -/
theorem asJump_binopAssignGen (op : Operator) (t : Builtin) :
    ∀ i ∈ binopAssignGen op t, asJump i = none := by
  unfold binopAssignGen
  split
  · split
    · simp [asJump_genIntBinaryOp]
    split
    · simp [asJump_genIntBinaryOp]
    split
    · exact asJump_genFloatBinaryOp op
    · exact asJump_genPolymorphicBinaryOp op t
  · exact fun _ h => absurd h List.not_mem_nil

/-! ## Expressions -/

/-- The jumps of an expression. `and` and `or` go behind their right operand when the left one
decides. -/
def Node.jumps (base : Nat) : Node → List Jump
  | .simpleLit _ | .identifier _ => []
  | .binaryOp _ _ l r | .cmp _ _ l r => l.jumps base ++ r.jumps (base + l.size)
  | .unaryOp true kid => kid.jumps base ++ kid.jumps (base + kid.size)
  | .unaryOp false kid => kid.jumps base
  | .or l r =>
    let start := base + l.size + 3
    l.jumps base ++ ⟨base + l.size + 1, .jnz, start + r.size⟩ :: r.jumps start
  | .and l r =>
    let start := base + l.size + 3
    l.jumps base ++ ⟨base + l.size + 1, .jz, start + r.size⟩ :: r.jumps start
  | .expression kid => kid.jumps base

/-- Code that may skip its right operand has one jump more than its operands. -/
theorem jumpsOf_shortCircuit (op : JumpOp) (left right : List Instr) (base target : Nat) :
    jumpsOf base (left ++ (.dupTop :: op.instr target :: .pop :: right)) =
      jumpsOf base left ++
        ⟨base + left.length + 1, op, target⟩ :: jumpsOf (base + left.length + 3) right := by
  have hdup : ∀ b is, jumpsOf b (.dupTop :: is) = jumpsOf (b + 1) is := fun _ _ => rfl
  have hpop : ∀ b is, jumpsOf b (.pop :: is) = jumpsOf (b + 1) is := fun _ _ => rfl
  rw [jumpsOf_append, hdup, jumpsOf_jump, hpop]

/-- The jumps in the code of an expression are those of its `and` and `or`. -/
theorem Node.jumpsOf_code : ∀ (n : Node) (base : Nat), jumpsOf base (n.code base) = n.jumps base
  | .simpleLit value, base => rfl
  | .identifier sym, base => jumpsOf_of_none (asJump_symLoad sym) base
  | .binaryOp op t l r, base | .cmp op t l r, base => by
    rw [code, jumpsOf_append, jumpsOf_append, jumpsOf_eq_nil (asJump_genBinaryOp op t),
      List.append_nil, l.length_code, l.jumpsOf_code, r.jumpsOf_code, jumps]
  | .unaryOp true kid, base => by
    rw [code, jumpsOf_append, jumpsOf_append, jumpsOf_of_none (show asJump .not = none from rfl),
      List.append_nil, kid.length_code, kid.jumpsOf_code, kid.jumpsOf_code, jumps]
  | .unaryOp false kid, base => by
    have hnone : ∀ i ∈ [Instr.pushImm (-1), .arith .mul], asJump i = none := by simp [asJump]
    rw [code, jumpsOf_append, jumpsOf_eq_nil hnone, List.append_nil, kid.jumpsOf_code, jumps]
  | .or l r, base => by
    have hsplit := jumpsOf_shortCircuit .jnz (l.code base) (r.code (base + l.size + 3)) base
      (base + l.size + 3 + r.size)
    rw [l.length_code, l.jumpsOf_code, r.jumpsOf_code] at hsplit
    exact hsplit
  | .and l r, base => by
    have hsplit := jumpsOf_shortCircuit .jz (l.code base) (r.code (base + l.size + 3)) base
      (base + l.size + 3 + r.size)
    rw [l.length_code, l.jumpsOf_code, r.jumpsOf_code] at hsplit
    exact hsplit
  | .expression kid, base => kid.jumpsOf_code base

/-- **An expression jumps inside of itself**, or just behind. -/
theorem Node.jumps_inside :
    ∀ (n : Node) (base : Nat), ∀ jmp ∈ n.jumps base,
      base ≤ jmp.target ∧ jmp.target ≤ base + n.size
  | .simpleLit value, base => fun jmp hjmp => absurd hjmp List.not_mem_nil
  | .identifier sym, base => fun jmp hjmp => absurd hjmp List.not_mem_nil
  | .binaryOp op t l r, base | .cmp op t l r, base => by
    intro jmp hjmp
    rw [jumps, List.mem_append] at hjmp
    rw [size]
    rcases hjmp with hjmp | hjmp
    · have hle := l.jumps_inside base jmp hjmp
      omega
    · have hle := r.jumps_inside _ jmp hjmp
      omega
  | .unaryOp true kid, base => by
    intro jmp hjmp
    rw [jumps, List.mem_append] at hjmp
    rw [size]
    rcases hjmp with hjmp | hjmp
    · have hle := kid.jumps_inside base jmp hjmp
      omega
    · have hle := kid.jumps_inside _ jmp hjmp
      omega
  | .unaryOp false kid, base => by
    intro jmp hjmp
    have hle := kid.jumps_inside base jmp hjmp
    rw [size]
    omega
  | .or l r, base | .and l r, base => by
    intro jmp hjmp
    rw [jumps, List.mem_append, List.mem_cons] at hjmp
    rw [size]
    rcases hjmp with hjmp | rfl | hjmp
    · have hle := l.jumps_inside base jmp hjmp
      omega
    · dsimp only
      omega
    · have hle := r.jumps_inside _ jmp hjmp
      omega
  | .expression kid, base => kid.jumps_inside base

theorem Node.jumps_exprCode (n : Node) (base : Nat) : n.exprCode.jumps base = n.jumps base :=
  n.jumpsOf_code base

theorem Node.closed (n : Node) : n.exprCode.Closed := by
  intro base jmp hjmp
  rw [n.jumps_exprCode] at hjmp
  exact n.jumps_inside base jmp hjmp

theorem Node.resolved (n : Node) : n.exprCode.Resolved :=
  fun base jmp hjmp => (n.closed base jmp hjmp).2

/-! ## Pieces, conditions and statements -/

/-- An assignment has no jumps of its own. -/
theorem Assign.straight (a : Assign) : Straight a.pieces := by
  cases a with
  | tuple syms value =>
    have hsyms : (syms.map fun sym => Piece.op (symLoadRef sym)) =
        (syms.map symLoadRef).map .op := (List.map_map).symm
    rw [pieces, hsyms, straight_append, straight_map]
    constructor
    · intro i hi
      obtain ⟨sym, -, rfl⟩ := List.mem_map.mp hi
      exact asJump_symLoadRef sym
    · simp [asJump]
  | binary op t sym value =>
    simp only [pieces, straight_append, straight_op, straight_expr, straight_map, straight_nil,
      asJump_symLoadRef, and_true, true_and]
    exact ⟨⟨⟨rfl, rfl⟩, asJump_binopAssignGen op t⟩, rfl, rfl⟩
  | binaryIndex op t container ix value =>
    simp only [pieces, straight_append, straight_op, straight_expr, straight_map, straight_nil,
      and_true]
    exact ⟨⟨⟨rfl, rfl, rfl, rfl, rfl, rfl, rfl⟩, asJump_binopAssignGen op t⟩, rfl⟩
  | memSlot sym value | symDecl sym value =>
    simp only [pieces, straight_op, straight_expr, straight_nil, asJump_symLoadRef, and_true,
      true_and]
    trivial
  | viaIndexSetCall container ix value t => simp [pieces, asJump]
  | viaSliceSetCall container lo hi value t => simp [pieces, asJump]
  | viaLenThenSliceSetCall container lo value t => simp [pieces, asJump]
  | toAttribute name value lock => simp [pieces, asJump]

/-- Straight pieces jump where their expressions do. -/
theorem piecesJumps_inside {ps : List Piece} {base lo hi : Nat} (hs : Straight ps)
    (he : ∀ e ∈ exprsOf ps, e.Inside lo hi) (hlo : lo ≤ base) (hhi : base + sizeOf ps ≤ hi) :
    ∀ jmp ∈ piecesJumps base ps, lo ≤ jmp.target ∧ jmp.target ≤ hi := by
  induction ps generalizing base with
  | nil => exact fun _ h => absurd h List.not_mem_nil
  | cons p ps ih =>
    have hsize : sizeOf (p :: ps) = p.what.size + sizeOf ps := by simp [sizeOf]
    rw [hsize] at hhi
    intro jmp hjmp
    cases p with
    | op i =>
      obtain ⟨hi, hrest⟩ := (straight_op i ps).mp hs
      rw [piecesJumps, jumpsOf_of_none hi, List.nil_append] at hjmp
      exact ih hrest he (by omega) (by simp only [Piece.what, What.size] at hhi; omega) jmp hjmp
    | expr e =>
      simp only [Piece.what, What.size] at hhi
      rw [piecesJumps, List.mem_append] at hjmp
      rcases hjmp with hjmp | hjmp
      · exact he e List.mem_cons_self base hlo (by omega) jmp hjmp
      · exact ih ((straight_expr e ps).mp hs) (fun f hf => he f (List.mem_cons_of_mem _ hf))
          (by omega) (by omega) jmp hjmp

/-- The loops, switches and typeofs around a statement begin and end in front of a place. -/
structure Targets.Within (env : Targets) (scope loops : List Nat) (bound : Nat) : Prop where
  exit : ∀ c ∈ scope, env.exit c ≤ bound
  entry : ∀ c ∈ loops, env.entry c ≤ bound

/-- They begin and end between two places. -/
structure Targets.Between (env : Targets) (scope loops : List Nat) (lo hi : Nat) : Prop where
  exit : ∀ c ∈ scope, lo ≤ env.exit c ∧ env.exit c ≤ hi
  entry : ∀ c ∈ loops, lo ≤ env.entry c ∧ env.entry c ≤ hi

theorem Targets.Within.between {env : Targets} {scope loops : List Nat} {bound : Nat}
    (h : env.Within scope loops bound) : env.Between scope loops 0 bound where
  exit c hc := ⟨Nat.zero_le _, h.exit c hc⟩
  entry c hc := ⟨Nat.zero_le _, h.entry c hc⟩

/-- With an exit between the bounds, the targets stay between them. -/
theorem Targets.Between.bindExit {env : Targets} {scope loops : List Nat} {lo hi : Nat}
    (h : env.Between scope loops lo hi) {c exit : Nat} (hexit : lo ≤ exit ∧ exit ≤ hi) :
    (env.bindExit c exit).Between (c :: scope) loops lo hi where
  exit c' hc' := by
    show lo ≤ Function.update env.exit c exit c' ∧ Function.update env.exit c exit c' ≤ hi
    by_cases hc : c' = c
    · rw [hc, Function.update_self]
      exact hexit
    · rw [Function.update_of_ne hc]
      exact h.exit c' ((List.mem_cons.mp hc').resolve_left hc)
  entry := h.entry

/-- So they do with the entry and the exit of a loop. -/
theorem Targets.Between.bind {env : Targets} {scope loops : List Nat} {lo hi : Nat}
    (h : env.Between scope loops lo hi) {c entry exit : Nat} (hentry : lo ≤ entry ∧ entry ≤ hi)
    (hexit : lo ≤ exit ∧ exit ≤ hi) :
    (env.bind c entry exit).Between (c :: scope) (c :: loops) lo hi where
  exit := (h.bindExit hexit).exit
  entry c' hc' := by
    show lo ≤ Function.update env.entry c entry c' ∧ Function.update env.entry c entry c' ≤ hi
    by_cases hc : c' = c
    · rw [hc, Function.update_self]
      exact hentry
    · rw [Function.update_of_ne hc]
      exact h.entry c' ((List.mem_cons.mp hc').resolve_left hc)

theorem Condition.straight (t : Builtin) (c : Condition) : Straight (c.pieces t) := by
  cases c with
  | value e =>
    have htest : asJump (equalityTest t) = none := by
      unfold equalityTest
      split
      · rfl
      · rfl
    simp only [pieces, straight_op, straight_expr, straight_nil, htest, and_true]
    rfl
  | range lo hi => simp [pieces, asJump]
  | type constant => simp [pieces, asJump]

theorem Condition.exprsOf_pieces (t : Builtin) (c : Condition) :
    exprsOf (c.pieces t) = c.exprs := by
  cases c with
  | value e => rfl
  | range lo hi => rfl
  | type constant => rfl

/-- A condition jumps inside of what holds it. -/
theorem Condition.jumps_inside {t : Builtin} {c : Condition} {base lo hi : Nat}
    (he : ∀ e ∈ c.exprs, e.Inside lo hi) (hlo : lo ≤ base) (hhi : base + c.size t ≤ hi) :
    ∀ jmp ∈ c.jumps t base, lo ≤ jmp.target ∧ jmp.target ≤ hi := by
  have hpieces := c.exprsOf_pieces t ▸ he
  cases c with
  | value e => exact piecesJumps_inside ((value e).straight t) hpieces hlo hhi
  | type constant => exact piecesJumps_inside ((type constant).straight t) hpieces hlo hhi
  | range a b =>
    intro jmp hjmp
    rw [jumps, List.mem_append, List.mem_singleton] at hjmp
    rcases hjmp with hjmp | rfl
    · refine piecesJumps_inside ((range a b).straight t) hpieces hlo ?_ jmp hjmp
      rw [size] at hhi
      omega
    · exact ⟨hlo.trans (Nat.le_add_right _ _), hhi⟩

/-- Several conditions do, if the body is inside. -/
theorem conditionsJumps_inside {t : Builtin} {body : Nat} {cs : List Condition}
    {base lo hi : Nat} (he : ∀ e ∈ cs.flatMap Condition.exprs, e.Inside lo hi)
    (hbody : lo ≤ body ∧ body ≤ hi) (hlo : lo ≤ base) (hhi : base + conditionsSize t cs ≤ hi) :
    ∀ jmp ∈ conditionsJumps t body cs base, lo ≤ jmp.target ∧ jmp.target ≤ hi := by
  induction cs generalizing base with
  | nil => exact fun _ h => absurd h List.not_mem_nil
  | cons c cs ih =>
    rw [List.flatMap_cons] at he
    rw [conditionsSize] at hhi
    intro jmp hjmp
    rw [conditionsJumps, List.mem_append, List.mem_cons] at hjmp
    rcases hjmp with hjmp | rfl | hjmp
    · exact Condition.jumps_inside (fun e h => he e (List.mem_append_left _ h)) hlo (by omega) jmp
        hjmp
    · exact hbody
    · exact ih (fun e h => he e (List.mem_append_right _ h)) (by omega) (by omega) jmp hjmp

mutual

/-- **A statement jumps between the bounds** of what holds it, by induction on the statement. -/
theorem Stmt.jumps_inside {env : Targets} {scope loops : List Nat} {lo hi : Nat} (base : Nat) :
    ∀ s : Stmt, s.Scoped scope loops → (∀ e ∈ s.exprs, e.Inside lo hi) →
      env.Between scope loops lo hi → lo ≤ base → base + s.size ≤ hi →
      ∀ jmp ∈ s.jumps env base, lo ≤ jmp.target ∧ jmp.target ≤ hi
  | .skip, _, _, _, _, _ => fun _ h => absurd h List.not_mem_nil
  | .seq first rest, hscoped, he, henv, hlo, hhi => fun jmp hjmp => by
    rw [Stmt.size] at hhi
    rw [Stmt.exprs] at he
    rw [Stmt.jumps, List.mem_append] at hjmp
    rcases hjmp with hjmp | hjmp
    · exact first.jumps_inside base hscoped.1 (fun e h => he e (List.mem_append_left _ h)) henv
        hlo (by omega) jmp hjmp
    · exact rest.jumps_inside _ hscoped.2 (fun e h => he e (List.mem_append_right _ h)) henv
        (by omega) (by omega) jmp hjmp
  | .expression e, _, he, _, hlo, hhi => he e List.mem_cons_self base hlo hhi
  | .assign a, _, he, _, hlo, hhi => piecesJumps_inside a.straight he hlo hhi
  | .cond test body rest, hscoped, he, henv, hlo, hhi => fun jmp hjmp => by
    rw [Stmt.size] at hhi
    rw [Stmt.exprs] at he
    rw [Stmt.jumps, List.mem_append, List.mem_cons, List.mem_append, List.mem_cons] at hjmp
    rcases hjmp with hjmp | rfl | hjmp | rfl | hjmp
    · exact he test List.mem_cons_self base hlo (by omega) jmp hjmp
    · dsimp only
      omega
    · exact body.jumps_inside _ hscoped.1
        (fun e h => he e (List.mem_cons_of_mem _ (List.mem_append_left _ h))) henv (by omega)
        (by omega) jmp hjmp
    · dsimp only
      omega
    · exact rest.jumps_inside _ _ hscoped.2
        (fun e h => he e (List.mem_cons_of_mem _ (List.mem_append_right _ h))) henv (by omega)
        (by omega) (by omega) jmp hjmp
  | .while li test body, hscoped, he, henv, hlo, hhi => fun jmp hjmp => by
    rw [Stmt.size] at hhi
    rw [Stmt.exprs] at he
    rw [Stmt.jumps, List.mem_append, List.mem_cons, List.mem_append, List.mem_singleton] at hjmp
    rcases hjmp with hjmp | rfl | hjmp | rfl
    · refine piecesJumps_inside ?_ ?_ (by omega) (by omega) jmp hjmp
      · simp [whileHead, asJump]
      · intro e h
        simp only [whileHead, exprsOf_append, exprsOf_labelPieces, exprsOf_expr, exprsOf_op,
          exprsOf_nil, List.nil_append, List.mem_singleton] at h
        exact he e (h ▸ List.mem_cons_self)
    · dsimp only
      omega
    · exact body.jumps_inside _ hscoped (fun e h => he e (List.mem_cons_of_mem _ h))
        (henv.bind (by omega) (by omega)) (by omega) (by omega) jmp hjmp
    · dsimp only
      omega
  | .forRange li lvar a b body, hscoped, he, henv, hlo, hhi => fun jmp hjmp => by
    rw [Stmt.size] at hhi
    rw [Stmt.exprs] at he
    rw [Stmt.jumps, List.mem_append, List.mem_cons, List.mem_append, List.mem_singleton] at hjmp
    rcases hjmp with hjmp | rfl | hjmp | rfl
    · refine piecesJumps_inside ?_ ?_ (by omega) (by omega) jmp hjmp
      · simp [rangeInit, asJump]
        exact straight_ifIx li _ rfl
      · intro e h
        simp only [rangeInit, exprsOf_append, exprsOf_labelPieces, exprsOf_expr, exprsOf_op,
          exprsOf_calcLast, exprsOf_ifIx, exprsOf_nil, List.nil_append, List.append_nil] at h
        refine he e ?_
        rcases List.mem_cons.mp h with rfl | h
        · exact List.mem_cons_self
        · exact List.mem_cons_of_mem _ (List.mem_singleton.mp h ▸ List.mem_cons_self)
    · dsimp only
      omega
    · exact body.jumps_inside _ hscoped
        (fun e h => he e (List.mem_cons_of_mem _ (List.mem_cons_of_mem _ h)))
        (henv.bind (by omega) (by omega)) (by omega) (by omega) jmp hjmp
    · dsimp only
      omega
  | .forIn li lvar1 lvar2 container body, hscoped, he, henv, hlo, hhi => fun jmp hjmp => by
    rw [Stmt.size] at hhi
    rw [Stmt.exprs] at he
    rw [Stmt.jumps, List.mem_append, List.mem_cons, List.mem_append, List.mem_singleton] at hjmp
    rcases hjmp with hjmp | rfl | hjmp | rfl
    · refine piecesJumps_inside ?_ ?_ (by omega) (by omega) jmp hjmp
      · simp [containerInit, asJump]
      · intro e h
        simp only [containerInit, exprsOf_append, exprsOf_labelPieces, exprsOf_expr, exprsOf_op,
          exprsOf_lenVarInit, exprsOf_nil, List.nil_append, List.append_nil,
          List.mem_singleton] at h
        exact he e (h ▸ List.mem_cons_self)
    · dsimp only
      omega
    · exact body.jumps_inside _ hscoped (fun e h => he e (List.mem_cons_of_mem _ h))
        (henv.bind (by omega) (by omega)) (by omega) (by omega) jmp hjmp
    · dsimp only
      omega
  | .switch branchInfo label value t cases, hscoped, he, henv, hlo, hhi => fun jmp hjmp => by
    rw [Stmt.size] at hhi
    rw [Stmt.exprs] at he
    rw [Stmt.jumps, List.mem_append] at hjmp
    rcases hjmp with hjmp | hjmp
    · exact he value List.mem_cons_self _ (by omega) (by omega) jmp hjmp
    · exact cases.jumps_inside t true _ _ hscoped (fun e h => he e (List.mem_cons_of_mem _ h))
        (henv.bindExit (by omega)) (by omega) (by omega) (by omega) jmp hjmp
  | .typeof branchInfo label sym cases, hscoped, he, henv, hlo, hhi => fun jmp hjmp => by
    rw [Stmt.size] at hhi
    rw [Stmt.jumps] at hjmp
    exact cases.jumps_inside .typespec false _ _ hscoped he (henv.bindExit (by omega)) (by omega)
      (by omega) (by omega) jmp hjmp
  | .break branchInfo, hscoped, _, henv, _, _ => fun jmp hjmp => by
    obtain rfl := List.mem_singleton.mp hjmp
    exact henv.exit branchInfo hscoped
  | .continue branchInfo, hscoped, _, henv, _, _ => fun jmp hjmp => by
    obtain rfl := List.mem_singleton.mp hjmp
    exact henv.entry branchInfo hscoped

theorem Chain.jumps_inside {env : Targets} {scope loops : List Nat} {lo hi : Nat}
    (base stop : Nat) :
    ∀ s : Chain, s.Scoped scope loops → (∀ e ∈ s.exprs, e.Inside lo hi) →
      env.Between scope loops lo hi → lo ≤ base → base + s.size ≤ hi → lo ≤ stop ∧ stop ≤ hi →
      ∀ jmp ∈ s.jumps env base stop, lo ≤ jmp.target ∧ jmp.target ≤ hi
  | .none, _, _, _, _, _, _ => fun _ h => absurd h List.not_mem_nil
  | .else body, hscoped, he, henv, hlo, hhi, _ =>
    body.jumps_inside base hscoped he henv hlo hhi
  | .elif test body rest, hscoped, he, henv, hlo, hhi, hstop => fun jmp hjmp => by
    rw [Chain.size] at hhi
    rw [Chain.exprs] at he
    rw [Chain.jumps, List.mem_append, List.mem_cons, List.mem_append, List.mem_cons] at hjmp
    rcases hjmp with hjmp | rfl | hjmp | rfl | hjmp
    · exact he test List.mem_cons_self base hlo (by omega) jmp hjmp
    · dsimp only
      omega
    · exact body.jumps_inside _ hscoped.1
        (fun e h => he e (List.mem_cons_of_mem _ (List.mem_append_left _ h))) henv (by omega)
        (by omega) jmp hjmp
    · exact hstop
    · exact rest.jumps_inside _ _ hscoped.2
        (fun e h => he e (List.mem_cons_of_mem _ (List.mem_append_right _ h))) henv (by omega)
        (by omega) hstop jmp hjmp

theorem Cases.jumps_inside {env : Targets} {scope loops : List Nat} {lo hi : Nat} (t : Builtin)
    (popForElse : Bool) (base stop : Nat) :
    ∀ s : Cases, s.Scoped scope loops → (∀ e ∈ s.exprs, e.Inside lo hi) →
      env.Between scope loops lo hi → lo ≤ base → base + s.size t popForElse ≤ hi →
      lo ≤ stop ∧ stop ≤ hi →
      ∀ jmp ∈ s.jumps env t popForElse base stop, lo ≤ jmp.target ∧ jmp.target ≤ hi
  | .none, _, _, _, _, _, _ => fun _ h => absurd h List.not_mem_nil
  | .else body, hscoped, he, henv, hlo, hhi, _ => by
    rw [Cases.size, ← Nat.add_assoc] at hhi
    exact body.jumps_inside _ hscoped he henv (by omega) hhi
  | .case conditions body rest, hscoped, he, henv, hlo, hhi, hstop => fun jmp hjmp => by
    rw [Cases.size] at hhi
    rw [Cases.exprs] at he
    rw [Cases.jumps, List.mem_append, List.mem_cons, List.mem_append, List.mem_cons] at hjmp
    rcases hjmp with hjmp | rfl | hjmp | rfl | hjmp
    · exact conditionsJumps_inside
        (fun e h => he e (List.mem_append_left _ (List.mem_append_left _ h))) (by omega) hlo
        (by omega) jmp hjmp
    · dsimp only
      omega
    · exact body.jumps_inside _ hscoped.1
        (fun e h => he e (List.mem_append_left _ (List.mem_append_right _ h))) henv (by omega)
        (by omega) jmp hjmp
    · exact hstop
    · exact rest.jumps_inside t popForElse _ _ hscoped.2
        (fun e h => he e (List.mem_append_right _ h)) henv (by omega) (by omega) hstop jmp hjmp

end

/-- A statement jumps no further than its module. -/
theorem Stmt.jumps_le {env : Targets} {scope loops : List Nat} {bound : Nat} (base : Nat)
    (s : Stmt) (hscoped : s.Scoped scope loops) (he : ∀ e ∈ s.exprs, e.Resolved)
    (henv : env.Within scope loops bound) (hbound : base + s.size ≤ bound) :
    ∀ jmp ∈ s.jumps env base, jmp.target ≤ bound := fun jmp hjmp =>
  (s.jumps_inside base hscoped (fun e h => (he e h).inside bound) henv.between (Nat.zero_le _)
    hbound jmp hjmp).2

end N00b.Codegen
