import N00b.Codegen.Backpatch

/-!
# The depths of a layout fit together

Two things are to be checked of the depths written beside the instructions of a statement:
going on from one place to the next changes the depth as the instruction says (`Chained`), and a
jump finds its target at the depth it leaves behind (`Lands`). Both are up to the leaks.
-/

namespace N00b.Codegen

open N00b.Vm N00b.Parse

/-! ## Going on to the next place -/

/-- The instructions that a line is made of: they go on to the next one. -/
def Piece.straight : Piece → Bool
  | .op (.jz _) | .op (.jnz _) | .op (.j _) | .op (.loadFromAttr _) => false
  | _ => true

/-- The depth behind an item is `d`. Nothing is asked behind a jump that is always taken. -/
def Item.Falls (it : Item) (d : Int) : Prop :=
  match it.what with
  | .op (.j _) | .exit _ => True
  | .op (.jz _) | .op (.jnz _) => d = it.depth - 1 - it.fall
  | .op (.loadFromAttr _) => False
  | .op i => d = it.depth + effect i - it.fall
  | .expr _ => d = it.depth + 1 - it.fall

/-- The layout starts at depth `d`, ends at depth `dend`, and the depths fit in between. -/
def Chained : Layout → (d dend : Int) → Prop
  | [], d, dend => d = dend
  | it :: l, d, dend => it.depth = d ∧ ∃ d', it.Falls d' ∧ Chained l d' dend

/-- Two layouts that are chained one behind the other are one chain. -/
theorem Chained.append {l l' : Layout} {d d' dend : Int} (h : Chained l d d')
    (h' : Chained l' d' dend) : Chained (l ++ l') d dend := by
  induction l generalizing d with
  | nil =>
    obtain rfl : d = d' := h
    exact h'
  | cons it l ih =>
    obtain ⟨hd, d'', hfalls, hrest⟩ := h
    exact ⟨hd, d'', hfalls, ih hrest⟩

theorem Layout.depth_bindItem (c target : Nat) (it : Item) :
    (bindItem c target it).depth = it.depth := by
  obtain ⟨w, d, fall, taken⟩ := it
  cases w with
  | op i => rfl
  | expr e => rfl
  | exit c' => simp only [bindItem]; split <;> rfl

/-- Binding an exit leaves the depths as they are. -/
theorem Chained.bind {l : Layout} {d dend : Int} (h : Chained l d dend) (c target : Nat) :
    Chained (l.bind c target) d dend := by
  induction l generalizing d with
  | nil => exact h
  | cons it l ih =>
    obtain ⟨rfl, d', hfalls, hrest⟩ := h
    have hgoes : (Layout.bindItem c target it).Falls d' := by
      obtain ⟨w, d, fall, taken⟩ := it
      cases w with
      | op i => exact hfalls
      | expr e => exact hfalls
      | exit c' => simp only [Layout.bindItem]; split <;> trivial
    exact ⟨Layout.depth_bindItem c target it, d', hgoes, ih hrest⟩

/-- What a line of pieces does to the stack. -/
def effects (ps : List Piece) : Int := (ps.map Piece.effect).sum

@[simp] theorem effects_nil : effects [] = 0 := rfl

@[simp] theorem effects_cons (p : Piece) (ps : List Piece) :
    effects (p :: ps) = p.effect + effects ps := by
  simp [effects]

@[simp] theorem effects_append (ps qs : List Piece) :
    effects (ps ++ qs) = effects ps + effects qs := by
  simp [effects]

/-- A straight piece falls through with its effect added to the depth. -/
theorem Piece.falls {p : Piece} (hp : p.straight) (d leak : Int) :
    Item.Falls ⟨p.what, d, leak, 0⟩ (d + p.effect - leak) := by
  cases p with
  | expr e => rfl
  | op i => cases i <;> first | rfl | cases hp

variable {ps : List Piece}

/-- A line of straight pieces is a chain from its depth to the sum of their effects, less what it
leaks. -/
theorem chained_line_effects {leak : Int} (hps : ps.all Piece.straight)
    (hleak : ps = [] → leak = 0) (d : Int) :
    Chained (line leak d ps) d (d + effects ps - leak) := by
  induction ps generalizing d with
  | nil =>
    rw [hleak rfl]
    simp [line, Chained]
  | cons p ps ih =>
    rw [List.all_cons, Bool.and_eq_true] at hps
    have hp := hps.1
    cases ps with
    | nil =>
      refine ⟨rfl, d + p.effect - leak, p.falls hp d leak, ?_⟩
      simp [Chained]
    | cons q ps =>
      have hfalls := p.falls hp d 0
      rw [sub_zero] at hfalls
      refine ⟨rfl, d + p.effect, hfalls, ?_⟩
      have hrest := ih hps.2 (fun h => by cases h) (d + p.effect)
      rw [effects_cons, ← add_assoc]
      exact hrest

/-- A line that pushes `n` slots on the whole. -/
structure Net (ps : List Piece) (n : Int) : Prop where
  straight : ps.all Piece.straight
  effects : effects ps = n

/-- A line of pieces with a known net effect is a chain between the depths that differ by it. -/
theorem Net.chained {n d d' leak : Int} (h : Net ps n)
    (hleak : ps = [] → leak = 0) (hd : d + n = d' + leak) : Chained (line leak d ps) d d' := by
  have hline := chained_line_effects h.straight hleak d
  have hend : d + n - leak = d' := by omega
  rwa [h.effects, hend] at hline

theorem Net.line {n d d' : Int} (h : Net ps n) (hd : d + n = d') :
    Chained (line 0 d ps) d d' :=
  h.chained (fun _ => rfl) (by omega)

/-- Net effects add up. -/
theorem Net.append {ps qs : List Piece} {n m k : Int} (h : Net ps n) (h' : Net qs m)
    (hk : n + m = k) : Net (ps ++ qs) k where
  straight := by rw [List.all_append, h.straight, h'.straight]; rfl
  effects := by rw [effects_append, h.effects, h'.effects, hk]

/-- A conditional jump takes its operand off. -/
theorem chained_jz {d d' : Int} (target : Nat) (taken : Int) (hd : d = d' + 1) :
    Chained (jump (.jz target) d taken) d d' :=
  ⟨rfl, d', by simp [Item.Falls, hd], rfl⟩

theorem chained_jnz {d d' : Int} (target : Nat) (taken : Int) (hd : d = d' + 1) :
    Chained (jump (.jnz target) d taken) d d' :=
  ⟨rfl, d', by simp [Item.Falls, hd], rfl⟩

theorem chained_jump (target : Nat) (d taken d' : Int) : Chained (jump (.j target) d taken) d d' :=
  ⟨rfl, d', trivial, rfl⟩

theorem chained_exitJump (c : Nat) (d taken d' : Int) : Chained (exitJump c d taken) d d' :=
  ⟨rfl, d', trivial, rfl⟩

/-! ## The pieces of statements -/

section

open Piece

theorem net_symLoadRef (sym : Symbol) : Net [op (symLoadRef sym)] 1 := by
  cases sym <;> exact ⟨rfl, rfl⟩

theorem net_labelPieces (label : Bool) : Net (labelPieces label) 0 := by
  cases label <;> exact ⟨rfl, rfl⟩

theorem LoopInfo.net_ifIx (li : LoopInfo) {i : Instr} (hi : (op i).straight) :
    Net (li.ifIx i) (effect i * li.ixSlots) := by
  unfold LoopInfo.ifIx LoopInfo.ixSlots
  split
  · exact ⟨by simpa using hi, by simp [Piece.effect]⟩
  · exact ⟨rfl, by simp⟩

/-- A store takes one slot off, if it pops. -/
theorem net_symStore (sym : Symbol) (pop : Bool) :
    Net (symStore sym pop) (if pop then -1 else 0) := by
  have hassign : Net [op .assignToLoc] (-2) := ⟨rfl, rfl⟩
  have hstore := (net_symLoadRef sym).append hassign rfl
  have hdup : Net [op .dupTop] 1 := ⟨rfl, rfl⟩
  cases pop with
  | false => exact hdup.append hstore rfl
  | true => exact hstore

theorem net_symStore_map (sym : Option Symbol) (pop : Bool) :
    Net ((sym.map (symStore · pop)).getD []) (if pop && sym.isSome then -1 else 0) := by
  cases sym with
  | none => cases pop <;> exact ⟨rfl, rfl⟩
  | some sym => cases pop <;> exact net_symStore sym _

/-- The increment of `$i` leaves the depth as it is. -/
theorem net_indexVarIncrement (li : LoopInfo) : Net (indexVarIncrement li) 0 := by
  unfold indexVarIncrement
  split
  · have hstore := (net_symStore_map li.loopIx false).append (net_symStore_map li.namedLoopIx false)
      rfl
    exact hstore.append ⟨rfl, rfl⟩ (by simp [Piece.effect, effect])
  · exact ⟨rfl, rfl⟩

theorem net_lenVarInit (li : LoopInfo) : Net (lenVarInit li) 0 := by
  unfold lenVarInit
  split
  · exact net_symStore _ _
  · exact net_symStore _ _
  · exact ⟨rfl, rfl⟩

/-- So does the store to `$last`. -/
theorem net_calcLast (li : LoopInfo) : Net (calcLast li) 0 := by
  have habs : Net [op .dupTop, op .abs] 1 := ⟨rfl, rfl⟩
  unfold calcLast
  split
  · exact ⟨rfl, rfl⟩
  · exact habs.append (net_symStore _ true) rfl
  · exact habs.append (net_symStore _ true) rfl
  · have hdup : Net [op .dupTop, op .abs, op .dupTop] 2 := ⟨rfl, rfl⟩
    exact (hdup.append (net_symStore _ true) rfl).append (net_symStore _ true) rfl

theorem net_whileHead (li : LoopInfo) (test : ExprCode) : Net (whileHead li test) 1 :=
  (net_labelPieces li.label).append ⟨rfl, rfl⟩ rfl

/-- A ranged loop starts with its two bounds and the index, and `$i` behind them. -/
theorem net_rangeInit (li : LoopInfo) (lo hi : ExprCode) :
    Net (rangeInit li lo hi) (3 + li.ixSlots) := by
  have hvalues : Net [expr lo, expr hi, op .swap, op .subNoPop] 3 := ⟨rfl, rfl⟩
  have hsign : Net [op .getSign] 0 := ⟨rfl, rfl⟩
  have hix := li.net_ifIx (i := .pushImm 0) rfl
  exact ((((net_labelPieces li.label).append hvalues rfl).append (net_calcLast li) rfl).append
    hsign rfl).append hix (by simp [effect])

/-- The head takes the slot of `$i` off. -/
theorem net_rangeHead (li : LoopInfo) : Net (rangeHead li) (-li.ixSlots) := by
  have hix := li.net_ifIx (i := .popTo .r3) rfl
  exact ((net_indexVarIncrement li).append hix rfl).append ⟨rfl, rfl⟩ (by simp [Piece.effect, effect])

/-- A turn leaves its test, and `$i` again. -/
theorem net_rangeStep (li : LoopInfo) (lvar : Symbol) : Net (rangeStep li lvar) (1 + li.ixSlots) := by
  have hadd : Net [op (.pushFrom .r1), op (.arith .add), op (.pushFrom .r1)] 1 := ⟨rfl, rfl⟩
  have hix := li.net_ifIx (i := .pushFrom .r3) rfl
  exact ((net_symStore lvar false).append hadd rfl).append hix (by simp [effect])

/-- A container loop starts with four slots: the view, its length, the index and the container. -/
theorem net_containerInit (li : LoopInfo) (container : ExprCode) :
    Net (containerInit li container) 4 := by
  have hview : Net [expr container, op (.tcall .view none)] 2 := ⟨rfl, rfl⟩
  have hitems : Net [op (.popTo .r2), op .unsteal, op (.shlI 1), op (.pushImm 0),
    op (.pushFrom .r2)] 2 := ⟨rfl, rfl⟩
  exact (((net_labelPieces li.label).append hview rfl).append (net_lenVarInit li) rfl).append
    hitems rfl

theorem net_iterationCount (li : LoopInfo) : Net (iterationCount li) 0 := by
  unfold iterationCount
  split
  · exact net_indexVarIncrement li
  · exact ⟨rfl, rfl⟩

/-- A turn of a container loop is neutral. -/
theorem net_containerStep (li : LoopInfo) (lvar1 : Symbol) (lvar2 : Option Symbol) :
    Net (containerStep li lvar1 lvar2) 0 := by
  have hload : Net [op (.popTo .r1), op (.loadFromView lvar2.isSome)]
      (if lvar2.isSome then 1 else 0) := by
    cases lvar2 <;> exact ⟨rfl, rfl⟩
  have hpush : Net [op (.pushFrom .r1), op (.pushFrom .r2)] 2 := ⟨rfl, rfl⟩
  have hpop : Net [op (.popTo .r2)] (-1) := ⟨rfl, rfl⟩
  refine (((((hpop.append (net_iterationCount li) rfl).append hload rfl).append
    (net_symStore lvar1 true) rfl).append (net_symStore_map lvar2 true) rfl).append hpush ?_)
  cases lvar2 <;> rfl

/-- A condition leaves its test. -/
theorem Condition.net_pieces (t : Builtin) (c : Condition) : Net (c.pieces t) 1 := by
  cases c with
  | value e =>
    have htest : Net [op (equalityTest t)] (-1) := by
      unfold equalityTest
      cases t.byValue <;> exact ⟨rfl, rfl⟩
    have hvalue : Net [op .dupTop, expr e] 2 := ⟨rfl, rfl⟩
    exact hvalue.append htest rfl
  | range lo hi => exact ⟨rfl, rfl⟩
  | type constant => exact ⟨rfl, rfl⟩

theorem net_upperTest : Net upperTest 1 := ⟨rfl, rfl⟩

/-- The operator of an assignment takes one of two operands off, where there is one for the type. -/
theorem net_binopAssignGen (o : Operator) (t : Builtin) :
    Net ((binopAssignGen o t).map op) (if binopAssignGen o t = [] then 0 else -1) := by
  have hint : ∀ sign, Net [op (genIntBinaryOp o sign)] (-1) := by
    intro sign
    cases o <;> exact ⟨rfl, rfl⟩
  unfold binopAssignGen
  split
  · split
    · exact hint _
    · split
      · exact hint _
      · split
        · cases o <;> exact ⟨rfl, rfl⟩
        · cases o <;> exact ⟨rfl, rfl⟩
  · exact ⟨rfl, rfl⟩

theorem net_tupleRefs (syms : List Symbol) :
    Net (syms.map fun sym => op (symLoadRef sym)) syms.length := by
  induction syms with
  | nil => exact ⟨rfl, rfl⟩
  | cons sym syms ih =>
    refine (net_symLoadRef sym).append ih ?_
    rw [List.length_cons]
    omega

/-- **An assignment** leaks just what `Assign.leak` says. -/
theorem Assign.net_pieces (a : Assign) : Net a.pieces a.leak := by
  cases a with
  | memSlot sym value =>
    have hvalue : Net [expr value, op .swap, op .assignToLoc] (-1) := ⟨rfl, rfl⟩
    exact (net_symLoadRef sym).append hvalue rfl
  | tuple syms value =>
    have hvalue : Net [expr value, op (.popTo .r1), op (.unpack syms.length)] (-syms.length) :=
      ⟨rfl, by simp [Piece.effect, effect]⟩
    exact (net_tupleRefs syms).append hvalue (by simp [leak])
  | viaIndexSetCall container ix value t => exact ⟨rfl, rfl⟩
  | viaSliceSetCall container lo hi value t => exact ⟨rfl, rfl⟩
  | viaLenThenSliceSetCall container lo value t => exact ⟨rfl, rfl⟩
  | toAttribute name value lock => exact ⟨rfl, rfl⟩
  | symDecl sym value =>
    have hvalue : Net [expr value] 1 := ⟨rfl, rfl⟩
    have hassign : Net [op .assignToLoc] (-2) := ⟨rfl, rfl⟩
    exact (hvalue.append (net_symLoadRef sym) rfl).append hassign rfl
  | binary o t sym value =>
    have hload : Net [op .dupTop, op .deref, expr value] 2 := ⟨rfl, rfl⟩
    have hassign : Net [op .swap, op .assignToLoc] (-2) := ⟨rfl, rfl⟩
    refine (((net_symLoadRef sym).append hload rfl).append (net_binopAssignGen o t) rfl).append
      hassign ?_
    rw [leak]
    split <;> rfl
  | binaryIndex o t container ix value =>
    have hload : Net [expr container, expr ix, op (.popTo .r1), op (.popTo .r2),
        op (.pushFrom .r2), op (.pushFrom .r1), op (.pushFrom .r2), op (.pushFrom .r1),
        op (.tcall .indexGet (some t)), expr value] 4 := ⟨rfl, rfl⟩
    have hset : Net [op (.tcall .indexSet (some t))] (-3) := ⟨rfl, rfl⟩
    refine (hload.append (net_binopAssignGen o t) rfl).append hset ?_
    rw [leak]
    split <;> rfl

theorem Assign.pieces_ne_nil (a : Assign) : a.pieces ≠ [] := by
  cases a <;> simp [pieces]

end

/-! ## Statements chain -/

theorem net_expr (e : ExprCode) : Net [.expr e] 1 := ⟨rfl, rfl⟩

/-- A condition is a chain that ends with its test on the stack. -/
theorem Condition.chained (t : Builtin) (dv : Int) (base : Nat) (c : Condition) :
    Chained (c.layout t dv base) dv (dv + 1) := by
  cases c with
  | value e | type constant => exact (net_pieces t _).line rfl
  | range lo hi =>
    exact (((net_pieces t _).line rfl).append (chained_jz _ 0 rfl)).append (net_upperTest.line rfl)

/-- All conditions of a case are a chain: each test is taken off again. -/
theorem chained_layoutConditions (t : Builtin) (body : Nat) (d dv : Int) (cs : List Condition)
    (base : Nat) : Chained (layoutConditions t body d dv cs base) dv dv := by
  induction cs generalizing base with
  | nil => rfl
  | cons c cs ih =>
    exact ((c.chained t dv base).append (chained_jnz body (dv + 1 - d) rfl)).append (ih _)

/-- An arm of a conditional is a chain if its body is. -/
theorem chained_layoutArm {body : Layout} {d : Int} (test : ExprCode) (next exit : Nat)
    (hbody : Chained body d d) : Chained (layoutArm test body d next exit) d d :=
  ((((net_expr test).line rfl).append (chained_jz next 1 rfl)).append hbody).append
    (chained_jump exit d 0 d)

mutual

/-- **Every statement is a chain** back to its own depth, by induction on the statement. -/
theorem Stmt.chained (env : Enclosing) (base : Nat) (d : Int) :
    ∀ s : Stmt, Chained (s.layout env base d) d d
  | .skip => rfl
  | .seq first rest => (first.chained env base d).append (rest.chained env _ d)
  | .expression e => (net_expr e).chained (fun h => by cases h) rfl
  | .assign a => a.net_pieces.chained (fun h => absurd h a.pieces_ne_nil) rfl
  | .cond test body rest =>
    (chained_layoutArm test _ _ (body.chained env _ d)).append (rest.chained env _ d)
  | .while li test body => by
    have hinit : Chained (line 0 d (li.ifIx (.pushImm 0))) d (d + li.ixSlots) :=
      (li.net_ifIx rfl).line (by simp [effect])
    have hpop : Chained (line 0 (d + li.ixSlots) (li.ifIx .pop)) (d + li.ixSlots) d :=
      (li.net_ifIx rfl).line (by simp [effect])
    rw [Stmt.layout]
    exact (((((hinit.append ((net_whileHead li test).line rfl)).append
      (chained_jz _ 1 rfl)).append ((body.chained _ _ _).bind _ _)).append
      ((net_indexVarIncrement li).line (add_zero _))).append (chained_jump _ _ _ _)).append hpop
  | .forRange li lvar lo hi body => by
    have hinit := (net_rangeInit li lo hi).line (add_assoc d 3 li.ixSlots).symm
    have hhead : Chained (line 0 (d + 3 + li.ixSlots) (rangeHead li)) (d + 3 + li.ixSlots) (d + 3) :=
      (net_rangeHead li).line (by omega)
    have hstep : Chained (line 0 (d + 2) (rangeStep li lvar)) (d + 2) (d + 3 + li.ixSlots) :=
      (net_rangeStep li lvar).line (by omega)
    have hmove : Net [.op (.moveSp (-3))] (-3) := ⟨rfl, rfl⟩
    have hpop : Chained (line 0 (d + 3) [.op (.moveSp (-3))]) (d + 3) d :=
      hmove.line (by omega)
    rw [Stmt.layout]
    exact (((((hinit.append hhead).append (chained_jnz _ 0 (by omega))).append hstep).append
      ((body.chained _ _ _).bind _ _)).append (chained_jump _ _ _ _)).append hpop
  | .forIn li lvar1 lvar2 container body => by
    have hinit := (net_containerInit li container).line (rfl : d + 4 = d + 4)
    have hgte : Net [.op .gteNoPop] 1 := ⟨rfl, rfl⟩
    have htest : Chained (line 0 (d + 4) [.op .gteNoPop]) (d + 4) (d + 5) := hgte.line (by omega)
    have hstep := (net_containerStep li lvar1 lvar2).line (add_zero (d + 4))
    have hmove : Net [.op (.moveSp (-5))] (-5) := ⟨rfl, rfl⟩
    have hpop : Chained (line 0 (d + 5) [.op (.moveSp (-5))]) (d + 5) d :=
      hmove.line (by omega)
    rw [Stmt.layout]
    exact (((((hinit.append htest).append (chained_jnz _ 0 (by omega))).append hstep).append
      ((body.chained _ _ _).bind _ _)).append (chained_jump _ _ _ _)).append hpop
  | .switch branchInfo label value t cases => by
    have hvalue : Chained (line (if cases.hasElse then 0 else 1) d [.expr value]) d
        (if cases.hasElse then d + 1 else d) :=
      (net_expr value).chained (fun h => by cases h) (by split <;> omega)
    rw [Stmt.layout]
    refine (((net_labelPieces label).line (add_zero d)).append hvalue).append
      ((cases.chained _ _ _ _ _ _ _ ?_).bind _ _)
    rw [Bool.true_and]
    split <;> omega
  | .typeof branchInfo label sym cases => by
    have hload : Net [.op (symLoad sym), .op .pushObjType] 1 := by
      cases sym <;> exact ⟨rfl, rfl⟩
    have hvalue : Chained (line 1 d [.op (symLoad sym), .op .pushObjType]) d d :=
      hload.chained (fun h => by cases h) rfl
    rw [Stmt.layout]
    exact (((net_labelPieces label).line (add_zero d)).append hvalue).append
      ((cases.chained _ _ _ _ _ _ _ (by simp)).bind _ _)
  | .break c => chained_exitJump _ _ _ _
  | .continue c => chained_jump _ _ _ _

/-- So are the branches of a conditional. -/
theorem Chain.chained (env : Enclosing) (base : Nat) (d : Int) :
    ∀ s : Chain, Chained (s.layout env base d) d d
  | .none => rfl
  | .else body => body.chained env base d
  | .elif test body rest =>
    (chained_layoutArm test _ _ (body.chained env _ d)).append (rest.chained env _ d)

/-- The cases of a switch, with the value that is tested above them if there is an `else`. -/
theorem Cases.chained (env : Enclosing) (c : Nat) (t : Builtin) (popForElse : Bool) (base : Nat)
    (d dv : Int) : ∀ s : Cases, dv = d + (if popForElse && s.hasElse then 1 else 0) →
      Chained (s.layout env c t popForElse base d dv) dv d
  | .none, hdv => by simpa [Cases.hasElse, Cases.layout, Chained] using hdv
  | .else body, hdv => by
    have hpop : Chained (line 0 dv (if popForElse then [.op .pop] else [])) dv d := by
      cases popForElse with
      | false =>
        obtain rfl : dv = d := by simpa using hdv
        rfl
      | true =>
        obtain rfl : dv = d + 1 := by simpa [Cases.hasElse] using hdv
        have hpop : Net [.op .pop] (-1) := ⟨rfl, rfl⟩
        exact hpop.line (by omega)
    exact hpop.append (body.chained env _ d)
  | .case conditions body rest, hdv => by
    exact ((((chained_layoutConditions t _ d dv conditions base).append
      (chained_jump _ _ _ _)).append (body.chained env _ d)).append
      (chained_exitJump _ _ _ _)).append (rest.chained env c t popForElse _ d dv hdv)

end

/-! ## Places -/

/-- An item of depth `d` stands at `p`, or `p` is the end and `d` the depth there. -/
def At : Layout → (base : Nat) → (dend : Int) → (p : Nat) → (d : Int) → Prop
  | [], base, dend, p, d => p = base ∧ d = dend
  | it :: l, base, dend, p, d => (p = base ∧ d = it.depth) ∨ At l (base + it.what.size) dend p d

/-- Every item emits an instruction. -/
theorem What.size_pos (w : What) : 0 < w.size := by
  cases w with
  | op i => exact Nat.one_pos
  | expr e => exact e.size_pos
  | exit c => exact Nat.one_pos

namespace At

variable {l l' : Layout} {base p : Nat} {d d' dend : Int}

theorem ge (h : At l base dend p d) : base ≤ p := by
  induction l generalizing base with
  | nil => exact h.1.ge
  | cons it l ih =>
    rcases h with h | h
    · exact h.1.ge
    · exact (Nat.le_add_right _ _).trans (ih h)

/-- A place of the code has one depth. -/
theorem unique (h : At l base dend p d) (h' : At l base dend p d') : d = d' := by
  induction l generalizing base with
  | nil => rw [h.2, h'.2]
  | cons it l ih =>
    have hpos := it.what.size_pos
    rcases h with ⟨hp, hd⟩ | h
    · rcases h' with ⟨-, hd'⟩ | h'
      · rw [hd, hd']
      · have := h'.ge
        omega
    · rcases h' with ⟨hp', -⟩ | h'
      · have := h.ge
        omega
      · exact ih h h'

/-- Behind a layout the depth is the one that it ends with. -/
theorem atEnd (l : Layout) (base : Nat) (dend : Int) : At l base dend (base + l.size) dend := by
  induction l generalizing base with
  | nil => exact ⟨rfl, rfl⟩
  | cons it l ih =>
    rw [Layout.size_cons, ← Nat.add_assoc]
    exact .inr (ih _)

theorem right (l : Layout) (h : At l' (base + l.size) dend p d) : At (l ++ l') base dend p d := by
  induction l generalizing base with
  | nil => exact h
  | cons it l ih =>
    rw [Layout.size_cons, ← Nat.add_assoc] at h
    exact .inr (ih h)

theorem of_bind {c target : Nat} (h : At l base dend p d) : At (l.bind c target) base dend p d := by
  induction l generalizing base with
  | nil => exact h
  | cons it l ih =>
    rcases h with ⟨hp, hd⟩ | h
    · exact .inl ⟨hp, hd.trans (Layout.depth_bindItem c target it).symm⟩
    · refine .inr ?_
      rw [Layout.size_bindItem]
      exact ih h

end At

/-- In front of a chain the depth is the one that it starts with. -/
theorem Chained.at_start {l : Layout} {d dend : Int} (h : Chained l d dend) (base : Nat) :
    At l base dend base d := by
  cases l with
  | nil => exact ⟨rfl, h⟩
  | cons it l => exact .inl ⟨rfl, h.1.symm⟩

theorem At.left {l l' : Layout} {base p : Nat} {d d' dend : Int} (h : At l base d' p d)
    (h' : Chained l' d' dend) : At (l ++ l') base dend p d := by
  induction l generalizing base with
  | nil =>
    obtain ⟨rfl, rfl⟩ := h
    exact h'.at_start p
  | cons it l ih =>
    rcases h with h | h
    · exact .inl h
    · exact .inr (ih h)

/-- A relation between places and depths has those of the layout. -/
def Covers (tgt : Nat → Int → Prop) (l : Layout) (base : Nat) (dend : Int) : Prop :=
  ∀ p d, At l base dend p d → tgt p d

namespace Covers

variable {tgt : Nat → Int → Prop} {l l' : Layout} {base : Nat} {d dend : Int}

theorem left (h : Covers tgt (l ++ l') base dend) (h' : Chained l' d dend) : Covers tgt l base d :=
  fun p d hat => h p d (hat.left h')

theorem right (h : Covers tgt (l ++ l') base dend) : Covers tgt l' (base + l.size) dend :=
  fun p d hat => h p d (hat.right l)

theorem start (h : Covers tgt l base dend) (h' : Chained l d dend) : tgt base d :=
  h base d (h'.at_start base)

theorem finish (h : Covers tgt l base dend) : tgt (base + l.size) dend := h _ _ (At.atEnd l base dend)

theorem of_bind {c target : Nat} (h : Covers tgt (l.bind c target) base dend) :
    Covers tgt l base dend :=
  fun p d hat => h p d hat.of_bind

end Covers

/-! ## Where jumps land -/

/-- A jump finds its target at the depth it leaves behind. -/
def Item.Lands (exitDepth : Nat → Int) (tgt : Nat → Int → Prop) (it : Item) : Prop :=
  match it.what with
  | .op (.jz target) | .op (.jnz target) | .op (.j target) => tgt target (it.depth - it.taken)
  | .exit c => it.depth - it.taken = exitDepth c
  | _ => True

def Layout.Lands (exitDepth : Nat → Int) (tgt : Nat → Int → Prop) (l : Layout) : Prop :=
  ∀ it ∈ l, it.Lands exitDepth tgt

section

variable {exitDepth : Nat → Int} {tgt : Nat → Int → Prop}

/-- The jumps of two layouts land where those of each do. -/
theorem Layout.Lands.append {l l' : Layout} (h : l.Lands exitDepth tgt)
    (h' : l'.Lands exitDepth tgt) : Layout.Lands exitDepth tgt (l ++ l') := by
  intro it hit
  rcases List.mem_append.mp hit with hit | hit
  · exact h it hit
  · exact h' it hit

/-- A layout lands once its exit is bound, if the exit is a target at its depth. -/
theorem Layout.Lands.bind {l : Layout} {c target : Nat} {xd : Int}
    (h : l.Lands (Function.update exitDepth c xd) tgt) (htgt : tgt target xd) :
    Layout.Lands exitDepth tgt (l.bind c target) := by
  intro it hit
  obtain ⟨⟨w, d, fall, taken⟩, hit', rfl⟩ := List.mem_map.mp hit
  have hlands := h _ hit'
  cases w with
  | op i => cases i <;> exact hlands
  | expr e => trivial
  | exit c' =>
    simp only [Item.Lands] at hlands
    by_cases hc : c' = c
    · subst hc
      rw [Function.update_self] at hlands
      simp only [Layout.bindItem, if_true, Item.Lands]
      rwa [hlands]
    · rw [Function.update_of_ne hc] at hlands
      simp only [Layout.bindItem, if_neg hc, Item.Lands]
      exact hlands

/-- A line of straight pieces has no jumps that could land wrong. -/
theorem Net.lands {ps : List Piece} {n : Int} (h : Net ps n) (leak d : Int) :
    Layout.Lands exitDepth tgt (Codegen.line leak d ps) := by
  have hall := h.straight
  clear h
  have hitem : ∀ (p : Piece) (d leak : Int), p.straight →
      Item.Lands exitDepth tgt ⟨p.what, d, leak, 0⟩ := by
    intro p d leak hp
    cases p with
    | expr e => trivial
    | op i => cases i <;> trivial
  induction ps generalizing d with
  | nil => exact fun _ hit => absurd hit List.not_mem_nil
  | cons p ps ih =>
    rw [List.all_cons, Bool.and_eq_true] at hall
    cases ps with
    | nil =>
      intro it hit
      rw [List.mem_singleton.mp hit]
      exact hitem p d leak hall.1
    | cons q ps =>
      intro it hit
      rcases List.mem_cons.mp hit with rfl | hit
      · exact hitem p d 0 hall.1
      · exact ih (d + p.effect) hall.2 it hit

/-- A jump lands if its target is one at the depth behind it. -/
theorem lands_jump {i : Instr} {target : Nat} {d d' taken : Int} (hi : i = .jz target ∨ i = .jnz target ∨ i = .j target)
    (htgt : tgt target d') (hd : d - taken = d') : Layout.Lands exitDepth tgt (jump i d taken) := by
  intro it hit
  rw [List.mem_singleton.mp hit]
  rw [← hd] at htgt
  rcases hi with rfl | rfl | rfl
  · exact htgt
  · exact htgt
  · exact htgt

/-- A jump to an exit lands if it is taken at the depth of the exit. -/
theorem lands_exitJump {c : Nat} {d taken : Int} (h : d - taken = exitDepth c) :
    Layout.Lands exitDepth tgt (exitJump c d taken) := by
  intro it hit
  rw [List.mem_singleton.mp hit]
  exact h

end

/-! ## Entry points -/

/-- The entry point of a loop, with the slots on the stack there. -/
structure Entry where
  record : Nat
  ip : Nat
  depth : Int

mutual

/-- The loops of a statement that starts at `base` with `d` slots on the stack. -/
def Stmt.entries (base : Nat) (d : Int) : Stmt → List Entry
  | .skip | .expression _ | .assign _ | .break _ | .continue _ => []
  | .seq first rest => first.entries base d ++ rest.entries (base + first.size) d
  | .cond test body rest =>
    body.entries (base + test.size + 1) d ++
      rest.entries (base + test.size + 1 + body.size + 1) d
  | .while li test body =>
    let entry := base + sizeOf (li.ifIx (.pushImm 0))
    let inner := d + li.ixSlots
    ⟨li.branchInfo, entry, inner⟩ :: body.entries (entry + sizeOf (whileHead li test) + 1) inner
  | .forRange li lvar lo hi body =>
    let entry := base + sizeOf (rangeInit li lo hi)
    let inner := d + 3 + li.ixSlots
    ⟨li.branchInfo, entry, inner⟩ ::
      body.entries (entry + sizeOf (rangeHead li) + 1 + sizeOf (rangeStep li lvar)) inner
  | .forIn li lvar1 lvar2 container body =>
    let entry := base + sizeOf (containerInit li container)
    ⟨li.branchInfo, entry, d + 4⟩ ::
      body.entries (entry + 1 + 1 + sizeOf (containerStep li lvar1 lvar2)) (d + 4)
  | .switch _ label value t cases =>
    cases.entries t true (base + sizeOf (labelPieces label) + value.size) d
  | .typeof _ label _ cases =>
    cases.entries .typespec false (base + sizeOf (labelPieces label) + 2) d

def Chain.entries (base : Nat) (d : Int) : Chain → List Entry
  | .none => []
  | .else body => body.entries base d
  | .elif test body rest =>
    body.entries (base + test.size + 1) d ++
      rest.entries (base + test.size + 1 + body.size + 1) d

def Cases.entries (t : Builtin) (popForElse : Bool) (base : Nat) (d : Int) : Cases → List Entry
  | .none => []
  | .else body => body.entries (base + (if popForElse then 1 else 0)) d
  | .case conditions body rest =>
    let start := base + conditionsSize t conditions + 1
    body.entries start d ++ rest.entries t popForElse (start + body.size + 1) d

end

/-- The depths fit: jumps land at the depth they leave behind, and loops are entered at theirs. -/
structure Fits (exitDepth : Nat → Int) (tgt : Nat → Int → Prop) (l : Layout)
    (entries : List Entry) : Prop where
  lands : l.Lands exitDepth tgt
  entries : ∀ e ∈ entries, tgt e.ip e.depth

section

variable {tgt : Nat → Int → Prop} {env : Enclosing} {d : Int}

theorem Fits.append {exitDepth : Nat → Int} {l l' : Layout} {es es' : List Entry}
    (h : Fits exitDepth tgt l es) (h' : Fits exitDepth tgt l' es') :
    Fits exitDepth tgt (l ++ l') (es ++ es') where
  lands := h.lands.append h'.lands
  entries e he := by
    rcases List.mem_append.mp he with he | he
    · exact h.entries e he
    · exact h'.entries e he

/-- Straight pieces enter no statement. -/
theorem Net.fits {ps : List Piece} {n : Int} (h : Net ps n) (exitDepth : Nat → Int)
    (leak d : Int) : Fits exitDepth tgt (Codegen.line leak d ps) [] :=
  ⟨h.lands leak d, fun _ he => absurd he List.not_mem_nil⟩

theorem fits_jump {exitDepth : Nat → Int} {i : Instr} {target : Nat} {d' taken : Int}
    (hi : i = .jz target ∨ i = .jnz target ∨ i = .j target) (htgt : tgt target d')
    (hd : d - taken = d') : Fits exitDepth tgt (jump i d taken) [] :=
  ⟨lands_jump hi htgt hd, fun _ he => absurd he List.not_mem_nil⟩

@[simp] theorem sizeOf_expr (e : ExprCode) : sizeOf [.expr e] = e.size := rfl

variable {es : List Entry}

/-- An arm of a conditional fits if its body does. -/
theorem arm_fits {body : Stmt} {rest : Layout} {exit base : Nat}
    (test : ExprCode)
    (hbody : ∀ base, Covers tgt (body.layout env base d) base d →
      Fits env.exitDepth tgt (body.layout env base d) (body.entries base d))
    (hrest : Chained rest d d) :
    let start := base + test.size + 1
    let next := start + body.size + 1
    (Covers tgt rest next d → Fits env.exitDepth tgt rest es) → exit = next + rest.size →
    Covers tgt (layoutArm test (body.layout env start d) d next exit ++ rest) base d →
    Fits env.exitDepth tgt (layoutArm test (body.layout env start d) d next exit ++ rest)
      (body.entries start d ++ es) := by
  intro start next hfits hexit hcov
  have hright := hcov.right
  have harm := hcov.left hrest
  rw [size_layoutArm, body.size_layout] at hright
  have hnext : base + (test.size + 1 + body.size + 1) = next := by omega
  rw [hnext] at hright
  have hstart := (harm.left (chained_jump exit d 0 d)).right
  rw [Layout.size_append, size_line, size_jump, sizeOf_expr, ← Nat.add_assoc] at hstart
  have hend : tgt exit d := by
    rw [hexit]
    exact hright.finish
  have hjz : Fits env.exitDepth tgt (jump (.jz next) (d + 1) 1) [] :=
    fits_jump (.inl rfl) (hright.start hrest) (by omega)
  have hj : Fits env.exitDepth tgt (jump (.j exit) d 0) [] :=
    fits_jump (.inr (.inr rfl)) hend (by omega)
  have hall := (((((net_expr test).fits env.exitDepth 0 d).append hjz).append
    (hbody start hstart)).append hj).append (hfits hright)
  rwa [List.nil_append, List.nil_append, List.append_nil] at hall

/-- What fits with an open exit fits with the exit bound to a target. -/
theorem Fits.bind {c target : Nat} {xd : Int} {l : Layout}
    (h : Fits (Function.update env.exitDepth c xd) tgt l es) (htgt : tgt target xd) :
    Fits env.exitDepth tgt (l.bind c target) es :=
  ⟨h.lands.bind htgt, h.entries⟩

/-- The parts of a loop fit together, whichever loop it is. -/
theorem loop_fits {body : Layout} {op : JumpOp} {entry start exit : Nat}
    {init head step tail pop : List Piece} {ni nh ns np : Int} (c base : Nat)
    (d inner dj tj xd : Int) (hinit : Net init ni) (hhead : Net head nh) (hstep : Net step ns) (htail : Net tail 0)
    (hpop : Net pop np) (hop : op ≠ .j) (hnh : inner + nh = dj)
    (hns : dj - 1 + ns = inner) (hxd : dj - tj = xd) (hnp : xd + np = d)
    (hentry : entry = base + sizeOf init)
    (hstart : start = entry + sizeOf head + 1 + sizeOf step)
    (hexit : exit = start + body.size + sizeOf tail + 1)
    (hchained : Chained body inner inner)
    (hbody : tgt entry inner → Covers tgt body start inner →
      Fits (Function.update env.exitDepth c xd) tgt body es) :
    let l := line 0 d init ++ line 0 inner head ++ jump (op.instr exit) dj tj ++
      line 0 (dj - 1) step ++ body.bind c exit ++ line 0 inner tail ++
      jump (.j entry) inner 0 ++ line 0 xd pop
    Covers tgt l base d → Fits env.exitDepth tgt l (⟨c, entry, inner⟩ :: es) := by
  intro l hcov
  have hchead : Chained (line 0 inner head) inner dj := hhead.line hnh
  have hcjump : Chained (jump (op.instr exit) dj tj) dj (dj - 1) := by
    cases op with
    | jz => exact chained_jz exit tj (by omega)
    | jnz => exact chained_jnz exit tj (by omega)
    | j => exact absurd rfl hop
  have hcstep : Chained (line 0 (dj - 1) step) (dj - 1) inner := hstep.line hns
  have hctail : Chained (line 0 inner tail) inner inner := htail.line (add_zero _)
  have hcback := chained_jump entry inner 0 xd
  have hcpop : Chained (line 0 xd pop) xd d := hpop.line hnp
  have hcbody := hchained.bind c exit
  -- From the end, one part after the other is taken away.
  have hcov6 := hcov.left hcpop
  have hcov4 := (hcov6.left hcback).left hctail
  have hcov1 := ((hcov4.left hcbody).left hcstep).left hcjump
  have htop : tgt entry inner := by
    have h := hcov1.right.start hchead
    rwa [size_line, ← hentry] at h
  have hout : tgt exit xd := by
    have h := hcov.right.start hcpop
    simp only [Layout.size_append, size_line, size_jump, Layout.size_bind] at h
    have hsum : base + (sizeOf init + sizeOf head + 1 + sizeOf step + body.size + sizeOf tail + 1) =
        exit := by omega
    rwa [hsum] at h
  have hin : Covers tgt body start inner := by
    have h := hcov4.right.of_bind
    simp only [Layout.size_append, size_line, size_jump] at h
    have hsum : base + (sizeOf init + sizeOf head + 1 + sizeOf step) = start := by omega
    rwa [hsum] at h
  have hfit := hbody htop hin
  have hjump : Fits env.exitDepth tgt (jump (op.instr exit) dj tj) [] := by
    refine fits_jump ?_ hout hxd
    cases op with
    | jz => exact .inl rfl
    | jnz => exact .inr (.inl rfl)
    | j => exact .inr (.inr rfl)
  have hback : Fits env.exitDepth tgt (jump (.j entry) inner 0) [] :=
    fits_jump (.inr (.inr rfl)) htop (by omega)
  have hall := (((((((hinit.fits env.exitDepth 0 d).append (hhead.fits _ 0 inner)).append
    hjump).append (hstep.fits _ 0 (dj - 1))).append (hfit.bind hout)).append
    (htail.fits _ 0 inner)).append hback).append (hpop.fits _ 0 xd)
  refine ⟨hall.lands, ?_⟩
  intro e he
  rcases List.mem_cons.mp he with rfl | he
  · exact htop
  · exact hfit.entries e he

/-- A switch fits if its cases do. -/
theorem switch_fits {cases : Layout} {label value : List Piece} {nv : Int}
    {exit : Nat} {leak : Int} (c base : Nat) (d : Int) (hlabel : Net label 0)
    (hvalue : Net value nv) (hexit : exit = base + sizeOf label + sizeOf value + cases.size)
    (hcases : Covers tgt cases (base + sizeOf label + sizeOf value) d →
      Fits (Function.update env.exitDepth c d) tgt cases es)
    (hcov : Covers tgt (line 0 d label ++ line leak d value ++ cases.bind c exit) base d) :
    Fits env.exitDepth tgt (line 0 d label ++ line leak d value ++ cases.bind c exit) es := by
  have hright := hcov.right
  rw [Layout.size_append, size_line, size_line, ← Nat.add_assoc] at hright
  have hend := hright.finish
  rw [Layout.size_bind, ← hexit] at hend
  have hfit := (hcases hright.of_bind).bind hend
  exact ((hlabel.fits env.exitDepth 0 d).append (hvalue.fits _ leak d)).append hfit

/-- Inside of a loop its entry is a target too. -/
theorem Enclosing.entered_bind {loops : List Nat} {c entry : Nat} {inner : Int} (xd : Int)
    (hloops : ∀ c ∈ loops, tgt (env.entry c) (env.entryDepth c)) (htop : tgt entry inner) :
    ∀ c' ∈ c :: loops, tgt ((env.bind c entry inner xd).entry c')
      ((env.bind c entry inner xd).entryDepth c') := by
  intro c' hc'
  by_cases hne : c' = c
  · subst hne
    simpa [bind] using htop
  · simpa [bind, hne] using hloops c' ((List.mem_cons.mp hc').resolve_left hne)

/-- The jumps of a condition land on its test. -/
theorem Condition.lands (t : Builtin) (exitDepth : Nat → Int) (dv : Int) (base : Nat)
    (c : Condition) (htgt : tgt (base + c.size t) (dv + 1)) :
    Layout.Lands exitDepth tgt (c.layout t dv base) := by
  cases c with
  | value e | type constant => exact (net_pieces t _).lands 0 dv
  | range lo hi =>
    refine (((net_pieces t _).lands 0 dv).append ?_).append (net_upperTest.lands 0 dv)
    refine lands_jump (.inl rfl) htgt ?_
    omega

/-- Those of all conditions land on the body. -/
theorem layoutConditions_lands (t : Builtin) (exitDepth : Nat → Int) {body : Nat}
    {dv : Int} (hbody : tgt body d) (cs : List Condition) (base : Nat)
    (hcov : Covers tgt (layoutConditions t body d dv cs base) base dv) :
    Layout.Lands exitDepth tgt (layoutConditions t body d dv cs base) := by
  induction cs generalizing base with
  | nil => exact fun _ hit => absurd hit List.not_mem_nil
  | cons c cs ih =>
    have hjump := chained_jnz body (dv + 1 - d) (rfl : dv + 1 = dv + 1)
    have hrest := chained_layoutConditions t body d dv cs (base + c.size t + 1)
    have hright := hcov.right
    rw [Layout.size_append, c.size_layout, size_jump, ← Nat.add_assoc] at hright
    have hbehind := (hcov.left hrest).right.start hjump
    rw [c.size_layout] at hbehind
    refine ((c.lands t exitDepth dv base hbehind).append ?_).append (ih _ hright)
    exact lands_jump (.inr (.inl rfl)) hbody (by omega)

end

mutual

/-- **Every jump of a statement lands** at a place with the depth that it is taken at. -/
theorem Stmt.fits (tgt : Nat → Int → Prop) (env : Enclosing) (scope loops : List Nat) (base : Nat)
    (d : Int) (hloops : ∀ c ∈ loops, tgt (env.entry c) (env.entryDepth c)) :
    ∀ s : Stmt, s.Scoped scope loops → Covers tgt (s.layout env base d) base d →
      Fits env.exitDepth tgt (s.layout env base d) (s.entries base d)
  | .skip, _, _ => ⟨fun _ h => absurd h List.not_mem_nil, fun _ h => absurd h List.not_mem_nil⟩
  | .seq first rest, hscoped, hcov => by
    have hfirst := first.fits tgt env scope loops base d hloops hscoped.1
      (hcov.left (rest.chained env _ d))
    have hright := hcov.right
    rw [first.size_layout] at hright
    exact hfirst.append (rest.fits tgt env scope loops _ d hloops hscoped.2 hright)
  | .expression e, _, _ => (net_expr e).fits _ 1 d
  | .assign a, _, _ => a.net_pieces.fits _ a.leak d
  | .cond test body rest, hscoped, hcov => by
    refine arm_fits test (fun base => body.fits tgt env scope loops base d hloops hscoped.1)
      (rest.chained env _ d) (rest.fits tgt env scope loops _ d hloops hscoped.2) ?_ hcov
    rw [rest.size_layout]
  | .while li test body, hscoped, hcov => by
    have hpop := li.net_ifIx (i := .pop) rfl
    have hfits := loop_fits li.branchInfo base d (d + li.ixSlots) (d + li.ixSlots + 1) 1
      (d + li.ixSlots) (li.net_ifIx (i := .pushImm 0) rfl) (net_whileHead li test) (⟨rfl, rfl⟩ : Net [] 0)
      (net_indexVarIncrement li) hpop (by decide : JumpOp.jz ≠ .j) rfl (by omega) (by omega)
      (by simp [effect]) rfl rfl rfl (body.chained _ _ _)
      (fun htop => body.fits tgt _ _ _ _ _ (Enclosing.entered_bind _ hloops htop) hscoped)
    simp only [line, List.append_nil, sizeOf_nil, Nat.add_zero, body.size_layout] at hfits
    exact hfits hcov
  | .forRange li lvar lo hi body, hscoped, hcov => by
    have hfits := loop_fits li.branchInfo base d (d + 3 + li.ixSlots) (d + 3) 0 (d + 3)
      (net_rangeInit li lo hi) (net_rangeHead li) (net_rangeStep li lvar) (⟨rfl, rfl⟩ : Net [] 0)
      (⟨rfl, rfl⟩ : Net [.op (.moveSp (-3))] (-3)) (by decide : JumpOp.jnz ≠ .j) (by omega)
      (by omega) (by omega) (by omega) rfl rfl rfl (body.chained _ _ _)
      (fun htop => body.fits tgt _ _ _ _ _ (Enclosing.entered_bind _ hloops htop) hscoped)
    have hstep : d + 3 - 1 = d + 2 := by omega
    simp only [line, List.append_nil, sizeOf_nil, Nat.add_zero, body.size_layout, hstep] at hfits
    exact hfits hcov
  | .forIn li lvar1 lvar2 container body, hscoped, hcov => by
    have hfits := loop_fits li.branchInfo base d (d + 4) (d + 5) 0 (d + 5)
      (net_containerInit li container) (⟨rfl, rfl⟩ : Net [.op .gteNoPop] 1)
      (net_containerStep li lvar1 lvar2) (⟨rfl, rfl⟩ : Net [] 0)
      (⟨rfl, rfl⟩ : Net [.op (.moveSp (-5))] (-5)) (by decide : JumpOp.jnz ≠ .j) (by omega)
      (by omega) (by omega) (by omega) rfl rfl rfl (body.chained _ _ _)
      (fun htop => body.fits tgt _ _ _ _ _ (Enclosing.entered_bind _ hloops htop) hscoped)
    have hstep : d + 5 - 1 = d + 4 := by omega
    simp only [line, List.append_nil, sizeOf_nil, sizeOf_op, Nat.add_zero, body.size_layout,
      hstep] at hfits
    exact hfits hcov
  | .switch branchInfo label value t cases, hscoped, hcov => by
    refine switch_fits branchInfo base d (net_labelPieces label) (net_expr value) ?_ ?_ hcov
    · rw [cases.size_layout]
      rfl
    · refine cases.fits tgt (env.bindExit branchInfo d) _ loops _ _ _ _ _ _ hloops
        (Function.update_self _ _ _) ?_ hscoped
      rw [Bool.true_and]
      split <;> omega
  | .typeof branchInfo label sym cases, hscoped, hcov => by
    have hload : Net [.op (symLoad sym), .op .pushObjType] 1 := by
      cases sym <;> exact ⟨rfl, rfl⟩
    refine switch_fits branchInfo base d (net_labelPieces label) hload ?_ ?_ hcov
    · rw [cases.size_layout]
      rfl
    · exact cases.fits tgt (env.bindExit branchInfo d) _ loops _ _ _ _ _ _ hloops
        (Function.update_self _ _ _) (by simp) hscoped
  | .break c, hscoped, hcov => by
    refine ⟨lands_exitJump ?_, fun _ h => absurd h List.not_mem_nil⟩
    omega
  | .continue c, hscoped, hcov =>
    fits_jump (.inr (.inr rfl)) (hloops c hscoped) (by omega)

theorem Chain.fits (tgt : Nat → Int → Prop) (env : Enclosing) (scope loops : List Nat) (base : Nat)
    (d : Int) (hloops : ∀ c ∈ loops, tgt (env.entry c) (env.entryDepth c)) :
    ∀ s : Chain, s.Scoped scope loops → Covers tgt (s.layout env base d) base d →
      Fits env.exitDepth tgt (s.layout env base d) (s.entries base d)
  | .none, _, _ => ⟨fun _ h => absurd h List.not_mem_nil, fun _ h => absurd h List.not_mem_nil⟩
  | .else body, hscoped, hcov => body.fits tgt env scope loops base d hloops hscoped hcov
  | .elif test body rest, hscoped, hcov => by
    refine arm_fits test (fun base => body.fits tgt env scope loops base d hloops hscoped.1)
      (rest.chained env _ d) (rest.fits tgt env scope loops _ d hloops hscoped.2) ?_ hcov
    rw [rest.size_layout]

theorem Cases.fits (tgt : Nat → Int → Prop) (env : Enclosing) (scope loops : List Nat) (c : Nat)
    (t : Builtin) (popForElse : Bool) (base : Nat) (d dv : Int)
    (hloops : ∀ c ∈ loops, tgt (env.entry c) (env.entryDepth c)) (hc : env.exitDepth c = d) :
    ∀ s : Cases, dv = d + (if popForElse && s.hasElse then 1 else 0) → s.Scoped scope loops →
      Covers tgt (s.layout env c t popForElse base d dv) base d →
      Fits env.exitDepth tgt (s.layout env c t popForElse base d dv)
        (s.entries t popForElse base d)
  | .none, _, _, _ => ⟨fun _ h => absurd h List.not_mem_nil, fun _ h => absurd h List.not_mem_nil⟩
  | .else body, hdv, hscoped, hcov => by
    have hpop : Net (if popForElse then [.op .pop] else []) (if popForElse then -1 else 0) := by
      cases popForElse <;> exact ⟨rfl, rfl⟩
    have hright := hcov.right
    have hsize : sizeOf (if popForElse then [Piece.op .pop] else []) =
        if popForElse then 1 else 0 := by
      cases popForElse <;> rfl
    rw [size_line, hsize] at hright
    exact (hpop.fits _ 0 dv).append (body.fits tgt env scope loops _ d hloops hscoped hright)
  | .case conditions body rest, hdv, hscoped, hcov => by
    have hcrest := rest.chained env c t popForElse
      (base + conditionsSize t conditions + 1 + body.size + 1) d dv hdv
    have hcov3 := hcov.left hcrest
    have hcov2 := hcov3.left (chained_exitJump c d 0 dv)
    have hcov1 := hcov2.left (body.chained env _ d)
    -- The body, behind the conditions and the jump over it.
    have hbody := hcov2.right
    rw [Layout.size_append, size_layoutConditions, size_jump, ← Nat.add_assoc] at hbody
    have hrest := hcov.right
    simp only [Layout.size_append, size_layoutConditions, size_jump, size_exitJump,
      body.size_layout, ← Nat.add_assoc] at hrest
    have hconds := layoutConditions_lands t env.exitDepth (hbody.start (body.chained env _ d))
      conditions base (hcov1.left (chained_jump _ dv 0 d))
    have hjump : Fits env.exitDepth tgt (jump (.j _) dv 0) [] :=
      fits_jump (.inr (.inr rfl)) (hrest.start hcrest) (by omega)
    have hexit : Fits env.exitDepth tgt (exitJump c d 0) [] :=
      ⟨lands_exitJump (by omega), fun _ h => absurd h List.not_mem_nil⟩
    have hall := ((((⟨hconds, fun _ h => absurd h List.not_mem_nil⟩ :
      Fits env.exitDepth tgt _ []).append hjump).append
      (body.fits tgt env scope loops _ d hloops hscoped.1 hbody)).append hexit).append
      (rest.fits tgt env scope loops c t popForElse _ d dv hloops hc hdv hscoped.2 hrest)
    rwa [List.nil_append, List.nil_append, List.append_nil] at hall

end

end N00b.Codegen
