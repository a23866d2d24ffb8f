import N00b.Codegen.Backpatch
import N00b.Codegen.Frame
import N00b.Vm.Operands
import N00b.Lib.Loop

/-!
# The code of loops

What the two kinds of `for` have in common: the variables that their code writes, the code between
the jumps run on the list of operands, and the two regions that a run goes back and forth between,
the loop's own code and its body.
-/

namespace N00b.Codegen

open N00b.Vm N00b.Lib

/-! ## Straight code -/

def piecesCode : List Piece → Nat → List Instr
  | [], _ => []
  | p :: ps, base => p.what.code (fun _ => 0) base ++ piecesCode ps (base + p.what.size)

@[simp] theorem piecesCode_nil (base : Nat) : piecesCode [] base = [] := rfl

@[simp] theorem piecesCode_op (i : Instr) (ps : List Piece) (base : Nat) :
    piecesCode (.op i :: ps) base = i :: piecesCode ps (base + 1) := rfl

/-- The code of pieces is that of one list behind the other. -/
theorem piecesCode_append (ps qs : List Piece) (base : Nat) :
    piecesCode (ps ++ qs) base = piecesCode ps base ++ piecesCode qs (base + sizeOf ps) := by
  induction ps generalizing base with
  | nil => rfl
  | cons p ps ih =>
    simp only [List.cons_append, piecesCode, ih, List.append_assoc, sizeOf, List.map_cons,
      List.sum_cons, Nat.add_assoc]

theorem sizeOf_append (ps qs : List Piece) : sizeOf (ps ++ qs) = sizeOf ps + sizeOf qs := by
  simp [sizeOf]

/-- It is as long as their sizes. -/
theorem length_piecesCode (ps : List Piece) (base : Nat) :
    (piecesCode ps base).length = sizeOf ps := by
  induction ps generalizing base with
  | nil => rfl
  | cons p ps ih => simp [piecesCode, ih, sizeOf, What.length_code]

/-- A line has the code of its pieces. -/
theorem code_line (exitOf : Nat → Nat) (leak d : Int) (ps : List Piece) (base : Nat) :
    (line leak d ps).code exitOf base = piecesCode ps base := by
  have hwhat : ∀ (p : Piece) (base : Nat),
      p.what.code exitOf base = p.what.code (fun _ => 0) base := by
    intro p base
    cases p <;> rfl
  induction ps generalizing base d with
  | nil => rfl
  | cons p ps ih =>
    cases ps with
    | nil => simp [line, Layout.code, piecesCode, hwhat]
    | cons q ps =>
      rw [line, Layout.code, ih, hwhat]
      rfl

/-! ## Variables -/

section

variable {H : Type} (host : Host H) (top fp : Nat)

/-- The reference to the variable that a symbol stands for leads to it. -/
def Refers : Symbol → Prop
  | .const _ => True
  | .stack off => host.locOf (host.refOf (.slot (fp - off))) = .slot (fp - off)
  | .static m off => host.locOf (host.refOf (.static m off)) = .static m off

/-- The variable that a symbol stands for: its reference leads to it, and the operands below the
slot `top` do not touch it. -/
def Placed : Symbol → Prop
  | .const _ => False
  | .stack off => host.locOf (host.refOf (.slot (fp - off))) = .slot (fp - off) ∧ top ≤ fp - off
  | .static m off => host.locOf (host.refOf (.static m off)) = .static m off

/-- Two symbols for different variables. -/
def Apart : Symbol → Symbol → Prop
  | .stack off, .stack off' => fp - off ≠ fp - off'
  | .static m off, .static m' off' => m ≠ m' ∨ off ≠ off'
  | _, _ => True

end

variable {H : Type}

def symValue (sym : Symbol) (st : VmState H) : Word :=
  match sym with
  | .const w => w
  | .stack off => st.stack (st.fp - off)
  | .static m off => st.statics m off

/-- The state with a new value of a variable. -/
def setSym (fp : Nat) (sym : Symbol) (w : Word) (s : ListState H) : ListState H :=
  match sym with
  | .const _ => s
  | .stack off => { s with frame := Function.update s.frame (fp - off) w }
  | .static m off =>
    { s with statics := Function.update s.statics m (Function.update (s.statics m) off w) }

/-- The value of a variable, on the list. -/
def getSym (fp : Nat) (sym : Symbol) (s : ListState H) : Word :=
  match sym with
  | .const w => w
  | .stack off => s.frame (fp - off)
  | .static m off => s.statics m off

section

variable {fp : Nat} {sym sym' : Symbol} {w : Word} {s : ListState H}

@[simp] theorem operands_setSym : (setSym fp sym w s).operands = s.operands := by
  cases sym <;> rfl

@[simp] theorem regs_setSym : (setSym fp sym w s).regs = s.regs := by
  cases sym <;> rfl

@[simp] theorem host_setSym : (setSym fp sym w s).host = s.host := by
  cases sym <;> rfl

theorem setSym_operands (ws : List Word) :
    { setSym fp sym w s with operands := ws } = setSym fp sym w { s with operands := ws } := by
  cases sym <;> rfl

/-- A symbol has the value that was stored to it. -/
theorem getSym_setSym {host : Host H} {top : Nat} (h : Placed host top fp sym) :
    getSym fp sym (setSym fp sym w s) = w := by
  cases sym with
  | const => exact h.elim
  | stack off => exact Function.update_self _ _ _
  | static m off => simp [getSym, setSym]

/-- A store to one symbol leaves those apart from it. -/
theorem getSym_setSym_of_apart (h : Apart fp sym sym') :
    getSym fp sym (setSym fp sym' w s) = getSym fp sym s := by
  cases sym with
  | const => rfl
  | stack off =>
    cases sym' with
    | stack off' => exact Function.update_of_ne h _ _
    | _ => rfl
  | static m off =>
    cases sym' with
    | static m' off' =>
      show Function.update s.statics m' (Function.update (s.statics m') off' w) m off =
        s.statics m off
      by_cases hm : m = m'
      · subst hm
        rw [Function.update_self, Function.update_of_ne (h.resolve_left (absurd rfl))]
      · rw [Function.update_of_ne hm]
    | _ => rfl

theorem getSym_congr {s' : ListState H} (hframe : s.frame = s'.frame)
    (hstatics : s.statics = s'.statics) : getSym fp sym s = getSym fp sym s' := by
  cases sym with
  | const => rfl
  | stack off => exact congrFun hframe _
  | static m off => exact congrFun (congrFun hstatics m) off

/-- What a symbol is loaded from is its value. -/
theorem Shows.symValue_eq {host : Host H} {top : Nat} {st : VmState H} (h : Shows top fp s st)
    (hsym : Placed host top fp sym) : symValue sym st = getSym fp sym s := by
  cases sym with
  | const => rfl
  | stack off =>
    show st.stack (st.fp - off) = s.frame (fp - off)
    rw [h.fp]
    exact h.frame _ hsym.2
  | static m off => exact congrFun (congrFun h.statics m) off

end

/-! ## Runs of straight code on the list -/

section

variable {host : Host H} {top fp : Nat} {s s' : ListState H}

/-- Straight code is run one list behind the other. -/
theorem ListState.run_append {is js : List Instr} (h : s.run host top fp is = some (.ok s')) :
    s.run host top fp (is ++ js) = s'.run host top fp js := by
  induction is generalizing s with
  | nil =>
    cases h
    rfl
  | cons i is ih =>
    rw [ListState.run] at h
    rw [List.cons_append, ListState.run]
    cases hs : s.exec host top fp i with
    | none =>
      rw [hs] at h
      cases h
    | some e =>
      rw [hs] at h
      cases e with
      | ok s'' => exact ih h
      | halt f => cases h

/-- Behind a halt nothing runs. -/
theorem ListState.run_append_halt {is : List Instr} {f : Fault} (js : List Instr)
    (h : s.run host top fp is = some (.halt f)) :
    s.run host top fp (is ++ js) = some (.halt f) := by
  induction is generalizing s with
  | nil => cases h
  | cons i is ih =>
    rw [ListState.run] at h
    rw [List.cons_append, ListState.run]
    cases hs : s.exec host top fp i with
    | none =>
      rw [hs] at h
      cases h
    | some e =>
      rw [hs] at h
      cases e with
      | ok s'' => exact ih h
      | halt f => exact h

variable {ws : List Word} {sym : Symbol}

/-- A store takes the value off and leaves it in the symbol. -/
theorem run_store {w : Word} (base : Nat)
    (hsym : Placed host top fp sym) (hops : s.operands = w :: ws) (hroom : ws.length + 2 ≤ top) :
    s.run host top fp (piecesCode [.op (symLoadRef sym), .op .assignToLoc] base) =
      some (.ok (setSym fp sym w { s with operands := ws })) := by
  have hlt : ws.length + 1 < top := by omega
  cases sym with
  | const => exact hsym.elim
  | stack off =>
    simp [symLoadRef, ListState.run, ListState.exec, ListState.push, hops, hlt, ListState.binary,
      ListState.unary, ListState.store, hsym.1, hsym.2, setSym]
  | static m off =>
    have hloc : host.locOf (host.refOf (.static m off)) = .static m off := hsym
    simp [symLoadRef, ListState.run, ListState.exec, ListState.push, hops, hlt, ListState.binary,
      ListState.unary, ListState.store, hloc, setSym]

theorem run_symStore_pop {w : Word} (base : Nat)
    (hsym : Placed host top fp sym) (hops : s.operands = w :: ws) (hroom : ws.length + 2 ≤ top) :
    s.run host top fp (piecesCode (symStore sym true) base) =
      some (.ok (setSym fp sym w { s with operands := ws })) :=
  run_store base hsym hops hroom

/-- A store that keeps its value leaves the operands. -/
theorem run_symStore_keep {w : Word} (base : Nat)
    (hsym : Placed host top fp sym) (hops : s.operands = w :: ws) (hroom : ws.length + 3 ≤ top) :
    s.run host top fp (piecesCode (symStore sym false) base) = some (.ok (setSym fp sym w s)) := by
  have hlt : ws.length + 1 < top := by omega
  have hdup : s.run host top fp (piecesCode [.op .dupTop] base) =
      some (.ok { s with operands := w :: w :: ws }) := by
    simp [ListState.run, ListState.exec, ListState.unary, ListState.push, hops, hlt]
  have hs : ({ s with operands := w :: ws } : ListState H) = s := by rw [← hops]
  have hstore := run_store (s := { s with operands := w :: w :: ws }) (base + 1) hsym rfl
    (by simpa using hroom)
  refine (ListState.run_append hdup).trans (hstore.trans ?_)
  rw [hs]

end

/-! ## The index variable -/

/-- `$i` and its labelled form, as far as they are used. -/
def LoopInfo.ixSyms (li : LoopInfo) : List Symbol := li.loopIx.toList ++ li.namedLoopIx.toList

/-- `$last` and its labelled form, as far as they are used. -/
def LoopInfo.lastSyms (li : LoopInfo) : List Symbol := li.loopLast.toList ++ li.namedLoopLast.toList

def setSyms (fp : Nat) (syms : List Symbol) (w : Word) (s : ListState H) : ListState H :=
  syms.foldl (fun s sym => setSym fp sym w s) s

section

variable {host : Host H} {top fp : Nat} {s : ListState H} {syms : List Symbol} {w : Word}

@[simp] theorem operands_setSyms : (setSyms fp syms w s).operands = s.operands := by
  induction syms generalizing s with
  | nil => rfl
  | cons sym syms ih => exact ih.trans operands_setSym

@[simp] theorem regs_setSyms : (setSyms fp syms w s).regs = s.regs := by
  induction syms generalizing s with
  | nil => rfl
  | cons sym syms ih => exact ih.trans regs_setSym

@[simp] theorem host_setSyms : (setSyms fp syms w s).host = s.host := by
  induction syms generalizing s with
  | nil => rfl
  | cons sym syms ih => exact ih.trans host_setSym

theorem setSyms_operands (ws : List Word) :
    { setSyms fp syms w s with operands := ws } = setSyms fp syms w { s with operands := ws } := by
  induction syms generalizing s with
  | nil => rfl
  | cons sym syms ih =>
    refine ih.trans ?_
    rw [setSym_operands]
    rfl

theorem getSym_setSym_same {sym sym' : Symbol} (h : getSym fp sym s = w) :
    getSym fp sym (setSym fp sym' w s) = w := by
  cases sym with
  | const => exact h
  | stack off =>
    cases sym' with
    | stack off' =>
      show Function.update s.frame (fp - off') w (fp - off) = w
      by_cases hoff : fp - off = fp - off'
      · rw [hoff, Function.update_self]
      · rw [Function.update_of_ne hoff]
        exact h
    | _ => exact h
  | static m off =>
    cases sym' with
    | static m' off' =>
      show Function.update s.statics m' (Function.update (s.statics m') off' w) m off = w
      by_cases hm : m = m'
      · subst hm
        rw [Function.update_self]
        by_cases hoff : off = off'
        · rw [hoff, Function.update_self]
        · rw [Function.update_of_ne hoff]
          exact h
      · rw [Function.update_of_ne hm]
        exact h
    | _ => exact h

/-- A value that is stored to several symbols is in each. -/
theorem getSym_setSyms {sym : Symbol} (hmem : sym ∈ syms) (h : Placed host top fp sym) :
    getSym fp sym (setSyms fp syms w s) = w := by
  have hkeep : ∀ (syms : List Symbol) (s : ListState H), getSym fp sym s = w →
      getSym fp sym (setSyms fp syms w s) = w := by
    intro syms
    induction syms with
    | nil => exact fun _ h => h
    | cons sym' syms ih => exact fun s h => ih _ (getSym_setSym_same h)
  induction syms generalizing s with
  | nil => cases hmem
  | cons sym' syms ih =>
    rcases List.mem_cons.mp hmem with rfl | hmem
    · exact hkeep syms _ (getSym_setSym h)
    · exact ih hmem

/-- **The stores to the variables of a loop** leave one value in all of them. -/
theorem run_symStores {ws : List Word} (base : Nat)
    (hsyms : ∀ sym ∈ syms, Placed host top fp sym) (hops : s.operands = w :: ws)
    (hroom : ws.length + 3 ≤ top) :
    s.run host top fp (piecesCode (syms.flatMap (symStore · false)) base) =
      some (.ok (setSyms fp syms w s)) := by
  induction syms generalizing s base with
  | nil => rfl
  | cons sym syms ih =>
    have hfirst := run_symStore_keep base (hsyms sym List.mem_cons_self) hops hroom
    rw [List.flatMap_cons, piecesCode_append, ListState.run_append hfirst]
    exact ih _ (fun x hx => hsyms x (List.mem_cons_of_mem _ hx)) (operands_setSym.trans hops)

theorem LoopInfo.genIx_iff (li : LoopInfo) : li.genIx = true ↔ li.ixSyms ≠ [] := by
  cases hix : li.loopIx <;> cases hnamed : li.namedLoopIx <;>
    simp [LoopInfo.genIx, LoopInfo.ixSyms, hix, hnamed]

theorem indexVarIncrement_eq (li : LoopInfo) (h : li.genIx = true) :
    indexVarIncrement li =
      li.ixSyms.flatMap (symStore · false) ++ [.op (.pushImm 1), .op (.arith .add)] := by
  rw [indexVarIncrement, if_pos h, LoopInfo.ixSyms, List.flatMap_append]
  cases li.loopIx <;> cases li.namedLoopIx <;> simp

/-- The increment stores the index to `$i` and adds one to it. -/
theorem run_indexVarIncrement {li : LoopInfo} (h : li.genIx = true) {ws : List Word} (base : Nat)
    (hsyms : ∀ sym ∈ li.ixSyms, Placed host top fp sym) (hops : s.operands = w :: ws)
    (hroom : ws.length + 3 ≤ top) :
    s.run host top fp (piecesCode (indexVarIncrement li) base) =
      some (.ok (setSyms fp li.ixSyms w { s with operands := (w + 1) :: ws })) := by
  have hstores := run_symStores base hsyms hops hroom
  rw [indexVarIncrement_eq li h, piecesCode_append, ListState.run_append hstores]
  have hlen : ws.length + 1 < top := by omega
  have hset : setSyms fp li.ixSyms w { s with operands := (w + 1) :: ws } =
      { setSyms fp li.ixSyms w s with operands := (w + 1) :: ws } := (setSyms_operands _).symm
  rw [hset]
  simp [ListState.run, ListState.exec, ListState.push, hops, hlen, ListState.binary,
    ListState.unary, ListState.result, arithWord]

end

/-! ## Places of the variables -/

/-- The variables that the code of a `for` writes. -/
def LoopInfo.syms (li : LoopInfo) (lvar : Symbol) : List Symbol :=
  lvar :: (li.ixSyms ++ li.lastSyms)

/-- Behind its two operands a loop runs below the reserved slots of its frame and the words of the
loops around it. -/
def LoopSite.Below (site : LoopSite) (u : CodeUnit) (st : VmState H) : Prop :=
  st.sp + 2 + site.words + u.reserved ≤ st.fp

/-- A variable of the loop lies in the slots of its operands. -/
def Overlaps (syms : List Symbol) (st : VmState H) : Prop :=
  ∃ off, Symbol.stack off ∈ syms ∧ st.fp - off < st.sp + 2

/-! ## The loop and its body -/

/-- Where the code of a `for` lies: `base` behind the bounds or the container, the top of the loop,
and the first instruction of the body. -/
structure LoopPlace where
  base : Nat
  entry : Nat
  start : Nat
  bodySize : Nat

namespace LoopPlace

/-- The program counter is in the code of the loop itself. -/
def Own (p : LoopPlace) (st : VmState H) : Prop :=
  InBlock p.base p.start st ∨ st.pc = p.start + p.bodySize + 1

/-- The program counter is in the body or at the jump behind it. -/
def Body (p : LoopPlace) (st : VmState H) : Prop :=
  InBlock p.start (p.start + p.bodySize + 1) st

/-- A pass of a body without `break` that is neutral on the stack: it goes to its end, or back to
the top of the loop, and leaves the slots of the loop alone. `Inv` is what it keeps of the rest. -/
def Passes (p : LoopPlace) (host : Host H) (code : List Instr) (top : Nat) (Inv : H → Prop)
    (t : VmState H) : Prop :=
  ∃ u, Runs host code p.start (p.start + p.bodySize) t (.ok u) ∧
    (u.pc = p.start + p.bodySize ∨ u.pc = p.entry) ∧ u.sp = t.sp ∧ u.fp = t.fp ∧
    (∀ a, t.sp ≤ a → a < top → u.stack a = t.stack a) ∧ (Inv t.host → Inv u.host)

/-- The code in front of the loop, the head up to the test, the step up to the body, and behind the
body the jump to the head and the `pops` slots that go away. -/
structure Lies (p : LoopPlace) (code init head step : List Instr) (pops : Nat) : Prop where
  entry_eq : p.entry = p.base + init.length
  start_eq : p.start = p.entry + head.length + 1 + step.length
  init_block : BlockAt code p.base init
  head_block : BlockAt code p.entry head
  test : code[p.entry + head.length]? = some (.jnz (p.start + p.bodySize + 1))
  step_block : BlockAt code (p.entry + head.length + 1) step
  back : code[p.start + p.bodySize]? = some (.j p.entry)
  cleanup : code[p.start + p.bodySize + 1]? = some (.moveSp (-(pops : Int)))

/-- Code that was generated stands at its place. -/
theorem blockAt_layout {code : List Instr} {stmt : Stmt} {ctx : GenCtx} {env : Enclosing}
    {scope loops : List Nat} (hready : Ready ctx env scope loops stmt.bound)
    (hscoped : stmt.Scoped scope loops)
    (hcode : BlockAt code ctx.counter ((genStmt stmt ctx).instructions.drop ctx.counter)) :
    BlockAt code ctx.counter ((stmt.layout env ctx.counter 0).code ctx.exitOf ctx.counter) := by
  rw [(Stmt.generates env scope loops 0 _ hscoped ctx hready).instructions] at hcode
  simpa [GenCtx.counter] using hcode

/-- The parts of a loop stand one behind the other. -/
theorem lies_of_layout {p : LoopPlace} {pre init head step : List Piece} {body : Layout}
    {exitOf : Nat → Nat} {base exit entry pops : Nat} {arg : Int}
    {l₀ d₀ l₁ d₁ d₂ t₂ l₃ d₃ d₄ t₄ l₅ d₅ : Int} {code : List Instr}
    (hcode : BlockAt code base (Layout.code exitOf (line l₀ d₀ (pre ++ init) ++ line l₁ d₁ head ++
      jump (.jnz exit) d₂ t₂ ++ line l₃ d₃ step ++ body ++ jump (.j entry) d₄ t₄ ++
      line l₅ d₅ [.op (.moveSp arg)]) base))
    (hexit : exit = p.start + p.bodySize + 1) (hback : entry = p.entry) (harg : arg = -(pops : Int))
    (hbase : p.base = base + sizeOf pre) (hentry : p.entry = p.base + sizeOf init)
    (hstart : p.start = p.entry + sizeOf head + 1 + sizeOf step) (hbody : body.size = p.bodySize) :
    p.Lies code (piecesCode init p.base) (piecesCode head p.entry)
      (piecesCode step (p.entry + sizeOf head + 1)) pops := by
  subst hexit hback harg
  simp only [Layout.code_append, code_line, piecesCode_append, Layout.size_append, size_line,
    size_jump, hbody, sizeOf_append, ← hbase] at hcode
  -- The places of the parts, as sums from `base`.
  have hentry' : base + (sizeOf pre + sizeOf init) = p.entry := by omega
  have hstep : base + (sizeOf pre + sizeOf init + sizeOf head + 1) = p.entry + sizeOf head + 1 := by
    omega
  have hclean := hcode.right
  have hback := hcode.left.right
  have hst := hcode.left.left.left.right
  have htest := hcode.left.left.left.left.right
  have hhead := hcode.left.left.left.left.left.right
  have hinit := hcode.left.left.left.left.left.left.right
  simp only [List.length_append, length_piecesCode, Layout.length_code, size_jump, hbody,
    ← hbase, hentry', hstep] at hclean hback hst htest hhead hinit
  refine ⟨?_, ?_, hinit, hhead, ?_, by rwa [length_piecesCode], ?_, ?_⟩
  · rw [length_piecesCode, hentry]
  · rw [length_piecesCode, length_piecesCode, hstart]
  · rw [length_piecesCode]
    refine Eq.trans (congrArg (code[·]?) ?_) htest.head
    omega
  · refine Eq.trans (congrArg (code[·]?) ?_) hback.head
    omega
  · refine Eq.trans (congrArg (code[·]?) ?_) hclean.head
    omega

section

variable {p : LoopPlace} {code init head step : List Instr} {pops : Nat} {host : Host H}
  {top fp : Nat} {s s' : ListState H} {st st' : VmState H}

theorem Lies.entry_lt (hl : p.Lies code init head step pops) : p.entry < p.start := by
  have := hl.start_eq
  omega

theorem Lies.base_le (hl : p.Lies code init head step pops) : p.base ≤ p.entry := by
  have := hl.entry_eq
  omega

variable {ws : List Word}

/-- The test of a loop goes into its body or behind it. -/
theorem Lies.step_test (hl : p.Lies code init head step pops) (host : Host H)
    (hst : Shows top fp s st) (htop : top ≤ stackSize) {w : Word}
    (hops : s.operands = w :: ws) (hpc : st.pc = p.entry + head.length) :
    Vm.step host code st =
      if w ≠ 0 then .ok { st with pc := p.start + p.bodySize + 1 } else .ok (st.drop 1).next := by
  have hw : st.peek 0 = w := hst.peek (by rw [hops]; rfl)
  rw [Vm.step, hpc, hl.test]
  show requireValues 1 st _ = _
  rw [hst.values htop (by rw [hops]; simp), hw]

/-- A machine with the same stack below shows the same operands. -/
theorem shows_kept {t u : VmState H} (h : Shows top fp s t) (hsp : u.sp = t.sp) (hfp : u.fp = t.fp)
    (hstack : ∀ a, t.sp ≤ a → a < top → u.stack a = t.stack a) :
    ∃ s', Shows top fp s' u ∧ s'.operands = s.operands ∧ s'.host = u.host := by
  refine ⟨⟨s.operands, u.stack, u.regs, u.statics, u.host⟩, ⟨?_, ?_, ?_, rfl, rfl, rfl, ?_⟩,
    rfl, rfl⟩
  · rw [hsp]
    exact h.sp_add
  · intro i w hw
    have hi : i < s.operands.length := (List.getElem?_eq_some_iff.mp hw).1
    have := h.sp_add
    rw [hsp, hstack _ (by omega) (by omega)]
    exact h.operand i w hw
  · exact fun _ _ => rfl
  · exact hfp.trans h.fp

/-- An empty body is passed at once. -/
theorem passes_empty {Inv : H → Prop} {t : VmState H} (hempty : p.bodySize = 0) (hin : p.Body t) :
    p.Passes host code top Inv t := by
  have hpc : t.pc = p.start + p.bodySize := by
    have hlo := hin.1
    have hhi := hin.2
    omega
  exact ⟨t, runs_leave hpc, .inl hpc, rfl, rfl, fun _ _ _ => rfl, id⟩

/-- A pass of the body comes back to the entry with the same operands. -/
theorem Lies.pass_run (hl : p.Lies code init head step pops) {Inv : H → Prop} {t : VmState H}
    (hpass : p.Passes host code top Inv t)
    (hst : Shows top fp s t) (hinv : Inv t.host) :
    ∃ u s', RunIn (Vm.step host code) p.Body t (.ok u) ∧ u.pc = p.entry ∧ Shows top fp s' u ∧
      s'.operands = s.operands ∧ Inv s'.host := by
  obtain ⟨u, hrun, hpc, hsp, hfp, hstack, hkeep⟩ := hpass
  obtain ⟨s', hs', hops, hhost⟩ := shows_kept hst hsp hfp hstack
  have hinv' : Inv s'.host := by
    rw [hhost]
    exact hkeep hinv
  have hpart : ∀ v : VmState H, InBlock p.start (p.start + p.bodySize) v → p.Body v :=
    InBlock.mono le_rfl (by omega)
  have hout : ∀ v : VmState H, v.pc = p.entry → ¬ p.Body v := by
    intro v hv hin
    have := hl.entry_lt
    have := hin.1
    omega
  rcases hpc with hpc | hpc
  · refine ⟨{ u with pc := p.entry }, s', hrun.seq hpart ?_, rfl,
      ⟨hs'.sp_add, hs'.operand, hs'.frame, hs'.regs, hs'.statics, hs'.host, hs'.fp⟩, hops, hinv'⟩
    refine .single ⟨by omega, by omega⟩ ?_ (hout _ rfl)
    rw [Vm.step, hpc, hl.back]
    rfl
  · exact ⟨u, s', hrun.seq hpart (.leave (hout u hpc)), hpc, hs', hops, hinv'⟩

/-- From the head of the loop to what comes behind its test. -/
theorem Lies.test_run (hl : p.Lies code init head step pops) {s₁ : ListState H}
    (htop : top ≤ stackSize) (hst : Shows top fp s st) (hpc : st.pc = p.entry)
    (hhead : s.run host top fp head = some (.ok s₁)) (hops : s₁.operands = 0 :: ws) :
    ∃ v : VmState H, v.pc = p.entry + head.length + 1 ∧
      Shows top fp { s₁ with operands := ws } v ∧
      ∀ r, RunIn (Vm.step host code) p.Own v r → RunIn (Vm.step host code) p.Own st r := by
  have hstart := hl.start_eq
  have hbase := hl.base_le
  obtain ⟨v, hv, hvpc, hvs⟩ := hst.run htop (by rw [hpc]; exact hl.head_block) hhead
  rw [hpc] at hv hvpc
  have hdrop := (hvs.drop (n := 1) (by rw [hops]; simp)).next
  rw [hops] at hdrop
  have htest := hl.step_test host hvs htop hops hvpc
  rw [if_neg (by simp)] at htest
  refine ⟨_, congrArg (· + 1) hvpc, hdrop, fun r hr => ?_⟩
  exact hv.seq (fun u hu => .inl ⟨hbase.trans hu.1, hu.2.trans (by omega)⟩)
    (.step (.inl ⟨by omega, by omega⟩) htest hr)

/-- **A turn** runs the step and the body, and comes back to the entry. -/
theorem Lies.turn_run (hl : p.Lies code init head step pops)
    {s₁ s₂ : ListState H} (htop : top ≤ stackSize)
    (hst : Shows top fp s st) (hpc : st.pc = p.entry)
    (hhead : s.run host top fp head = some (.ok s₁)) (hops : s₁.operands = 0 :: ws)
    (hstep : ({ s₁ with operands := ws } : ListState H).run host top fp step = some (.ok s₂)) :
    ∃ t, RunIn (Vm.step host code) p.Own st (.ok t) ∧ p.Body t ∧ t.pc = p.start ∧
      Shows top fp s₂ t := by
  have hstart := hl.start_eq
  have hbase := hl.base_le
  obtain ⟨v, hvpc, hvs, hrun⟩ := hl.test_run htop hst hpc hhead hops
  obtain ⟨t, ht, htpc, hts⟩ := hvs.run htop (by rw [hvpc]; exact hl.step_block) hstep
  rw [hvpc, ← hstart] at ht htpc
  refine ⟨t, hrun _ (ht.seq (fun u hu => .inl ⟨?_, hu.2⟩) (.leave ?_)), ?_, htpc, hts⟩
  · have := hu.1
    omega
  · rintro (hin | hin)
    · have := hin.2
      omega
    · omega
  · exact ⟨htpc.ge, by omega⟩

/-- **The last turn** leaves the loop and takes its operands off. -/
theorem Lies.done_run (hl : p.Lies code init head step pops)
    {s₁ : ListState H} {w : Word} (htop : top ≤ stackSize)
    (hst : Shows top fp s st) (hpc : st.pc = p.entry)
    (hhead : s.run host top fp head = some (.ok s₁)) (hops : s₁.operands = w :: ws) (hw : w ≠ 0)
    (hpops : ws.length + 1 = pops) :
    ∃ st', RunIn (Vm.step host code) p.Own st (.ok st') ∧ ¬ p.Body st' ∧
      st'.pc = p.start + p.bodySize + 2 ∧ st'.sp = top := by
  have hstart := hl.start_eq
  have hbase := hl.base_le
  obtain ⟨v, hv, hvpc, hvs⟩ := hst.run htop (by rw [hpc]; exact hl.head_block) hhead
  rw [hpc] at hv hvpc
  have htest := hl.step_test host hvs htop hops hvpc
  rw [if_pos hw] at htest
  have hsp := hvs.sp_add
  rw [hops, List.length_cons, hpops] at hsp
  let u : VmState H := { v with pc := p.start + p.bodySize + 1 }
  have hclean : Vm.step host code u = .ok (u.drop pops).next := by
    rw [Vm.step, hl.cleanup]
    show execInstr host (.moveSp (-(pops : Int))) u = _
    rw [execInstr, if_neg (by omega), neg_neg, Int.toNat_natCast]
  have hown : ∀ u : VmState H, InBlock p.entry (p.entry + head.length) u → p.Own u :=
    fun u hu => .inl ⟨hbase.trans hu.1, hu.2.trans (by omega)⟩
  have hout : ∀ u : VmState H, u.pc = p.start + p.bodySize + 2 → ¬ p.Own u ∧ ¬ p.Body u := by
    intro u hu
    constructor
    · rintro (hin | hin)
      · have := hin.2
        omega
      · omega
    · intro hin
      have := hin.2
      omega
  refine ⟨(u.drop pops).next, hv.seq hown (.step (.inl ⟨by omega, by omega⟩) htest
    (.single (.inr rfl) hclean (hout _ rfl).1)), (hout _ rfl).2, rfl, hsp⟩

/-- A turn whose step halts is the end of the run. -/
theorem Lies.stuck_run (hl : p.Lies code init head step pops)
    {s₁ : ListState H} {f : Fault} (htop : top ≤ stackSize)
    (hst : Shows top fp s st) (hpc : st.pc = p.entry)
    (hhead : s.run host top fp head = some (.ok s₁)) (hops : s₁.operands = 0 :: ws)
    (hstep : ({ s₁ with operands := ws } : ListState H).run host top fp step = some (.halt f)) :
    RunIn (Vm.step host code) p.Own st (.halt f) := by
  have hstart := hl.start_eq
  have hbase := hl.base_le
  obtain ⟨v, hvpc, hvs, hrun⟩ := hl.test_run htop hst hpc hhead hops
  have ht := hvs.run htop (by rw [hvpc]; exact hl.step_block) hstep
  rw [hvpc] at ht
  refine hrun _ (RunIn.halt_mono (fun u hu => .inl ⟨?_, ?_⟩) ht)
  · have := hu.1
    omega
  · have := hu.2
    omega

theorem Lies.init_halt (hl : p.Lies code init head step pops)
    {f : Fault} (htop : top ≤ stackSize) (hst : Shows top fp s st) (hpc : st.pc = p.base)
    (hinit : s.run host top fp init = some (.halt f)) :
    Rounds (Vm.step host code) p.Own p.Body st [] (.halt f) := by
  have hrun := hst.run htop (by rw [hpc]; exact hl.init_block) hinit
  rw [hpc] at hrun
  refine .halt (RunIn.halt_mono ?_ hrun)
  intro u hu
  have := hl.entry_eq
  have := hl.entry_lt
  have := hu.2
  exact .inl ⟨hu.1, by omega⟩

/-- The slots of the loop are `before k` before turn `k`, and `Post k` holds when the body is
entered in it, for the first `n` turns. -/
def Turns (host : Host H) (head step : List Instr) (top fp n : Nat) (before : Nat → List Word)
    (Inv : H → Prop) (Post : Nat → ListState H → Prop) : Prop :=
  ∀ k (s : ListState H), k < n → s.operands = before k → Inv s.host →
    ∃ s' ws s'', s.run host top fp head = some (.ok s') ∧ s'.operands = 0 :: ws ∧
      ({ s' with operands := ws } : ListState H).run host top fp step = some (.ok s'') ∧
      s''.operands = before (k + 1) ∧ Inv s''.host ∧ Post k s''

section

variable {n : Nat} {before : Nat → List Word} {Inv : H → Prop} {Post : Nat → ListState H → Prop}
  {s₀ s₁ : ListState H}

/-- What the turns of a loop are for the rules about loops: `I k` holds where turn `k` begins, and
`P k` where it enters the body. -/
theorem Lies.turn_rules (hl : p.Lies code init head step pops)
    (htop : top ≤ stackSize) (hst : Shows top fp s₀ st)
    (hpc : st.pc = p.base) (hinit : s₀.run host top fp init = some (.ok s₁))
    (hops : s₁.operands = before 0) (hinv : Inv s₁.host)
    (hturns : Turns host head step top fp n before Inv Post)
    (hpass : ∀ t ts, Entered (Vm.step host code) p.Own p.Body st (t :: ts) →
      p.Passes host code top Inv t) :
    ∃ I P : Nat → VmState H → Prop, I 0 st ∧
      (∀ k u, k < n → I k u → ∃ t, RunIn (Vm.step host code) p.Own u (.ok t) ∧ p.Body t ∧ P k t) ∧
      (∀ k t ts, k < n → ts.length = k →
        Entered (Vm.step host code) p.Own p.Body st (t :: ts) → P k t →
        ∃ u, RunIn (Vm.step host code) p.Body t (.ok u) ∧ I (k + 1) u) ∧
      (∀ u, I n u → ∃ v s, Shows top fp s v ∧ v.pc = p.entry ∧ s.operands = before n ∧
        Inv s.host ∧ ∀ r, RunIn (Vm.step host code) p.Own v r →
          RunIn (Vm.step host code) p.Own u r) ∧
      ∀ k t, P k t → ∃ s, Shows top fp s t ∧ Post k s := by
  -- Before turn `k` the loop's own code leads to its top.
  let I : Nat → VmState H → Prop := fun k u => ∃ v s, Shows top fp s v ∧ v.pc = p.entry ∧
    s.operands = before k ∧ Inv s.host ∧
    ∀ r, RunIn (Vm.step host code) p.Own v r → RunIn (Vm.step host code) p.Own u r
  let P : Nat → VmState H → Prop := fun k t => ∃ s, Shows top fp s t ∧
    s.operands = before (k + 1) ∧ Inv s.host ∧ Post k s
  have hI0 : I 0 st := by
    obtain ⟨v, hv, hvpc, hvs⟩ := hst.run htop (by rw [hpc]; exact hl.init_block) hinit
    rw [hpc] at hv hvpc
    refine ⟨v, s₁, hvs, hvpc.trans hl.entry_eq.symm, hops, hinv, fun r hr => hv.seq ?_ hr⟩
    intro u hu
    have := hl.entry_eq
    have := hl.entry_lt
    have := hu.2
    exact .inl ⟨hu.1, by omega⟩
  have hturn' : ∀ k u, k < n → I k u →
      ∃ t, RunIn (Vm.step host code) p.Own u (.ok t) ∧ p.Body t ∧ P k t := by
    rintro k u hk ⟨v, s, hs, hvpc, hops, hinv, hlead⟩
    obtain ⟨s', ws, s'', hhead, hops', hstep, hops'', hinv', hpost⟩ := hturns k s hk hops hinv
    obtain ⟨t, ht, hin, -, hts⟩ := hl.turn_run htop hs hvpc hhead hops' hstep
    exact ⟨t, hlead _ ht, hin, s'', hts, hops'', hinv', hpost⟩
  have hpass' : ∀ k t ts, k < n → ts.length = k →
      Entered (Vm.step host code) p.Own p.Body st (t :: ts) → P k t →
      ∃ u, RunIn (Vm.step host code) p.Body t (.ok u) ∧ I (k + 1) u := by
    rintro k t ts - - hent ⟨s, hs, hops, hinv, -⟩
    rw [← hs.host] at hinv
    obtain ⟨u, s', hrun, hupc, hus, hops', hinv'⟩ := hl.pass_run (hpass t ts hent) hs hinv
    exact ⟨u, hrun, u, s', hus, hupc, hops'.trans hops, hinv', fun _ h => h⟩
  refine ⟨I, P, hI0, hturn', hpass', fun _ h => h, ?_⟩
  rintro k t ⟨s, hs, -, -, hpost⟩
  exact ⟨s, hs, hpost⟩

/-- **Counting the turns** of a loop: the run goes through all of them and ends behind it. -/
theorem Lies.counts (hl : p.Lies code init head step pops)
    {Q : StepResult H → Prop} (htop : top ≤ stackSize) (hst : Shows top fp s₀ st)
    (hpc : st.pc = p.base) (hinit : s₀.run host top fp init = some (.ok s₁))
    (hops : s₁.operands = before 0) (hinv : Inv s₁.host)
    (hturns : Turns host head step top fp n before Inv Post)
    (hdone : ∀ v s, Shows top fp s v → v.pc = p.entry → s.operands = before n → Inv s.host →
      ∃ r, Rounds (Vm.step host code) p.Own p.Body v [] r ∧ Q r)
    (hpass : ∀ t ts, Entered (Vm.step host code) p.Own p.Body st (t :: ts) →
      p.Passes host code top Inv t) :
    ∃ ts r, Rounds (Vm.step host code) p.Own p.Body st ts r ∧ ts.length = n ∧
      (∀ k t, ts[k]? = some t → ∃ s, Shows top fp s t ∧ Post k s) ∧ Q r := by
  obtain ⟨I, P, hI0, hturn, hpass', hend, hpost⟩ :=
    hl.turn_rules htop hst hpc hinit hops hinv hturns hpass
  have hdone' : ∀ u, I n u → ∃ r, Rounds (Vm.step host code) p.Own p.Body u [] r ∧ Q r := by
    intro u hu
    obtain ⟨v, s, hs, hvpc, hops, hinv, hlead⟩ := hend u hu
    obtain ⟨r, hr, hQ⟩ := hdone v s hs hvpc hops hinv
    exact ⟨r, hr.lead hlead, hQ⟩
  obtain ⟨ts, r, hr, hlen, hall, hQ⟩ := rounds_of_turns hturn hpass' hdone' hI0
  exact ⟨ts, r, hr, hlen, fun k t ht => hpost k t (hall k t ht), hQ⟩

/-- A run enters the body at least as often as there are turns. -/
theorem Lies.turns_le (hl : p.Lies code init head step pops)
    (htop : top ≤ stackSize) (hst : Shows top fp s₀ st)
    (hpc : st.pc = p.base) (hinit : s₀.run host top fp init = some (.ok s₁))
    (hops : s₁.operands = before 0) (hinv : Inv s₁.host)
    (hturns : Turns host head step top fp n before Inv Post)
    (hpass : ∀ t ts, Entered (Vm.step host code) p.Own p.Body st (t :: ts) →
      p.Passes host code top Inv t)
    {ts : List (VmState H)} {r : StepResult H}
    (hrounds : Rounds (Vm.step host code) p.Own p.Body st ts r) : n ≤ ts.length := by
  obtain ⟨I, P, hI0, hturn, hpass', -, -⟩ :=
    hl.turn_rules htop hst hpc hinit hops hinv hturns hpass
  exact Rounds.le_length hturn hpass' hI0 hrounds

/-- A loop with so many turns makes so many rounds. -/
theorem Lies.rounds (hl : p.Lies code init head step pops)
    (htop : top ≤ stackSize) (hst : Shows top fp s₀ st) (hpc : st.pc = p.base)
    (hinit : s₀.run host top fp init = some (.ok s₁)) (hops : s₁.operands = before 0)
    (hinv : Inv s₁.host) (hturns : Turns host head step top fp n before Inv Post)
    (hdone : ∀ s : ListState H, s.operands = before n → Inv s.host →
      ∃ s' w ws, s.run host top fp head = some (.ok s') ∧ s'.operands = w :: ws ∧ w ≠ 0 ∧
        ws.length + 1 = pops)
    (hpass : ∀ t ts, Entered (Vm.step host code) p.Own p.Body st (t :: ts) →
      p.Passes host code top Inv t) :
    ∃ ts st', Rounds (Vm.step host code) p.Own p.Body st ts (.ok st') ∧ ts.length = n ∧
      (∀ k t, ts[k]? = some t → ∃ s, Shows top fp s t ∧ Post k s) ∧
      st'.pc = p.start + p.bodySize + 2 ∧ st'.sp = top := by
  have hend : ∀ v s, Shows top fp s v → v.pc = p.entry → s.operands = before n → Inv s.host →
      ∃ r, Rounds (Vm.step host code) p.Own p.Body v [] r ∧
        ∃ st', r = .ok st' ∧ st'.pc = p.start + p.bodySize + 2 ∧ st'.sp = top := by
    intro v s hs hvpc hops hinv
    obtain ⟨s', w, ws, hhead, hops', hw, hpops⟩ := hdone s hops hinv
    obtain ⟨st', hst', hout, hpc', hsp'⟩ := hl.done_run htop hs hvpc hhead hops' hw hpops
    exact ⟨.ok st', .out hst' hout, st', rfl, hpc', hsp'⟩
  obtain ⟨ts, r, hr, hlen, hall, st', rfl, hpc', hsp'⟩ :=
    hl.counts htop hst hpc hinit hops hinv hturns hend hpass
  exact ⟨ts, st', hr, hlen, hall, hpc', hsp'⟩

/-- One whose step halts makes those before it. -/
theorem Lies.rounds_stuck (hl : p.Lies code init head step pops)
    {f : Fault} (htop : top ≤ stackSize) (hst : Shows top fp s₀ st)
    (hpc : st.pc = p.base) (hinit : s₀.run host top fp init = some (.ok s₁))
    (hops : s₁.operands = before 0) (hinv : Inv s₁.host)
    (hturns : Turns host head step top fp n before Inv Post)
    (hstuck : ∀ s : ListState H, s.operands = before n → Inv s.host →
      ∃ s' ws, s.run host top fp head = some (.ok s') ∧ s'.operands = 0 :: ws ∧
        ({ s' with operands := ws } : ListState H).run host top fp step = some (.halt f))
    (hpass : ∀ t ts, Entered (Vm.step host code) p.Own p.Body st (t :: ts) →
      p.Passes host code top Inv t) :
    ∃ ts, Rounds (Vm.step host code) p.Own p.Body st ts (.halt f) := by
  have hend : ∀ v s, Shows top fp s v → v.pc = p.entry → s.operands = before n → Inv s.host →
      ∃ r, Rounds (Vm.step host code) p.Own p.Body v [] r ∧ r = .halt f := by
    intro v s hs hvpc hops hinv
    obtain ⟨s', ws, hhead, hops', hstep⟩ := hstuck s hops hinv
    exact ⟨_, .halt (hl.stuck_run htop hs hvpc hhead hops' hstep), rfl⟩
  obtain ⟨ts, r, hr, -, -, rfl⟩ := hl.counts htop hst hpc hinit hops hinv hturns hend hpass
  exact ⟨ts, hr⟩

end

end

end LoopPlace

/-! ## Code of a statement alone -/

theorem ready_alone {s : Stmt} (h : s.bound.Nodup) :
    Ready {} ⟨fun _ => 0, fun _ => 0, fun _ => 0⟩ [] [] s.bound where
  fresh _ _ := rfl
  nodup := h
  disjoint _ hc := absurd hc List.not_mem_nil
  loops_subset := List.nil_subset _
  exitIp _ hc := absurd hc List.not_mem_nil
  entry _ hc := absurd hc List.not_mem_nil

theorem blockAt_alone (s : Stmt) : BlockAt (genStmt s {}).instructions ({} : GenCtx).counter
    ((genStmt s {}).instructions.drop ({} : GenCtx).counter) := by
  have hcounter : ({} : GenCtx).counter = 0 := rfl
  rw [hcounter, List.drop_zero]
  generalize (genStmt s {}).instructions = code
  exact ⟨[], [], by simp, rfl⟩

/-- Every reference is that of the second slot behind the frame pointer of `sampleState`. -/
def oneVariable : Host Unit := { noHost with locOf := fun _ => .slot 18 }

/-- The variable of a loop without index and last item refers to its slot. -/
theorem oneVariable_refers {sym : Symbol}
    (h : sym ∈ ({ branchInfo := 0 } : LoopInfo).syms (.stack 2)) : Refers oneVariable 20 sym := by
  rw [List.mem_singleton.mp h]
  rfl

/-- The variable lies above the operands. -/
theorem oneVariable_apart (stack : Nat → Word) :
    ¬ Overlaps (({ branchInfo := 0 } : LoopInfo).syms (.stack 2))
      { sampleState with pc := 2, stack } := by
  rintro ⟨off, hoff, hlt⟩
  cases List.mem_singleton.mp hoff
  exact absurd (show 20 - 2 < 10 + 2 from hlt) (by decide)

end N00b.Codegen
