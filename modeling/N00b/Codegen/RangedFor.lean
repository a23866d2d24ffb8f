import N00b.Codegen.LoopCode

/-!
# Loops over a range

The code of `gen_ranged_for` keeps the step, the current number and the end of the range on the
stack. The direction comes from the sign of the difference of the two bounds, which is a signed
subtraction; the loop ends where the current number is the end of the range.

## Main results

* `visitsRange_iff`: the loop visits its range exactly when the difference of its bounds is an
  integer of 64 bits, unless its index with a label lies in the slot of the end.
-/

namespace N00b.Codegen

open N00b.Vm N00b.Lib Piece

/-! ## The parts of the code -/

def rangeBounds (li : LoopInfo) (lo hi : ExprCode) : List Piece :=
  labelPieces li.label ++ [expr lo, expr hi]

/-- The code between the bounds and the loop. -/
def rangeSetup (li : LoopInfo) : List Piece :=
  [op .swap, op .subNoPop] ++ calcLast li ++ [op .getSign] ++ li.ifIx (.pushImm 0)

/-- The code before a ranged loop pushes the two bounds and sets the loop slots up. -/
theorem rangeInit_eq (li : LoopInfo) (lo hi : ExprCode) :
    rangeInit li lo hi = rangeBounds li lo hi ++ rangeSetup li := by
  simp [rangeInit, rangeBounds, rangeSetup]

/-- Where the loop lies if its statement starts at `base`. -/
def rangePlace (base : Nat) (li : LoopInfo) (lvar : Symbol) (lo hi : ExprCode) (body : Stmt) :
    LoopPlace where
  base := base + sizeOf (rangeBounds li lo hi)
  entry := base + sizeOf (rangeInit li lo hi)
  start := base + sizeOf (rangeInit li lo hi) + sizeOf (rangeHead li) + 1 +
    sizeOf (rangeStep li lvar)
  bodySize := body.size

/-- Where a ranged loop is compiled, its setup, head and step lie at the places the loop runs
through. -/
theorem range_lies {code : List Instr} {li : LoopInfo} {lvar : Symbol} {lo hi : ExprCode}
    {body : Stmt} {ctx : GenCtx} {env : Enclosing} {scope loops : List Nat}
    (hready : Ready ctx env scope loops (Stmt.forRange li lvar lo hi body).bound)
    (hscoped : (Stmt.forRange li lvar lo hi body).Scoped scope loops)
    (hcode : BlockAt code ctx.counter
      ((genStmt (.forRange li lvar lo hi body) ctx).instructions.drop ctx.counter)) :
    let p := rangePlace ctx.counter li lvar lo hi body
    p.Lies code (piecesCode (rangeSetup li) p.base) (piecesCode (rangeHead li) p.entry)
      (piecesCode (rangeStep li lvar) (p.entry + sizeOf (rangeHead li) + 1)) 3 := by
  intro p
  have hblock := LoopPlace.blockAt_layout hready hscoped hcode
  rw [Stmt.layout] at hblock
  simp only [rangeInit_eq] at hblock
  refine LoopPlace.lies_of_layout hblock ?_ ?_ rfl rfl ?_ rfl ?_
  · simp only [p, rangePlace, rangeInit_eq]
  · simp only [p, rangePlace, rangeInit_eq]
  · simp only [p, rangePlace, rangeInit_eq, sizeOf_append]
    omega
  · rw [Layout.size_bind, Stmt.size_layout]
    rfl

/-! ## The places of the variables -/

section

variable {site : LoopSite} {li : LoopInfo} {lvar sym : Symbol} {lo hi : ExprCode} {body : Stmt}
  {start top m : Nat} {f : Bool}

/-- The variable of a ranged loop lives in the stack slot that the frame layout gives it. -/
theorem range_lvar (hfits : site.Fits start top m)
    (hloop : site.loop = .forRange li lvar lo hi body) (hplaces : site.Places f li lvar) :
    lvar = .stack (start + m) := by
  have h := hplaces.lvar1
  rw [LoopSite.symbol, hfits.own, hloop] at h
  exact (Option.some.inj h).symm

/-- Only the index with a label can lie on the stack: behind the loop variable, or at `fp[0]` if
`$i` is used as well. -/
theorem range_ix (hfits : site.Fits start top m)
    (hloop : site.loop = .forRange li lvar lo hi body) (hplaces : site.Places f li lvar)
    (hsym : sym ∈ li.ixSyms) : (∃ off, sym = .static 0 off) ∨ f = true ∧
      (sym = .stack 0 ∨ li.loopIx = none ∧ li.namedLoopIx = some sym ∧
        sym = .stack (start + m + 1)) := by
  rcases List.mem_append.mp hsym with hsym | hsym
  · rw [Option.mem_toList, ← hplaces.ix] at hsym
    exact .inl (LoopSite.symbol_static hsym (by rw [storage_ix]; decide))
  · rw [Option.mem_toList] at hsym
    have hplace := hplaces.labelIx.trans hsym
    cases f with
    | false => exact .inl (LoopSite.symbol_static hplace (by decide))
    | true =>
      obtain ⟨slot, hslot, hvar, rfl⟩ := LoopSite.symbol_stack hplace rfl
      rw [hfits.own, hloop] at hslot
      refine .inr ⟨rfl, ?_⟩
      cases hgiven : slot.given with
      | false => exact .inl (congrArg Symbol.stack ((Stmt.mem_ownSlots hslot).2 hgiven))
      | true =>
        obtain ⟨j, hj, hoff⟩ := Stmt.offset_of_given hslot hgiven
        rw [hvar] at hj
        simp only [Stmt.givenVars, LoopInfo.indexVars, hsym] at hj
        cases hix : li.loopIx with
        | some _ =>
          rw [hix] at hj
          rcases j with _ | _ | j <;> cases hj
        | none =>
          rw [hix] at hj
          rcases j with _ | _ | j
          · cases hj
          · exact .inr ⟨rfl, hsym, congrArg Symbol.stack hoff⟩
          · cases hj

/-- `$last` of a ranged loop is static data or the slot of the frame pointer itself. -/
theorem range_last (hfits : site.Fits start top m)
    (hloop : site.loop = .forRange li lvar lo hi body) (hplaces : site.Places f li lvar)
    (hsym : sym ∈ li.lastSyms) : (∃ off, sym = .static 0 off) ∨ sym = .stack 0 := by
  rcases List.mem_append.mp hsym with hsym | hsym
  · rw [Option.mem_toList, ← hplaces.last] at hsym
    exact .inl (LoopSite.symbol_static hsym (by rw [storage_last]; decide))
  · rw [Option.mem_toList, ← hplaces.labelLast] at hsym
    obtain ⟨slot, hslot, hvar, rfl⟩ := LoopSite.symbol_stack hsym rfl
    rw [hfits.own, hloop] at hslot
    refine .inr (congrArg Symbol.stack ((Stmt.mem_ownSlots hslot).2 ?_))
    by_contra hgiven
    obtain ⟨j, hj, -⟩ := Stmt.offset_of_given hslot (Bool.not_eq_false _ ▸ hgiven)
    rw [hvar] at hj
    simp only [Stmt.givenVars, LoopInfo.indexVars] at hj
    cases hix : li.loopIx <;> cases hnamed : li.namedLoopIx <;> rw [hix, hnamed] at hj <;>
      rcases j with _ | _ | j <;> cases hj

end
/-! ## The code on the list -/

def rangeSlots (li : LoopInfo) (ix step cur hi : Word) : List Word :=
  (if li.genIx then [ix] else []) ++ [step, cur, hi]

section

variable {H : Type} {host : Host H} {top fp : Nat} {s : ListState H} {li : LoopInfo}
  {lvar : Symbol} {a b : Word}

/-- `ZAbs` behind `ZDupTop`, in the machine's arithmetic. -/
def absWord (w : Word) : Word := (w ^^^ w.sshiftRight 63) + (w.sshiftRight 63 &&& 1)

/-- The absolute value comes on top of the word. -/
theorem run_absTop {w : Word} {ws : List Word} (base : Nat) (hops : s.operands = w :: ws)
    (hroom : ws.length + 1 < top) :
    s.run host top fp (piecesCode [op .dupTop, op .abs] base) =
      some (.ok { s with operands := absWord w :: w :: ws }) := by
  simp [ListState.run, ListState.exec, ListState.unary, ListState.push, ListState.result, hops,
    hroom, absWord]

/-- A word on top is stored in a last variable. -/
theorem run_storeLast {sym : Symbol} {v : Word} {vs : List Word} (base : Nat)
    (hlast : Placed host top fp sym) (hops : s.operands = v :: vs) (hroom : vs.length + 2 ≤ top) :
    ∃ s', s.run host top fp (piecesCode (symStore sym true) base) = some (.ok s') ∧
      s'.operands = vs :=
  ⟨_, run_symStore_pop base hlast hops hroom, operands_setSym⟩

/-- The absolute value goes to one last variable. -/
theorem run_calcLast_one {sym : Symbol} {w : Word} {ws : List Word} (base : Nat)
    (hlast : Placed host top fp sym) (hops : s.operands = w :: ws) (hroom : ws.length + 4 ≤ top) :
    ∃ s', s.run host top fp (piecesCode ([op .dupTop, op .abs] ++ symStore sym true) base) =
      some (.ok s') ∧ s'.operands = w :: ws := by
  rw [piecesCode_append, ListState.run_append (run_absTop base hops (by omega))]
  exact run_storeLast _ hlast rfl (by rw [List.length_cons]; omega)

/-- The absolute value goes to both last variables. -/
theorem run_calcLast_two {sym named : Symbol} {w : Word} {ws : List Word} (base : Nat)
    (hlast : Placed host top fp sym) (hnamed : Placed host top fp named)
    (hops : s.operands = w :: ws) (hroom : ws.length + 4 ≤ top) :
    ∃ s', s.run host top fp (piecesCode ([op .dupTop, op .abs, op .dupTop] ++ symStore sym true ++
      symStore named true) base) = some (.ok s') ∧ s'.operands = w :: ws := by
  have hlen : ws.length + 2 < top := by omega
  have hdup : s.run host top fp (piecesCode [op .dupTop, op .abs, op .dupTop] base) =
      some (.ok { s with operands := absWord w :: absWord w :: w :: ws }) := by
    refine (ListState.run_append (run_absTop base hops (by omega))).trans ?_
    simp [ListState.run, ListState.exec, ListState.unary, ListState.push, hlen]
  obtain ⟨s₁, hs₁, hops₁⟩ := run_storeLast
    (s := { s with operands := absWord w :: absWord w :: w :: ws })
    (base + sizeOf [op .dupTop, op .abs, op .dupTop]) hlast rfl
    (by rw [List.length_cons, List.length_cons]; omega)
  have hfirst := (ListState.run_append hdup).trans hs₁
  rw [← piecesCode_append] at hfirst
  obtain ⟨s₂, hs₂, hops₂⟩ := run_storeLast
    (base + sizeOf ([op .dupTop, op .abs, op .dupTop] ++ symStore sym true)) hnamed hops₁
    (by rw [List.length_cons]; omega)
  refine ⟨s₂, ?_, hops₂⟩
  rw [piecesCode_append, ListState.run_append hfirst, hs₂]

/-- The computation of `$last` leaves the operand stack as it finds it. -/
theorem run_calcLast {w : Word} {ws : List Word} (base : Nat)
    (hlast : ∀ sym ∈ li.lastSyms, Placed host top fp sym) (hops : s.operands = w :: ws)
    (hroom : ws.length + 4 ≤ top) :
    ∃ s', s.run host top fp (piecesCode (calcLast li) base) = some (.ok s') ∧
      s'.operands = w :: ws := by
  unfold calcLast
  cases hl : li.loopLast with
  | none =>
    cases hn : li.namedLoopLast with
    | none => exact ⟨s, rfl, hops⟩
    | some sym => exact run_calcLast_one base (hlast sym (by simp [LoopInfo.lastSyms, hn])) hops hroom
  | some sym =>
    have hsym := hlast sym (by simp [LoopInfo.lastSyms, hl])
    cases hn : li.namedLoopLast with
    | none => exact run_calcLast_one base hsym hops hroom
    | some named =>
      exact run_calcLast_two base hsym (hlast named (by simp [LoopInfo.lastSyms, hn])) hops hroom

/-- From bounds whose difference fits, the setup leaves the index, the step and the bounds on the
stack. -/
theorem run_rangeSetup (base : Nat) (hlast : ∀ sym ∈ li.lastSyms, Placed host top fp sym)
    (hops : s.operands = [b, a]) (hroom : 6 ≤ top) (hfits : b.ssubOverflow a = false) :
    ∃ s', s.run host top fp (piecesCode (rangeSetup li) base) = some (.ok s') ∧
      s'.operands = rangeSlots li 0 ((b - a).sshiftRight 63 ||| 1) a b := by
  have hroom' : 2 < top := by omega
  have hsub : ∀ base, s.run host top fp (piecesCode [op .swap, op .subNoPop] base) =
      some (.ok { s with operands := [b - a, a, b] }) := by
    intro base
    simp [ListState.run, ListState.exec, ListState.binary, ListState.unary, ListState.push, hops,
      arithWord, hfits, hroom']
  obtain ⟨s₁, hs₁, hops₁⟩ := run_calcLast (s := { s with operands := [b - a, a, b] })
    (base + sizeOf [op .swap, op .subNoPop]) hlast rfl (by simpa using hroom)
  have hcalc := (ListState.run_append (hsub base)).trans hs₁
  rw [← piecesCode_append] at hcalc
  rw [rangeSetup, List.append_assoc, piecesCode_append, ListState.run_append hcalc]
  cases hix : li.genIx with
  | false =>
    refine ⟨{ s₁ with operands := [(b - a).sshiftRight 63 ||| 1, a, b] }, ?_,
      by simp [rangeSlots, hix]⟩
    simp [LoopInfo.ifIx, hix, ListState.run, ListState.exec, ListState.unary, ListState.result,
      hops₁]
  | true =>
    have hroom'' : 3 < top := by omega
    refine ⟨{ s₁ with operands := [0, (b - a).sshiftRight 63 ||| 1, a, b] }, ?_,
      by simp [rangeSlots, hix]⟩
    simp [LoopInfo.ifIx, hix, ListState.run, ListState.exec, ListState.unary, ListState.result,
      hops₁, ListState.push, hroom'']

/-- The setup stops the machine where the difference of the bounds overflows. -/
theorem run_rangeSetup_overflow (base : Nat) (hops : s.operands = [b, a]) (hroom : 2 < top)
    (hover : b.ssubOverflow a = true) :
    s.run host top fp (piecesCode (rangeSetup li) base) = some (.halt .undefined) := by
  have hsub : s.run host top fp (piecesCode [op .swap, op .subNoPop] base) =
      some (.halt .undefined) := by
    simp [ListState.run, ListState.exec, ListState.binary, ListState.unary, hops, arithWord, hover,
      hroom]
  rw [rangeSetup, List.append_assoc, List.append_assoc, piecesCode_append]
  exact ListState.run_append_halt _ hsub

/-- The head compares the current item with the end and keeps the step and the index in registers.
-/
theorem run_rangeHead {ix step cur : Word} (base : Nat)
    (hsyms : ∀ sym ∈ li.ixSyms, Placed host top fp sym)
    (hops : s.operands = rangeSlots li ix step cur b) (hroom : 6 ≤ top) :
    ∃ s', s.run host top fp (piecesCode (rangeHead li) base) = some (.ok s') ∧
      s'.operands = [ofBool (b == cur), cur, b] ∧ s'.regs .r1 = step ∧
      (li.genIx = true → s'.regs .r3 = ix + 1) ∧ ∀ sym ∈ li.ixSyms, getSym fp sym s' = ix := by
  have hroom' : 2 < top := by omega
  cases hix : li.genIx with
  | false =>
    have hnil : li.ixSyms = [] := by
      by_contra hne
      rw [li.genIx_iff.mpr hne] at hix
      cases hix
    rw [rangeSlots, hix] at hops
    let s₁ : ListState H := { s with
      operands := [ofBool (b == cur), cur, b]
      regs := Function.update s.regs .r1 step }
    have hr1 : s₁.regs .r1 = step := by simp [s₁]
    refine ⟨s₁, ?_, rfl, hr1, nofun, by simp [hnil]⟩
    simp [rangeHead, indexVarIncrement, LoopInfo.ifIx, hix, ListState.run, ListState.exec,
      ListState.unary, ListState.binary, ListState.push, hops, hroom', s₁]
  | true =>
    rw [rangeSlots, hix] at hops
    have hincr := run_indexVarIncrement hix base hsyms hops (by simpa using hroom)
    let s₁ := setSyms fp li.ixSyms ix { s with operands := [ix + 1, step, cur, b] }
    let s₂ : ListState H := { s₁ with
      operands := [ofBool (b == cur), cur, b]
      regs := Function.update (Function.update s₁.regs .r3 (ix + 1)) .r1 step }
    have hr1 : s₂.regs .r1 = step := by simp [s₂]
    refine ⟨s₂, ?_, rfl, hr1, fun _ => ?_, fun sym hsym => ?_⟩
    · rw [rangeHead, List.append_assoc, piecesCode_append]
      refine (ListState.run_append hincr).trans ?_
      simp [LoopInfo.ifIx, hix, ListState.run, ListState.exec, ListState.unary, ListState.binary,
        ListState.push, hroom', s₁, s₂]
    · show Function.update (Function.update s₁.regs .r3 (ix + 1)) .r1 step .r3 = ix + 1
      rw [Function.update_of_ne (by decide), Function.update_self]
    · exact (getSym_congr rfl rfl).trans (getSym_setSyms hsym (hsyms sym hsym))

/-- The head of a loop whose index lies in the slot of the end: the index takes its place. -/
theorem run_rangeHead_over {ix step cur last : Word} {off : Nat} (base : Nat)
    (hsyms : li.ixSyms = [.stack off]) (href : Refers host fp (.stack off))
    (hslot : fp - off + 1 = top) (hops : s.operands = rangeSlots li ix step cur last)
    (hroom : 6 ≤ top) :
    ∃ s', s.run host top fp (piecesCode (rangeHead li) base) = some (.ok s') ∧
      s'.operands = [ofBool (ix == cur), cur, ix] ∧ s'.regs .r1 = step ∧ s'.regs .r3 = ix + 1 := by
  have hix : li.genIx = true := li.genIx_iff.mpr (by rw [hsyms]; exact List.cons_ne_nil _ _)
  have hroom' : 2 < top := by omega
  have hroom₄ : 4 < top := by omega
  have hroom₅ : 5 < top := by omega
  have hout : ¬ top ≤ fp - off := by omega
  have hin : top ≤ fp - off + 4 := by omega
  have hplace : fp - off + 4 - top = 3 := by omega
  have hloc : host.locOf (host.refOf (.slot (fp - off))) = .slot (fp - off) := href
  rw [rangeSlots, if_pos hix] at hops
  let s₁ : ListState H := { s with
    operands := [ofBool (ix == cur), cur, ix]
    regs := Function.update (Function.update s.regs .r3 (ix + 1)) .r1 step }
  refine ⟨s₁, ?_, rfl, by simp [s₁], by simp [s₁]⟩
  simp [rangeHead, indexVarIncrement_eq li hix, hsyms, symStore, symLoadRef, LoopInfo.ifIx, hix,
    ListState.run, ListState.exec, ListState.unary, ListState.binary, ListState.push,
    ListState.store, ListState.result, arithWord, hops, hloc, hout, hin, hplace, hroom', hroom₄,
    hroom₅, s₁]

/-- The step stores the item in the loop variable and leaves the slots of the next turn. -/
theorem run_rangeStep {ix step cur : Word} (base : Nat) (hlvar : Placed host top fp lvar)
    (hops : s.operands = [cur, b]) (hr1 : s.regs .r1 = step)
    (hr3 : li.genIx = true → s.regs .r3 = ix) (hroom : 6 ≤ top) :
    ∃ s', s.run host top fp (piecesCode (rangeStep li lvar) base) = some (.ok s') ∧
      s'.operands = rangeSlots li ix step (cur + step) b ∧ getSym fp lvar s' = cur ∧
      ∀ sym, Apart fp sym lvar → getSym fp sym s' = getSym fp sym s := by
  have hroom' : 2 < top := by omega
  have hroom'' : 3 < top := by omega
  have hnot : ¬ top ≤ 4 := by omega
  have hstore := run_symStore_keep base hlvar hops (by simpa using hroom.trans' (by omega))
  let s₁ := setSym fp lvar cur s
  refine ⟨{ s₁ with operands := rangeSlots li ix step (cur + step) b }, ?_, rfl, ?_, ?_⟩
  · rw [rangeStep, List.append_assoc, piecesCode_append]
    refine (ListState.run_append hstore).trans ?_
    cases hix : li.genIx with
    | false =>
      simp [LoopInfo.ifIx, hix, ListState.run, ListState.exec, ListState.unary, ListState.binary,
        ListState.push, ListState.result, arithWord, hops, hroom', hr1, rangeSlots, s₁]
    | true =>
      simp [LoopInfo.ifIx, hix, ListState.run, ListState.exec, ListState.unary, ListState.binary,
        ListState.push, ListState.result, arithWord, hops, hroom', hr1, hr3 hix, rangeSlots,
        hroom'', hnot, s₁]
  · exact (getSym_congr rfl rfl).trans (getSym_setSym hlvar)
  · exact fun sym hsym => (getSym_congr rfl rfl).trans (getSym_setSym_of_apart hsym)

end

/-! ## The numbers of a range -/

def rangeSign (a b : Word) : Int := if a.toInt ≤ b.toInt then 1 else -1

/-- The numbers of the range: `a`, `a + 1`, ... or `a`, `a - 1`, ... -/
def rangeItem (a b : Word) (k : Nat) : Int := a.toInt + rangeSign a b * k

/-- How many there are, without the end. -/
def rangeLength (a b : Word) : Nat := (b.toInt - a.toInt).natAbs

/-- The difference of the bounds is an integer of 64 bits. -/
def RangeFits (a b : Word) : Prop :=
  -2 ^ 63 ≤ b.toInt - a.toInt ∧ b.toInt - a.toInt < 2 ^ 63

section

variable {a b : Word}

theorem rangeFits_iff : RangeFits a b ↔ b.ssubOverflow a = false := by
  simp only [RangeFits, BitVec.ssubOverflow, Bool.or_eq_false_iff, decide_eq_false_iff_not]
  omega

theorem rangeItem_zero : rangeItem a b 0 = a.toInt := by simp [rangeItem]

/-- After as many turns as the range is long, the item is the end bound. -/
theorem rangeItem_length : rangeItem a b (rangeLength a b) = b.toInt := by
  unfold rangeItem rangeSign rangeLength
  split <;> omega

/-- Every item before the end is a 64-bit integer different from the end bound. -/
theorem rangeItem_bounds {k : Nat} (hk : k < rangeLength a b) :
    -2 ^ 63 ≤ rangeItem a b k ∧ rangeItem a b k < 2 ^ 63 ∧ rangeItem a b k ≠ b.toInt := by
  have ha := a.le_toInt
  have ha' := a.toInt_lt
  have hb := b.le_toInt
  have hb' := b.toInt_lt
  unfold rangeLength at hk
  unfold rangeItem rangeSign
  norm_num at ha ha' hb hb'
  split <;> omega

/-- The word of an item before the end reads back as the item. -/
theorem toInt_rangeItem {k : Nat} (hk : k < rangeLength a b) :
    (BitVec.ofInt 64 (rangeItem a b k)).toInt = rangeItem a b k := by
  obtain ⟨hlo, hhi, -⟩ := rangeItem_bounds hk
  exact BitVec.toInt_ofInt_eq_self (by decide) hlo hhi

/-- Where the difference fits, the sign computed by the code is the direction of the range. -/
theorem getSign_sub (h : b.ssubOverflow a = false) :
    (b - a).sshiftRight 63 ||| 1 = BitVec.ofInt 64 (rangeSign a b) := by
  have hsub : (b - a).toInt = b.toInt - a.toInt :=
    BitVec.toInt_sub_of_not_ssubOverflow (by rw [h]; exact Bool.false_ne_true)
  have hlo : -2 ^ 63 ≤ (b - a).toInt := (b - a).le_toInt
  have hhi : (b - a).toInt < 2 ^ 63 := (b - a).toInt_lt
  have hshift : ((b - a).sshiftRight 63).toInt = (b - a).toInt / 2 ^ 63 := by
    rw [BitVec.toInt_sshiftRight, Int.shiftRight_eq_div_pow]
    rfl
  unfold rangeSign
  split
  next hle =>
    have hzero : (b - a).sshiftRight 63 = 0 := by
      refine BitVec.eq_of_toInt_eq (hshift.trans ?_)
      exact Int.ediv_eq_zero_of_lt (by omega) hhi
    rw [hzero]
    rfl
  next hle =>
    have hones : (b - a).sshiftRight 63 = -1 := by
      refine BitVec.eq_of_toInt_eq (hshift.trans ?_)
      show _ = (-1 : Int)
      omega
    rw [hones]
    decide

/-- Adding the direction to one item's word gives the word of the next. -/
theorem rangeItem_succ (k : Nat) :
    BitVec.ofInt 64 (rangeItem a b k) + BitVec.ofInt 64 (rangeSign a b) =
      BitVec.ofInt 64 (rangeItem a b (k + 1)) := by
  rw [← BitVec.ofInt_add]
  congr 1
  unfold rangeItem
  push_cast
  ring

end

/-! ## The whole loop -/

section

variable {H : Type}

/-- The variables of the loop lie outside of the operands from the slot `top` down, and the number
is not kept where the index is. -/
structure RangeVars (host : Host H) (top fp : Nat) (li : LoopInfo) (lvar : Symbol) : Prop where
  number : Placed host top fp lvar
  ix : ∀ sym ∈ li.ixSyms, Placed host top fp sym ∧ Apart fp sym lvar
  last : ∀ sym ∈ li.lastSyms, Placed host top fp sym

/-- Where the variables of a loop lie in a frame: all but the index outside of the operands, and the
index there or in the slot of the end. -/
structure RangePlaced (host : Host H) (li : LoopInfo) (lvar : Symbol) (st : VmState H) : Prop where
  number : Placed host (st.sp + 2) st.fp lvar
  last : ∀ sym ∈ li.lastSyms, Placed host (st.sp + 2) st.fp sym
  vars : ¬ Overlaps (li.syms lvar) st → RangeVars host (st.sp + 2) st.fp li lvar
  covers : Overlaps (li.syms lvar) st → ∃ off, li.ixSyms = [.stack off] ∧ st.fp - off = st.sp + 1

section

variable {u : CodeUnit} {site : LoopSite} {lo hi : ExprCode} {body : Stmt} {st : VmState H} {m : Nat}

/-- The index lies above the operands, unless a variable overlaps them, and it is not the number. -/
theorem range_ix_placed (hfits : site.Fits u.start.current u.body.height m)
    (hle : u.start.current + m ≤ u.reserved + site.words)
    (hloop : site.loop = .forRange li lvar lo hi body) (hplaces : site.Places u.inFunction li lvar)
    (hsmall : u.Small) (hbelow : st.sp + 2 + site.words + u.reserved ≤ st.fp)
    (hout : ¬ Overlaps (li.syms lvar) st) {sym : Symbol} (hsym : sym ∈ li.ixSyms)
    (hr : Refers host st.fp sym) :
    Placed host (st.sp + 2) st.fp sym ∧ Apart st.fp sym lvar := by
  rw [range_lvar hfits hloop hplaces]
  rcases range_ix hfits hloop hplaces hsym with ⟨off, rfl⟩ | ⟨hf, rfl | ⟨-, -, rfl⟩⟩
  · exact ⟨hr, trivial⟩
  · -- In a function the offsets start behind 0.
    have hpos : 0 < u.start.current := by
      cases u with
      | module => cases hf
      | function decl flags size b => exact CodeUnit.start_pos decl flags size b hsmall
    refine ⟨⟨hr, by omega⟩, ?_⟩
    show st.fp - 0 ≠ st.fp - (u.start.current + m)
    omega
  · have habove : st.sp + 2 ≤ st.fp - (u.start.current + m + 1) := by
      by_contra hlt
      exact hout ⟨u.start.current + m + 1, List.mem_cons_of_mem _ (List.mem_append_left _ hsym),
        by omega⟩
    refine ⟨⟨hr, habove⟩, ?_⟩
    show st.fp - (u.start.current + m + 1) ≠ st.fp - (u.start.current + m)
    omega

/-- A variable that overlaps the operands is the index, in the slot of the end bound. -/
theorem range_covers (hfits : site.Fits u.start.current u.body.height m)
    (hle : u.start.current + m ≤ u.reserved + site.words)
    (hloop : site.loop = .forRange li lvar lo hi body) (hplaces : site.Places u.inFunction li lvar)
    (hbelow : st.sp + 2 + site.words + u.reserved ≤ st.fp) (hover : Overlaps (li.syms lvar) st) :
    ∃ off, li.ixSyms = [.stack off] ∧ st.fp - off = st.sp + 1 := by
  obtain ⟨off, hmem, hlt⟩ := hover
  rcases List.mem_cons.mp hmem with hmem | hmem
  · have hoff := Symbol.stack.inj (hmem.trans (range_lvar hfits hloop hplaces))
    omega
  · rcases List.mem_append.mp hmem with hmem | hmem
    · rcases range_ix hfits hloop hplaces hmem with ⟨_, h⟩ | ⟨-, h | ⟨hix, hnamed, h⟩⟩
      · cases h
      · cases h
        omega
      · cases h
        refine ⟨u.start.current + m + 1, ?_, by omega⟩
        rw [LoopInfo.ixSyms, hix, hnamed]
        rfl
    · rcases range_last hfits hloop hplaces hmem with ⟨_, h⟩ | h
      · cases h
      · cases h
        omega

/-- The variables of a compiled ranged loop lie outside the slots the loop works in. -/
theorem range_placed (hsite : site ∈ u.sites) (hloop : site.loop = .forRange li lvar lo hi body)
    (hplaces : site.Places u.inFunction li lvar) (hsmall : u.Small) (hbelow : site.Below u st)
    (hrefs : ∀ sym ∈ li.syms lvar, Refers host st.fp sym) : RangePlaced host li lvar st := by
  obtain ⟨m, hfits, hle⟩ := CodeUnit.exists_fits hsite
  have hsp : st.sp + 2 + site.words + u.reserved ≤ st.fp := hbelow
  have hlvar := range_lvar hfits hloop hplaces
  have hnumber : Placed host (st.sp + 2) st.fp lvar := by
    have hr := hrefs lvar List.mem_cons_self
    rw [hlvar] at hr ⊢
    exact ⟨hr, by omega⟩
  have hlast : ∀ sym ∈ li.lastSyms, Placed host (st.sp + 2) st.fp sym := by
    intro sym hsym
    have hr := hrefs sym (List.mem_cons_of_mem _ (List.mem_append_right _ hsym))
    rcases range_last hfits hloop hplaces hsym with ⟨off, rfl⟩ | rfl
    · exact hr
    · exact ⟨hr, by omega⟩
  exact ⟨hnumber, hlast, fun hout => ⟨hnumber, fun sym hsym =>
      range_ix_placed hfits hle hloop hplaces hsmall hsp hout hsym
        (hrefs sym (List.mem_cons_of_mem _ (List.mem_append_left _ hsym))), hlast⟩,
    range_covers hfits hle hloop hplaces hsp⟩

end

/-- The run ends behind the loop without the bounds, and enters the body once for each number of the
range from `a` to `b`, in order and with the index from `0` up. -/
def VisitsRange (host : Host H) (code : List Instr) (p : LoopPlace) (li : LoopInfo) (lvar : Symbol)
    (a b : Word) (st : VmState H) : Prop :=
  ∃ ts st', Rounds (step host code) p.Own p.Body st ts (.ok st') ∧ ts.length = rangeLength a b ∧
    (∀ k t, ts[k]? = some t → (symValue lvar t).toInt = rangeItem a b k ∧
      ∀ sym ∈ li.ixSyms, symValue sym t = BitVec.ofNat 64 k) ∧
    st'.pc = p.start + p.bodySize + 2 ∧ st'.sp = st.sp + 2

variable {host : Host H} {code : List Instr} {li : LoopInfo} {lvar : Symbol} {top fp : Nat}
  {a b : Word}

/-- A ranged loop makes one turn for each of its items, with the slots and the variable of that
item. -/
theorem range_turns (base base' : Nat) (hvars : RangeVars host top fp li lvar) (hroom : 6 ≤ top) :
    LoopPlace.Turns host (piecesCode (rangeHead li) base) (piecesCode (rangeStep li lvar) base')
      top fp (rangeLength a b)
      (fun k => rangeSlots li (BitVec.ofNat 64 k) (BitVec.ofInt 64 (rangeSign a b))
        (BitVec.ofInt 64 (rangeItem a b k)) b)
      (fun _ => True)
      (fun k s => getSym fp lvar s = BitVec.ofInt 64 (rangeItem a b k) ∧
        ∀ sym ∈ li.ixSyms, getSym fp sym s = BitVec.ofNat 64 k) := by
  intro k s hk hops _
  obtain ⟨s', hhead, hops', hr1, hr3, hix⟩ := run_rangeHead base
    (fun sym hsym => (hvars.ix sym hsym).1) hops hroom
  have hne : (b == BitVec.ofInt 64 (rangeItem a b k)) = false := by
    refine beq_eq_false_iff_ne.mpr fun heq => ?_
    refine (rangeItem_bounds hk).2.2 ?_
    rw [← toInt_rangeItem hk, ← heq]
  rw [hne] at hops'
  obtain ⟨s'', hstep, hops'', hlvar, hkeep⟩ := run_rangeStep (s := { s' with operands := _ }) base'
    hvars.number rfl hr1 hr3 hroom
  refine ⟨s', _, s'', hhead, hops', hstep, ?_, trivial, hlvar, fun sym hsym => ?_⟩
  · rw [hops'', rangeItem_succ]
    congr 1
    exact (BitVec.ofNat_add k 1).symm
  · refine (hkeep sym (hvars.ix sym hsym).2).trans ((getSym_congr rfl rfl).trans (hix sym hsym))

/-- When the loop starts, its two bounds are the top of the stack. -/
theorem shows_bounds {st : VmState H} :
    ∃ s, Shows (st.sp + 2) st.fp s st ∧ s.operands = [st.peek 0, st.peek 1] := by
  refine ⟨st.toList (st.sp + 2), shows_toList (Nat.le_add_right _ _), ?_⟩
  rw [VmState.toList, Nat.add_sub_cancel_left]
  rfl

variable {lo hi : ExprCode} {body : Stmt} {ctx : GenCtx} {env : Enclosing} {scope loops : List Nat}
  {st : VmState H}

/-- Where the difference of the bounds overflows, the loop is never entered. -/
theorem range_overflow {p : LoopPlace} {head stp : List Instr}
    (hlies : p.Lies code (piecesCode (rangeSetup li) p.base) head stp 3) (hpc : st.pc = p.base)
    (hroom : 4 ≤ st.sp) (hvalues : st.sp + 2 ≤ stackSize)
    (hover : (st.peek 0).ssubOverflow (st.peek 1) = true) :
    Rounds (step host code) p.Own p.Body st [] (.halt .undefined) := by
  obtain ⟨s, hs, hops⟩ := @shows_bounds _ st
  have hinit : s.run host (st.sp + 2) st.fp (piecesCode (rangeSetup li) p.base) =
      some (.halt .undefined) := run_rangeSetup_overflow _ hops (by omega) hover
  exact hlies.init_halt hvalues hs hpc hinit

section

variable {p : LoopPlace} {base base' : Nat}

/-- With its variables apart from its slots, a ranged loop visits exactly the items of its range. -/
theorem visitsRange_of_vars
    (hlies : p.Lies code (piecesCode (rangeSetup li) p.base) (piecesCode (rangeHead li) base)
      (piecesCode (rangeStep li lvar) base') 3) (hpc : st.pc = p.base)
    (hvars : RangeVars host (st.sp + 2) st.fp li lvar)
    (hroom : 4 ≤ st.sp) (hvalues : st.sp + 2 ≤ stackSize)
    (hpass : ∀ t ts, Entered (step host code) p.Own p.Body st (t :: ts) →
      p.Passes host code (st.sp + 2) (fun _ => True) t)
    (hfits : (st.peek 0).ssubOverflow (st.peek 1) = false) :
    VisitsRange host code p li lvar (st.peek 1) (st.peek 0) st := by
  obtain ⟨s, hs, hops⟩ := @shows_bounds _ st
  obtain ⟨s₁, hinit, hops₁⟩ := run_rangeSetup p.base hvars.last hops (by omega) hfits
  have hfirst : s₁.operands = rangeSlots li (BitVec.ofNat 64 0)
      (BitVec.ofInt 64 (rangeSign (st.peek 1) (st.peek 0)))
      (BitVec.ofInt 64 (rangeItem (st.peek 1) (st.peek 0) 0)) (st.peek 0) := by
    rw [hops₁, getSign_sub hfits, rangeItem_zero, BitVec.ofInt_toInt]
    rfl
  have hdone : ∀ s : ListState H, s.operands = rangeSlots li
      (BitVec.ofNat 64 (rangeLength (st.peek 1) (st.peek 0)))
      (BitVec.ofInt 64 (rangeSign (st.peek 1) (st.peek 0)))
      (BitVec.ofInt 64 (rangeItem (st.peek 1) (st.peek 0)
        (rangeLength (st.peek 1) (st.peek 0)))) (st.peek 0) → True →
      ∃ s' w ws, s.run host (st.sp + 2) st.fp (piecesCode (rangeHead li) base) =
        some (.ok s') ∧ s'.operands = w :: ws ∧ w ≠ 0 ∧ ws.length + 1 = 3 := by
    intro s hops _
    rw [rangeItem_length, BitVec.ofInt_toInt] at hops
    obtain ⟨s', hhead, hops', -⟩ := run_rangeHead _ (fun sym hsym => (hvars.ix sym hsym).1) hops
      (by omega)
    exact ⟨s', _, _, hhead, hops', by simp [ofBool], rfl⟩
  obtain ⟨ts, st', hrounds, hlen, hall, hpc', hsp'⟩ := hlies.rounds hvalues hs hpc hinit hfirst
    trivial (range_turns _ _ hvars (by omega)) hdone hpass
  refine ⟨ts, st', hrounds, hlen, fun k t ht => ?_, hpc', hsp'⟩
  obtain ⟨s', hs', hnumber, hix⟩ := hall k t ht
  have hk : k < rangeLength (st.peek 1) (st.peek 0) := by
    rw [← hlen]
    exact (List.getElem?_eq_some_iff.mp ht).1
  constructor
  · rw [Shows.symValue_eq hs' hvars.number, hnumber, toInt_rangeItem hk]
  · intro sym hsym
    rw [Shows.symValue_eq hs' (hvars.ix sym hsym).1, hix sym hsym]

/-! ## The index over the end -/

/-- The word in the slot of the end before turn `k`: the index of the turn before. -/
def overEnd (b : Word) : Nat → Word
  | 0 => b
  | k + 1 => BitVec.ofNat 64 k

/-- The loop with its index in the slot of the end: it goes on while index and number differ. -/
theorem over_turns (base base' : Nat) {n off : Nat} (hsyms : li.ixSyms = [.stack off])
    (href : Refers host fp (.stack off)) (hslot : fp - off + 1 = top)
    (hlvar : Placed host top fp lvar) (hroom : 6 ≤ top)
    (hne : ∀ k < n, BitVec.ofNat 64 k ≠ BitVec.ofInt 64 (rangeItem a b k)) :
    LoopPlace.Turns host (piecesCode (rangeHead li) base) (piecesCode (rangeStep li lvar) base')
      top fp n
      (fun k => rangeSlots li (BitVec.ofNat 64 k) (BitVec.ofInt 64 (rangeSign a b))
        (BitVec.ofInt 64 (rangeItem a b k)) (overEnd b k))
      (fun _ => True)
      (fun k s => getSym fp lvar s = BitVec.ofInt 64 (rangeItem a b k) ∧
        s.operands.length = 4 ∧ s.operands[3]? = some (BitVec.ofNat 64 k)) := by
  intro k s hk hops _
  have hix : li.genIx = true := li.genIx_iff.mpr (by rw [hsyms]; exact List.cons_ne_nil _ _)
  obtain ⟨s', hhead, hops', hr1, hr3⟩ := run_rangeHead_over base hsyms href hslot hops hroom
  rw [beq_eq_false_iff_ne.mpr (hne k hk)] at hops'
  obtain ⟨s'', hstep, hops'', hget, -⟩ := run_rangeStep (s := { s' with operands := _ }) base'
    hlvar rfl hr1 (fun _ => hr3) hroom
  refine ⟨s', _, s'', hhead, hops', hstep, ?_, trivial, hget, ?_, ?_⟩
  · rw [hops'', rangeItem_succ]
    congr 1
    exact (BitVec.ofNat_add k 1).symm
  · rw [hops'', rangeSlots, if_pos hix]
    rfl
  · rw [hops'', rangeSlots, if_pos hix]
    rfl

/-- When index and number first meet, the range has been visited. -/
theorem meet_iff (hfits : RangeFits a b) :
    (BitVec.ofNat 64 (rangeLength a b) = b ∧
      ∀ k < rangeLength a b, BitVec.ofNat 64 k ≠ BitVec.ofInt 64 (rangeItem a b k)) ↔
      a.toInt = 2 * b.toInt ∧ 0 ≤ b.toInt := by
  have hlo := b.le_toInt
  have hhi := b.toInt_lt
  norm_num at hlo hhi
  obtain ⟨hfits₁, hfits₂⟩ := hfits
  constructor
  · rintro ⟨hend, hne⟩
    have hlen : (rangeLength a b : Int) = b.toInt ∨
        (rangeLength a b : Int) = 2 ^ 63 ∧ b.toInt = -2 ^ 63 := by
      have hint := congrArg BitVec.toInt hend
      rw [BitVec.toInt_ofNat'] at hint
      unfold rangeLength at hint ⊢
      rw [Int.bmod_def] at hint
      split at hint <;> omega
    have hzero : 0 < rangeLength a b → a.toInt ≠ 0 := by
      intro hpos ha
      refine hne 0 hpos ?_
      rw [rangeItem_zero, ha]
      rfl
    unfold rangeLength at hlen hzero
    omega
  · rintro ⟨hab, hb⟩
    have hlen : rangeLength a b = b.toInt.toNat := by
      unfold rangeLength
      omega
    refine ⟨?_, fun k hk heq => ?_⟩
    · refine BitVec.eq_of_toInt_eq ?_
      rw [BitVec.toInt_ofNat', hlen, Int.bmod_def]
      split <;> omega
    · have hint := congrArg BitVec.toInt heq
      rw [toInt_rangeItem hk, BitVec.toInt_ofNat', Int.bmod_def] at hint
      rw [hlen] at hk
      unfold rangeItem rangeSign at hint
      split at hint <;> split at hint <;> omega

/-- With the index variable in the slot of the end bound, a ranged loop visits its range iff the
range starts at twice its end, which is not negative. -/
theorem visitsRange_over_iff {off : Nat}
    (hlies : p.Lies code (piecesCode (rangeSetup li) p.base) (piecesCode (rangeHead li) base)
      (piecesCode (rangeStep li lvar) base') 3) (hpc : st.pc = p.base)
    (hsyms : li.ixSyms = [.stack off]) (href : Refers host st.fp (.stack off))
    (hslot : st.fp - off = st.sp + 1) (hlvar : Placed host (st.sp + 2) st.fp lvar)
    (hlast : ∀ sym ∈ li.lastSyms, Placed host (st.sp + 2) st.fp sym)
    (hroom : 4 ≤ st.sp) (hvalues : st.sp + 2 ≤ stackSize)
    (hpass : ∀ t ts, Entered (step host code) p.Own p.Body st (t :: ts) →
      p.Passes host code (st.sp + 2) (fun _ => True) t)
    (hfits : (st.peek 0).ssubOverflow (st.peek 1) = false) :
    VisitsRange host code p li lvar (st.peek 1) (st.peek 0) st ↔
      (st.peek 1).toInt = 2 * (st.peek 0).toInt ∧ 0 ≤ (st.peek 0).toInt := by
  obtain ⟨s, hs, hops⟩ := @shows_bounds _ st
  obtain ⟨s₁, hinit, hops₁⟩ := run_rangeSetup p.base hlast hops (by omega) hfits
  rw [← meet_iff (rangeFits_iff.mpr hfits)]
  generalize st.peek 0 = b at *
  generalize st.peek 1 = a at *
  have hfirst : s₁.operands = rangeSlots li (BitVec.ofNat 64 0) (BitVec.ofInt 64 (rangeSign a b))
      (BitVec.ofInt 64 (rangeItem a b 0)) (overEnd b 0) := by
    rw [hops₁, getSign_sub hfits, rangeItem_zero, BitVec.ofInt_toInt]
    rfl
  -- With no end before turn `n`, the body is entered so often at least.
  have hturns := fun n => over_turns base base' (n := n) (a := a) (b := b) hsyms href
    (congrArg (· + 1) hslot) hlvar (by omega)
  -- With an end at turn `n` it is entered so often.
  have hends : ∀ n, (∀ k < n, BitVec.ofNat 64 k ≠ BitVec.ofInt 64 (rangeItem a b k)) →
      BitVec.ofNat 64 n = BitVec.ofInt 64 (rangeItem a b n) → _ := fun n hne heq =>
    hlies.rounds hvalues hs hpc hinit hfirst trivial (hturns n hne) (by
      intro s hops _
      obtain ⟨s', hhead, hops', -⟩ := run_rangeHead_over base hsyms href
        (congrArg (· + 1) hslot) hops (by omega)
      exact ⟨s', _, _, hhead, hops', by simp [heq, ofBool], rfl⟩) hpass
  constructor
  · rintro ⟨ts, st', hrounds, hlen, -⟩
    have hle : ∀ n, (∀ k < n, BitVec.ofNat 64 k ≠ BitVec.ofInt 64 (rangeItem a b k)) →
        n ≤ rangeLength a b := by
      intro n hne
      rw [← hlen]
      exact hlies.turns_le hvalues hs hpc hinit hfirst trivial (hturns n hne) hpass hrounds
    have hmeet : ∃ n, BitVec.ofNat 64 n = BitVec.ofInt 64 (rangeItem a b n) := by
      by_contra hnone
      have hle' := hle (rangeLength a b + 1) fun k _ heq => hnone ⟨k, heq⟩
      omega
    -- The first turn at which index and number meet is the last one.
    obtain ⟨ts', st'', hrounds', hlen', -⟩ :=
      hends (Nat.find hmeet) (fun k hk => Nat.find_min hmeet hk) (Nat.find_spec hmeet)
    obtain ⟨rfl, -⟩ := hrounds.unique hrounds'
    have hfind : Nat.find hmeet = rangeLength a b := hlen'.symm.trans hlen
    refine ⟨?_, fun k hk => Nat.find_min hmeet (hfind ▸ hk)⟩
    rw [← hfind, Nat.find_spec hmeet, hfind, rangeItem_length, BitVec.ofInt_toInt]
  · rintro ⟨hend, hne⟩
    have heq : BitVec.ofNat 64 (rangeLength a b) =
        BitVec.ofInt 64 (rangeItem a b (rangeLength a b)) := by
      rw [hend, rangeItem_length, BitVec.ofInt_toInt]
    obtain ⟨ts, st', hrounds, hlen, hall, hpc', hsp'⟩ := hends _ hne heq
    refine ⟨ts, st', hrounds, hlen, fun k t ht => ?_, hpc', hsp'⟩
    obtain ⟨s', hs', hnumber, hfour, hix⟩ := hall k t ht
    have hk : k < rangeLength a b := by
      rw [← hlen]
      exact (List.getElem?_eq_some_iff.mp ht).1
    constructor
    · rw [Shows.symValue_eq hs' hlvar, hnumber, toInt_rangeItem hk]
    · intro sym hsym
      rw [hsyms] at hsym
      rw [List.mem_singleton.mp hsym]
      have hsp := hs'.sp_add
      show t.stack (t.fp - off) = _
      rw [hs'.fp, hslot, show st.sp + 1 = t.sp + 3 by omega]
      exact hs'.operand 3 _ hix

end

/-- **The loop visits its range exactly when** the difference of the bounds is an integer of 64 bits
and, where its index lies in the slot of the end, the range is `2 * b` to `b`. -/
theorem visitsRange_iff {u : CodeUnit} {site : LoopSite}
    (hsite : site ∈ u.sites) (hloop : site.loop = .forRange li lvar lo hi body)
    (hplaces : site.Places u.inFunction li lvar) (hsmall : u.Small)
    (hready : Ready ctx env scope loops (Stmt.forRange li lvar lo hi body).bound)
    (hscoped : (Stmt.forRange li lvar lo hi body).Scoped scope loops)
    (hcode : BlockAt code ctx.counter
      ((genStmt (.forRange li lvar lo hi body) ctx).instructions.drop ctx.counter))
    (hpc : st.pc = (rangePlace ctx.counter li lvar lo hi body).base)
    (hbelow : site.Below u st) (hrefs : ∀ sym ∈ li.syms lvar, Refers host st.fp sym)
    (hroom : 4 ≤ st.sp) (hvalues : st.sp + 2 ≤ stackSize)
    (hpass : ∀ t ts, Entered (step host code) (rangePlace ctx.counter li lvar lo hi body).Own
      (rangePlace ctx.counter li lvar lo hi body).Body st (t :: ts) →
      (rangePlace ctx.counter li lvar lo hi body).Passes host code (st.sp + 2) (fun _ => True) t) :
    VisitsRange host code (rangePlace ctx.counter li lvar lo hi body) li lvar (st.peek 1)
      (st.peek 0) st ↔
      RangeFits (st.peek 1) (st.peek 0) ∧ (Overlaps (li.syms lvar) st →
        (st.peek 1).toInt = 2 * (st.peek 0).toInt ∧ 0 ≤ (st.peek 0).toInt) := by
  have hlies := range_lies hready hscoped hcode
  generalize rangePlace ctx.counter li lvar lo hi body = p at hlies hpc hpass ⊢
  have hplaced := range_placed hsite hloop hplaces hsmall hbelow hrefs
  rw [rangeFits_iff]
  cases hover : (st.peek 0).ssubOverflow (st.peek 1) with
  | true =>
    have hhalt : Rounds (step host code) p.Own p.Body st [] (.halt .undefined) :=
      range_overflow hlies hpc hroom hvalues hover
    constructor
    · rintro ⟨ts, st', hrounds, -⟩
      cases (hrounds.unique hhalt).2
    · exact fun h => absurd h.1 Bool.true_eq_false.mp
  | false =>
    by_cases hoverlap : Overlaps (li.syms lvar) st
    · obtain ⟨off, hsyms, hslot⟩ := hplaced.covers hoverlap
      have href : Refers host st.fp (.stack off) :=
        hrefs _ (List.mem_cons_of_mem _ (List.mem_append_left _ (by rw [hsyms]; simp)))
      rw [visitsRange_over_iff hlies hpc hsyms href hslot hplaced.number hplaced.last hroom hvalues
        hpass hover]
      exact ⟨fun h => ⟨rfl, fun _ => h⟩, fun h => h.2 hoverlap⟩
    · exact ⟨fun _ => ⟨rfl, fun h => absurd h hoverlap⟩, fun _ =>
        visitsRange_of_vars hlies hpc (hplaced.vars hoverlap) hroom hvalues hpass hover⟩

end

/-! ## An empty loop -/

/-- `for x in a to b { }`. -/
def emptyRange (a b : Word) : Stmt :=
  .forRange { branchInfo := 0 } (.stack 2) (Node.simpleLit a).exprCode
    (Node.simpleLit b).exprCode .skip

/-- The loop in a function with one local. -/
def emptyRangeUnit (a b : Word) : CodeUnit :=
  .function CodeUnit.smallFunction (fun _ => { functionScope := true }) 0 (emptyRange a b)

def emptyRangeSite (a b : Word) : LoopSite := ⟨emptyRange a b, [], [⟨.lvar1, true, 2⟩], 0⟩

def emptyRangePlace (a b : Word) : LoopPlace :=
  rangePlace 0 { branchInfo := 0 } (.stack 2) (Node.simpleLit a).exprCode
    (Node.simpleLit b).exprCode .skip

def emptyRangeState (a b : Word) : VmState Unit :=
  { sampleState with pc := 2, stack := fun slot => if slot = 10 then b else a }

/-- The sample loop may be compiled in the empty context. -/
theorem emptyRange_ready (a b : Word) :
    Ready {} ⟨fun _ => 0, fun _ => 0, fun _ => 0⟩ [] [] (emptyRange a b).bound :=
  ready_alone (List.nodup_singleton 0)

/-- The sample loop is a loop of the sample unit. -/
theorem emptyRange_site (a b : Word) : emptyRangeSite a b ∈ (emptyRangeUnit a b).sites :=
  List.mem_cons_self

/-- The sample loop's variable lies where the frame layout puts it. -/
theorem emptyRange_places (a b : Word) :
    (emptyRangeSite a b).Places true { branchInfo := 0 } (.stack 2) :=
  ⟨rfl, rfl, rfl, rfl, rfl⟩

/-- The sample unit is within the size limits. -/
theorem emptyRange_small (a b : Word) : (emptyRangeUnit a b).Small := by
  show 2 + 2 < 2 ^ 31
  decide

/-- The frame of the sample state lies below its operands. -/
theorem emptyRange_below (a b : Word) :
    (emptyRangeSite a b).Below (emptyRangeUnit a b) (emptyRangeState a b) := by
  show 10 + 2 + 0 + 2 ≤ 20
  decide

theorem visitsRange_emptyRange : VisitsRange oneVariable (genStmt (emptyRange 0 2) {}).instructions
    (emptyRangePlace 0 2) { branchInfo := 0 } (.stack 2) 0 2 (emptyRangeState 0 2) :=
  (visitsRange_iff (emptyRange_site 0 2) rfl (emptyRange_places 0 2) (emptyRange_small 0 2)
    (emptyRange_ready 0 2) trivial (blockAt_alone (emptyRange 0 2)) rfl (emptyRange_below 0 2)
    (fun _ => oneVariable_refers) (by decide) (by decide) fun _ _ h =>
      LoopPlace.passes_empty rfl h.inside).mpr
    ⟨by constructor <;> decide, fun h => absurd h (oneVariable_apart _)⟩

/-- `for x in -1 to 9223372036854775807 { }`: the difference of the bounds overflows. -/
theorem not_visitsRange_emptyRange : ¬ VisitsRange oneVariable
    (genStmt (emptyRange (-1) (intMin - 1)) {}).instructions (emptyRangePlace (-1) (intMin - 1))
    { branchInfo := 0 } (.stack 2) (-1) (intMin - 1) (emptyRangeState (-1) (intMin - 1)) := by
  have hlies := range_lies (emptyRange_ready (-1) (intMin - 1)) trivial
    (blockAt_alone (emptyRange (-1) (intMin - 1)))
  have hhalt : Rounds (step oneVariable _) _ _ (emptyRangeState (-1) (intMin - 1)) []
      (.halt .undefined) := range_overflow hlies rfl (by decide) (by decide) (by decide)
  rintro ⟨ts, st', hrounds, -⟩
  cases (hrounds.unique hhalt).2

end N00b.Codegen
