import N00b.Codegen.Depth

/-!
# Entry points

`Stmt.entries` says where the loops of a statement begin. These are the entry points that the
generator has put down in the records of the loops.
-/

namespace N00b.Codegen

open N00b.Vm

def GenCtx.entryOf (ctx : GenCtx) (c : Nat) : Nat := (ctx.controls c).entryIp

/-- Entry points put down one after the other. -/
def setEntries (es : List Entry) (f : Nat → Nat) : Nat → Nat :=
  es.foldl (fun f e => Function.update f e.record e.ip) f

theorem setEntries_of_not_mem {es : List Entry} {c : Nat} (h : c ∉ es.map (·.record))
    (f : Nat → Nat) : setEntries es f c = f c := by
  induction es generalizing f with
  | nil => rfl
  | cons e es ih =>
    rw [List.map_cons, List.mem_cons, not_or] at h
    show setEntries es (Function.update f e.record e.ip) c = f c
    rw [ih h.2, Function.update_of_ne h.1]

/-- An entry is set where its loop begins. -/
theorem setEntries_of_mem {es : List Entry} {e : Entry} (hnodup : (es.map (·.record)).Nodup)
    (he : e ∈ es) (f : Nat → Nat) : setEntries es f e.record = e.ip := by
  induction es generalizing f with
  | nil => cases he
  | cons e' es ih =>
    rw [List.map_cons, List.nodup_cons] at hnodup
    show setEntries es (Function.update f e'.record e'.ip) e.record = e.ip
    rcases List.mem_cons.mp he with rfl | he
    · rw [setEntries_of_not_mem hnodup.1, Function.update_self]
    · exact ih hnodup.2 he _

/-- The generator emitted `n` instructions and put down the entry points `es`. -/
structure Sets (ctx ctx' : GenCtx) (n : Nat) (es : List Entry) : Prop where
  counter : ctx'.counter = ctx.counter + n
  entryOf : ctx'.entryOf = setEntries es ctx.entryOf

namespace Sets

variable {ctx ctx' ctx'' : GenCtx} {n m : Nat} {es es' : List Entry}

protected theorem refl (ctx : GenCtx) : Sets ctx ctx 0 [] := ⟨rfl, rfl⟩

/-- The entries of two steps are set one after the other. -/
theorem trans (h : Sets ctx ctx' n es) (h' : Sets ctx' ctx'' m es') :
    Sets ctx ctx'' (n + m) (es ++ es') where
  counter := by rw [h'.counter, h.counter, Nat.add_assoc]
  entryOf := by rw [h'.entryOf, h.entryOf, setEntries, setEntries, setEntries, List.foldl_append]

theorem step (h : Sets ctx ctx' n es) (h' : Sets ctx' ctx'' m []) : Sets ctx ctx'' (n + m) es := by
  have htrans := h.trans h'
  rwa [List.append_nil] at htrans

theorem cast (h : Sets ctx ctx' n es) (hn : n = m) : Sets ctx ctx' m es := hn ▸ h

end Sets

theorem sets_emit (i : Instr) (ctx : GenCtx) : Sets ctx (emit i ctx) 1 [] :=
  ⟨List.length_append, rfl⟩

/-- Pieces set no entries. -/
theorem sets_genPieces (ps : List Piece) (ctx : GenCtx) :
    Sets ctx (genPieces ps ctx) (sizeOf ps) [] := by
  have hlays := lays_genPieces [] 0 0 ps ctx
  refine ⟨by rw [hlays.counter, size_line], ?_⟩
  funext c
  exact hlays.entryIp List.not_mem_nil

theorem sets_genExpr (e : ExprCode) (ctx : GenCtx) : Sets ctx (genExpr e ctx) e.size [] :=
  sets_genPieces [.expr e] ctx

theorem sets_genFinishJump (toPatch : Option Nat) (ctx : GenCtx) :
    Sets ctx (genFinishJump toPatch ctx) 0 [] := by
  cases toPatch with
  | none => exact Sets.refl ctx
  | some ix => exact ⟨List.length_modify _ _ _, rfl⟩

theorem sets_genFinishJumps (jumps : List (Option Nat)) (ctx : GenCtx) :
    Sets ctx (genFinishJumps jumps ctx) 0 [] := by
  rw [genFinishJumps_eq]
  exact ⟨counter_patchJumps _ _ _, rfl⟩

/-- Patching sets none. -/
theorem sets_genApplyWaitingPatches (c : Nat) (ctx : GenCtx) :
    Sets ctx (genApplyWaitingPatches c ctx) 0 [] := by
  rw [genApplyWaitingPatches_eq]
  refine ⟨length_patchAll _ _ _, ?_⟩
  funext c'
  show (Function.update ctx.controls c _ c').entryIp = (ctx.controls c').entryIp
  by_cases hc : c' = c
  · subst hc
    rw [Function.update_self]
  · rw [Function.update_of_ne hc]

/-- **The entry of a loop** is set at the counter. -/
theorem sets_setLoopEntryPoint (c : Nat) (d : Int) (ctx : GenCtx) :
    Sets ctx (setLoopEntryPoint c ctx) 0 [⟨c, ctx.counter, d⟩] := by
  refine ⟨rfl, ?_⟩
  funext c'
  show (Function.update ctx.controls c _ c').entryIp = Function.update ctx.entryOf c ctx.counter c'
  by_cases hc : c' = c
  · subst hc
    rw [Function.update_self, Function.update_self]
  · rw [Function.update_of_ne hc, Function.update_of_ne hc]
    rfl

theorem sets_awaitPatch (ji : JumpInfo) (ix : Nat) (ctx : GenCtx) :
    Sets ctx (awaitPatch ji ix ctx) 0 [] := by
  unfold awaitPatch
  split
  · exact Sets.refl ctx
  · refine ⟨rfl, ?_⟩
    funext c'
    show (Function.update ctx.controls _ _ c').entryIp = (ctx.controls c').entryIp
    rename_i c _
    by_cases hc : c' = c
    · subst hc
      rw [Function.update_self]
    · rw [Function.update_of_ne hc]

/-- A jump is one instruction more. -/
theorem sets_genJumpRaw (ji : JumpInfo) (op : JumpOp) (pop : Bool) (h : pop = true ∨ op = .j)
    (ctx : GenCtx) : Sets ctx (genJumpRaw ji op pop ctx).1 1 [] := by
  have hdup : (!pop && decide (op ≠ .j)) = false := by
    rcases h with rfl | rfl
    · rfl
    · simp
  simp only [genJumpRaw, hdup, Bool.false_eq_true, if_false]
  split
  · exact sets_emit _ ctx
  · exact (sets_emit _ ctx).step (sets_awaitPatch ji _ _)

theorem sets_genJ (ji : JumpInfo) (ctx : GenCtx) : Sets ctx (genJ ji ctx) 1 [] :=
  sets_genJumpRaw ji .j false (.inr rfl) ctx

/-- A jump over code sets what that code does. -/
theorem sets_jmpTemplate {ctx : GenCtx} {n : Nat} {es : List Entry} (op : JumpOp)
    (userCode : GenCtx → GenCtx) (h : Sets (emit (op.instr 0) ctx) (userCode (emit (op.instr 0) ctx)) n es) :
    Sets ctx (jmpTemplate op true userCode ctx) (1 + n) es := by
  have hraw := genJumpRaw_local op ctx true (.inl rfl)
  rw [jmpTemplate, hraw]
  exact ((sets_emit _ ctx).trans h).step (sets_genFinishJump _ _)

theorem sets_genCondition (t : Builtin) (c : Condition) (ctx : GenCtx) :
    Sets ctx (genCondition t c ctx) (c.size t) [] := by
  have hlays := genCondition_lays [] t 0 c ctx
  refine ⟨by rw [hlays.counter, c.size_layout], ?_⟩
  funext c'
  exact hlays.entryIp List.not_mem_nil

theorem sets_genConditions (t : Builtin) (cs : List Condition) (ctx : GenCtx) :
    Sets ctx (genConditions t cs ctx).1 (conditionsSize t cs) [] := by
  induction cs generalizing ctx with
  | nil => exact Sets.refl ctx
  | cons c cs ih =>
    exact ((sets_genCondition t c ctx).step (sets_genJumpRaw {} .jnz true (.inl rfl) _)).step (ih _)

/-- The arms of a conditional set what they hold. -/
theorem sets_arms {body : Stmt} {rest : Chain} {d : Int} (test : ExprCode) (ctx : GenCtx)
    (hbody : ∀ ctx, Sets ctx (genStmt body ctx) body.size (body.entries ctx.counter d))
    (hrest : ∀ ctx, Sets ctx (genChain rest ctx).1 rest.size (rest.entries ctx.counter d)) :
    let r := genJumpRaw {} .jz true (genExpr test ctx)
    let e := genJumpRaw {} .j false (genStmt body r.1)
    let start := ctx.counter + test.size + 1
    Sets ctx (genChain rest (genFinishJump r.2 e.1)).1
      (test.size + 1 + body.size + 1 + rest.size)
      (body.entries start d ++ rest.entries (start + body.size + 1) d) := by
  intro r e start
  have htest := (sets_genExpr test ctx).step (sets_genJumpRaw {} .jz true (.inl rfl) _)
  have hb := hbody r.1
  rw [htest.counter, ← Nat.add_assoc] at hb
  have harm := ((htest.trans hb).step (sets_genJumpRaw {} .j false (.inr rfl) _)).step
    (sets_genFinishJump r.2 e.1)
  have hr := hrest (genFinishJump r.2 e.1)
  rw [harm.counter] at hr
  have hnext : ctx.counter + (test.size + 1 + body.size + 1) = start + body.size + 1 := by omega
  rw [← hnext]
  exact harm.trans hr

/-- A loop sets its entry and those inside. -/
theorem sets_loop {body : Stmt} {d : Int} (op : JumpOp) (c : Nat) (init head step tail pop : List Piece)
    (ctx : GenCtx)
    (hbody : ∀ ctx, Sets ctx (genStmt body ctx) body.size (body.entries ctx.counter d)) :
    let entry := ctx.counter + sizeOf init
    Sets ctx
      (genPieces pop (genApplyWaitingPatches c (jmpTemplate op true
        (fun ctx => genJ { linkedControlStructure := some c, top := true }
          (genPieces tail (genStmt body (genPieces step ctx))))
        (genPieces head (setLoopEntryPoint c (genPieces init ctx))))))
      (sizeOf init + sizeOf head + 1 + sizeOf step + body.size + sizeOf tail + 1 + sizeOf pop)
      (⟨c, entry, d⟩ :: body.entries (entry + sizeOf head + 1 + sizeOf step) d) := by
  intro entry
  have hinit := sets_genPieces init ctx
  have hset := sets_setLoopEntryPoint c d (genPieces init ctx)
  rw [hinit.counter] at hset
  have hhead := (hinit.trans hset).step (sets_genPieces head _)
  generalize genPieces head (setLoopEntryPoint c (genPieces init ctx)) = ctx1 at hhead
  have hjump := sets_emit (op.instr 0) ctx1
  have hstep := sets_genPieces step (emit (op.instr 0) ctx1)
  have hb := hbody (genPieces step (emit (op.instr 0) ctx1))
  have hstart : ctx.counter + (sizeOf init + 0 + sizeOf head) + 1 + sizeOf step =
      entry + sizeOf head + 1 + sizeOf step := by omega
  rw [hstep.counter, hjump.counter, hhead.counter, hstart] at hb
  have htemplate := sets_jmpTemplate op (fun ctx =>
    genJ { linkedControlStructure := some c, top := true }
      (genPieces tail (genStmt body (genPieces step ctx))))
    (((hstep.trans hb).step (sets_genPieces tail _)).step (sets_genJ _ _))
  have hall := ((hhead.trans htemplate).step (sets_genApplyWaitingPatches c _)).step
    (sets_genPieces pop _)
  exact hall.cast (by omega)

mutual

/-- **Every statement sets** the entries of its loops where they begin. -/
theorem Stmt.sets (d : Int) :
    ∀ (s : Stmt) (ctx : GenCtx), Sets ctx (genStmt s ctx) s.size (s.entries ctx.counter d)
  | .skip, ctx => Sets.refl ctx
  | .seq first rest, ctx => by
    have hrest := rest.sets d (genStmt first ctx)
    rw [(first.sets d ctx).counter] at hrest
    exact (first.sets d ctx).trans hrest
  | .expression e, ctx => sets_genExpr e ctx
  | .assign a, ctx => sets_genPieces a.pieces ctx
  | .cond test body rest, ctx => by
    exact (sets_arms test ctx (body.sets d) (rest.sets d)).step (sets_genFinishJumps _ _)
  | .while li test body, ctx => by
    have hloop := sets_loop .jz li.branchInfo (li.ifIx (.pushImm 0)) (whileHead li test) []
      (indexVarIncrement li) (li.ifIx .pop) ctx (body.sets (d + li.ixSlots))
    rw [genStmt_while]
    exact hloop
  | .forRange li lvar lo hi body, ctx => by
    have hloop := sets_loop .jnz li.branchInfo (rangeInit li lo hi) (rangeHead li)
      (rangeStep li lvar) [] [.op (.moveSp (-3))] ctx (body.sets (d + 3 + li.ixSlots))
    rw [genStmt_forRange]
    exact hloop
  | .forIn li lvar1 lvar2 container body, ctx => by
    have hloop := sets_loop .jnz li.branchInfo (containerInit li container) [.op .gteNoPop]
      (containerStep li lvar1 lvar2) [] [.op (.moveSp (-5))] ctx (body.sets (d + 4))
    rw [genStmt_forIn]
    exact hloop
  | .switch branchInfo label value t cases, ctx => by
    have hlabel := sets_genPieces (labelPieces label) ctx
    rw [← genLabel_eq] at hlabel
    have hvalue := hlabel.step (sets_genExpr value _)
    have hcases := cases.sets branchInfo t true d (genExpr value (genLabel label ctx))
    rw [hvalue.counter, ← Nat.add_assoc] at hcases
    exact (hvalue.trans hcases).step (sets_genApplyWaitingPatches _ _)
  | .typeof branchInfo label sym cases, ctx => by
    have hlabel := sets_genPieces (labelPieces label) ctx
    rw [← genLabel_eq] at hlabel
    have hvalue := hlabel.step (sets_genPieces [.op (symLoad sym), .op .pushObjType] _)
    have hcases := cases.sets branchInfo .typespec false d
      (genPieces [.op (symLoad sym), .op .pushObjType] (genLabel label ctx))
    rw [hvalue.counter, ← Nat.add_assoc] at hcases
    exact (hvalue.trans hcases).step (sets_genApplyWaitingPatches _ _)
  | .break c, ctx => sets_genJ _ ctx
  | .continue c, ctx => sets_genJ _ ctx

theorem Chain.sets (d : Int) :
    ∀ (s : Chain) (ctx : GenCtx), Sets ctx (genChain s ctx).1 s.size (s.entries ctx.counter d)
  | .none, ctx => Sets.refl ctx
  | .else body, ctx => body.sets d ctx
  | .elif test body rest, ctx => by
    exact sets_arms test ctx (body.sets d) (rest.sets d)

theorem Cases.sets (c : Nat) (t : Builtin) (popForElse : Bool) (d : Int) :
    ∀ (s : Cases) (ctx : GenCtx), Sets ctx (genCases c t popForElse s ctx) (s.size t popForElse)
      (s.entries t popForElse ctx.counter d)
  | .none, ctx => Sets.refl ctx
  | .else body, ctx => by
    cases popForElse with
    | false => exact (body.sets d ctx).cast (Nat.zero_add _).symm
    | true =>
      have hbody := body.sets d (emit .pop ctx)
      rw [(sets_emit .pop ctx).counter] at hbody
      exact (sets_emit .pop ctx).trans hbody
  | .case conditions body rest, ctx => by
    have hstart := ((sets_genConditions t conditions ctx).step
      (sets_genJumpRaw {} .j false (.inr rfl) _)).step
      (sets_genFinishJumps (genConditions t conditions ctx).2 _)
    have hbody := body.sets d (genFinishJumps (genConditions t conditions ctx).2
      (genJumpRaw {} .j false (genConditions t conditions ctx).1).1)
    rw [hstart.counter] at hbody
    have hcase := ((hstart.trans hbody).step
      (sets_genJ { linkedControlStructure := some c } _)).step (sets_genFinishJump
        (genJumpRaw {} .j false (genConditions t conditions ctx).1).2 _)
    have hall := hcase.trans (rest.sets c t popForElse d _)
    rw [hcase.counter] at hall
    simp only [Nat.add_zero, ← Nat.add_assoc, List.nil_append] at hall
    exact hall

end

/-! ## Every loop has an entry point -/

mutual

/-- They are among the records that the statement binds. -/
theorem Stmt.entries_subset (base : Nat) (d : Int) :
    ∀ s : Stmt, ((s.entries base d).map (·.record)).Sublist s.bound
  | .skip | .expression _ | .assign _ | .break _ | .continue _ => List.Sublist.slnil
  | .seq first rest => by
    rw [Stmt.entries, List.map_append]
    exact (first.entries_subset base d).append (rest.entries_subset _ d)
  | .cond test body rest => by
    rw [Stmt.entries, List.map_append]
    exact (body.entries_subset _ d).append (rest.entries_subset _ d)
  | .while li test body => (body.entries_subset _ _).cons_cons _
  | .forRange li lvar lo hi body => (body.entries_subset _ _).cons_cons _
  | .forIn li lvar1 lvar2 container body => (body.entries_subset _ _).cons_cons _
  | .switch branchInfo label value t cases => (cases.entries_subset t true _ d).cons _
  | .typeof branchInfo label sym cases => (cases.entries_subset .typespec false _ d).cons _

theorem Chain.entries_subset (base : Nat) (d : Int) :
    ∀ s : Chain, ((s.entries base d).map (·.record)).Sublist s.bound
  | .none => List.Sublist.slnil
  | .else body => body.entries_subset base d
  | .elif test body rest => by
    rw [Chain.entries, List.map_append]
    exact (body.entries_subset _ d).append (rest.entries_subset _ d)

theorem Cases.entries_subset (t : Builtin) (popForElse : Bool) (base : Nat) (d : Int) :
    ∀ s : Cases, ((s.entries t popForElse base d).map (·.record)).Sublist s.bound
  | .none => List.Sublist.slnil
  | .else body => body.entries_subset _ d
  | .case conditions body rest => by
    rw [Cases.entries, List.map_append]
    exact (body.entries_subset _ d).append (rest.entries_subset t popForElse _ d)

end

/-- So each entry is where its record says. -/
theorem Stmt.entryIp_of_mem {s : Stmt} {ctx : GenCtx} {d : Int} {e : Entry}
    (hnodup : s.bound.Nodup) (he : e ∈ s.entries ctx.counter d) :
    ((genStmt s ctx).controls e.record).entryIp = e.ip := by
  have hset : (genStmt s ctx).entryOf e.record = e.ip := by
    rw [(s.sets d ctx).entryOf]
    exact setEntries_of_mem (hnodup.sublist (s.entries_subset ctx.counter d)) he _
  exact hset

end N00b.Codegen
