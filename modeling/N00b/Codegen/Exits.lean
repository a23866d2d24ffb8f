import N00b.Codegen.EntryPoints

/-!
# Exits

`Stmt.exits` says where the loops, switches and typeofs of a statement end: behind the last
instruction of their last part. These are the exits that the generator has put down in their
records.
-/

namespace N00b.Codegen

open N00b.Vm

/-- The end of a loop, `switch` or `typeof`. -/
structure Exit where
  record : Nat
  ip : Nat

mutual

/-- The ends of what is in a statement that starts at `base`, from inside out. -/
def Stmt.exits (base : Nat) : Stmt → List Exit
  | .skip | .expression _ | .assign _ | .break _ | .continue _ => []
  | .seq first rest => first.exits base ++ rest.exits (base + first.size)
  | .cond test body rest =>
    body.exits (base + test.size + 1) ++ rest.exits (base + test.size + 1 + body.size + 1)
  | .while li test body =>
    let start := base + sizeOf (li.ifIx (.pushImm 0)) + sizeOf (whileHead li test) + 1
    body.exits start ++ [⟨li.branchInfo, start + body.size + sizeOf (indexVarIncrement li) + 1⟩]
  | .forRange li lvar lo hi body =>
    let start :=
      base + sizeOf (rangeInit li lo hi) + sizeOf (rangeHead li) + 1 + sizeOf (rangeStep li lvar)
    body.exits start ++ [⟨li.branchInfo, start + body.size + 1⟩]
  | .forIn li lvar1 lvar2 container body =>
    let start :=
      base + sizeOf (containerInit li container) + 1 + 1 + sizeOf (containerStep li lvar1 lvar2)
    body.exits start ++ [⟨li.branchInfo, start + body.size + 1⟩]
  | .switch branchInfo label value t cases =>
    let start := base + sizeOf (labelPieces label) + value.size
    cases.exits t true start ++ [⟨branchInfo, start + cases.size t true⟩]
  | .typeof branchInfo label _ cases =>
    let start := base + sizeOf (labelPieces label) + 2
    cases.exits .typespec false start ++ [⟨branchInfo, start + cases.size .typespec false⟩]

def Chain.exits (base : Nat) : Chain → List Exit
  | .none => []
  | .else body => body.exits base
  | .elif test body rest =>
    body.exits (base + test.size + 1) ++ rest.exits (base + test.size + 1 + body.size + 1)

def Cases.exits (t : Builtin) (popForElse : Bool) (base : Nat) : Cases → List Exit
  | .none => []
  | .else body => body.exits (base + (if popForElse then 1 else 0))
  | .case conditions body rest =>
    let start := base + conditionsSize t conditions + 1
    body.exits start ++ rest.exits t popForElse (start + body.size + 1)

end

def setExits (xs : List Exit) (f : Nat → Nat) : Nat → Nat :=
  xs.foldl (fun f x => Function.update f x.record x.ip) f

theorem setExits_of_not_mem {xs : List Exit} {c : Nat} (h : c ∉ xs.map (·.record))
    (f : Nat → Nat) : setExits xs f c = f c := by
  induction xs generalizing f with
  | nil => rfl
  | cons x xs ih =>
    rw [List.map_cons, List.mem_cons, not_or] at h
    show setExits xs (Function.update f x.record x.ip) c = f c
    rw [ih h.2, Function.update_of_ne h.1]

/-- An exit is set where its statement ends. -/
theorem setExits_of_mem {xs : List Exit} {x : Exit} (hnodup : (xs.map (·.record)).Nodup)
    (hx : x ∈ xs) (f : Nat → Nat) : setExits xs f x.record = x.ip := by
  induction xs generalizing f with
  | nil => cases hx
  | cons y xs ih =>
    rw [List.map_cons, List.nodup_cons] at hnodup
    show setExits xs (Function.update f y.record y.ip) x.record = x.ip
    rcases List.mem_cons.mp hx with rfl | hx
    · rw [setExits_of_not_mem hnodup.1, Function.update_self]
    · exact ih hnodup.2 hx _

/-- The generator put down the exits `xs`. -/
def Closes (ctx ctx' : GenCtx) (xs : List Exit) : Prop :=
  ctx'.exitOf = setExits xs ctx.exitOf

namespace Closes

variable {ctx ctx' ctx'' : GenCtx} {xs ys : List Exit}

protected theorem refl (ctx : GenCtx) : Closes ctx ctx [] := rfl

/-- The exits of two steps are closed one after the other. -/
theorem trans (h : Closes ctx ctx' xs) (h' : Closes ctx' ctx'' ys) :
    Closes ctx ctx'' (xs ++ ys) := by
  unfold Closes
  rw [h', h, setExits, setExits, setExits, List.foldl_append]

theorem step (h : Closes ctx ctx' xs) (h' : Closes ctx' ctx'' []) : Closes ctx ctx'' xs := by
  have htrans := h.trans h'
  rwa [List.append_nil] at htrans

theorem after (h : Closes ctx ctx' []) (h' : Closes ctx' ctx'' xs) : Closes ctx ctx'' xs :=
  h.trans h'

end Closes

/-! ## Parts in which nothing ends -/

/-- What lays down code alone closes nothing. -/
theorem Lays.closes {ctx ctx' : GenCtx} {l : Layout} (h : Lays [] [] ctx ctx' l) :
    Closes ctx ctx' [] :=
  funext fun _ => h.exitOf List.not_mem_nil

theorem closes_emit (i : Instr) (ctx : GenCtx) : Closes ctx (emit i ctx) [] := rfl

theorem closes_genPieces (ps : List Piece) (ctx : GenCtx) : Closes ctx (genPieces ps ctx) [] :=
  (lays_genPieces [] 0 0 ps ctx).closes

theorem closes_genExpr (e : ExprCode) (ctx : GenCtx) : Closes ctx (genExpr e ctx) [] :=
  closes_genPieces [.expr e] ctx

theorem closes_genFinishJump (toPatch : Option Nat) (ctx : GenCtx) :
    Closes ctx (genFinishJump toPatch ctx) [] := by
  cases toPatch with
  | none => exact Closes.refl ctx
  | some ix => rfl

theorem closes_genFinishJumps (jumps : List (Option Nat)) (ctx : GenCtx) :
    Closes ctx (genFinishJumps jumps ctx) [] := by
  rw [genFinishJumps_eq]
  rfl

theorem closes_setLoopEntryPoint (c : Nat) (ctx : GenCtx) :
    Closes ctx (setLoopEntryPoint c ctx) [] := by
  funext c'
  show (Function.update ctx.controls c _ c').exitIp = (ctx.controls c').exitIp
  by_cases hc : c' = c
  · subst hc
    rw [Function.update_self]
  · rw [Function.update_of_ne hc]

theorem closes_awaitPatch (ji : JumpInfo) (ix : Nat) (ctx : GenCtx) :
    Closes ctx (awaitPatch ji ix ctx) [] := by
  unfold awaitPatch
  split
  · exact Closes.refl ctx
  next c _ =>
    funext c'
    show (Function.update ctx.controls _ _ c').exitIp = (ctx.controls c').exitIp
    by_cases hc : c' = c
    · subst hc
      rw [Function.update_self]
    · rw [Function.update_of_ne hc]

/-- A jump closes nothing. -/
theorem closes_genJumpRaw (ji : JumpInfo) (op : JumpOp) (pop : Bool) (ctx : GenCtx) :
    Closes ctx (genJumpRaw ji op pop ctx).1 [] := by
  have hdup : Closes ctx (if !pop && op ≠ .j then emit .dupTop ctx else ctx) [] := by
    split
    · exact closes_emit _ ctx
    · exact Closes.refl ctx
  unfold genJumpRaw
  dsimp only
  split
  · exact hdup.step (closes_emit _ _)
  · exact (hdup.step (closes_emit _ _)).step (closes_awaitPatch ji _ _)

theorem closes_genJ (ji : JumpInfo) (ctx : GenCtx) : Closes ctx (genJ ji ctx) [] :=
  closes_genJumpRaw ji .j false ctx

theorem closes_genConditions (t : Builtin) (cs : List Condition) (ctx : GenCtx) :
    Closes ctx (genConditions t cs ctx).1 [] := by
  induction cs generalizing ctx with
  | nil => exact Closes.refl ctx
  | cons c cs ih =>
    exact ((genCondition_lays [] t 0 c ctx).closes.step (closes_genJumpRaw {} .jnz true _)).step
      (ih _)

/-! ## Statements -/

/-- Applying the waiting patches closes the exit at the counter. -/
theorem closes_genApplyWaitingPatches (c : Nat) (ctx : GenCtx) :
    Closes ctx (genApplyWaitingPatches c ctx) [⟨c, ctx.counter⟩] := by
  rw [genApplyWaitingPatches_eq]
  funext c'
  show (Function.update ctx.controls c _ c').exitIp = Function.update ctx.exitOf c ctx.counter c'
  by_cases hc : c' = c
  · subst hc
    rw [Function.update_self, Function.update_self]
  · rw [Function.update_of_ne hc, Function.update_of_ne hc]
    rfl

/-- A jump over code closes what that code does. -/
theorem closes_jmpTemplate {ctx : GenCtx} {xs : List Exit} (op : JumpOp)
    (userCode : GenCtx → GenCtx)
    (h : Closes (emit (op.instr 0) ctx) (userCode (emit (op.instr 0) ctx)) xs) :
    Closes ctx (jmpTemplate op true userCode ctx) xs := by
  have hraw := genJumpRaw_local op ctx true (.inl rfl)
  rw [jmpTemplate, hraw]
  exact ((closes_emit _ ctx).after h).step (closes_genFinishJump _ _)

/-- The arms of a conditional close what they hold. -/
theorem closes_arms {body : Stmt} {rest : Chain} (test : ExprCode) (ctx : GenCtx)
    (hbody : ∀ ctx, Closes ctx (genStmt body ctx) (body.exits ctx.counter))
    (hrest : ∀ ctx, Closes ctx (genChain rest ctx).1 (rest.exits ctx.counter)) :
    let r := genJumpRaw {} .jz true (genExpr test ctx)
    let e := genJumpRaw {} .j false (genStmt body r.1)
    let start := ctx.counter + test.size + 1
    Closes ctx (genChain rest (genFinishJump r.2 e.1)).1
      (body.exits start ++ rest.exits (start + body.size + 1)) := by
  intro r e start
  have hstart := (sets_genExpr test ctx).step (sets_genJumpRaw {} .jz true (.inl rfl) _)
  have hnext := ((hstart.trans (body.sets 0 r.1)).step
    (sets_genJumpRaw {} .j false (.inr rfl) _)).step (sets_genFinishJump r.2 e.1)
  have htest := (closes_genExpr test ctx).step (closes_genJumpRaw {} .jz true _)
  have hb := hbody r.1
  rw [hstart.counter, ← Nat.add_assoc] at hb
  have harm := ((htest.after hb).step (closes_genJumpRaw {} .j false _)).step
    (closes_genFinishJump r.2 e.1)
  have hr := hrest (genFinishJump r.2 e.1)
  rw [hnext.counter] at hr
  have heq : ctx.counter + (test.size + 1 + body.size + 1) = start + body.size + 1 := by omega
  have hend := harm.trans hr
  rwa [Nat.add_zero, heq] at hend

/-- **A loop** closes its exit behind it. -/
theorem closes_loop {body : Stmt} (op : JumpOp) (c : Nat) (init head step tail pop : List Piece)
    (ctx : GenCtx)
    (hbody : ∀ ctx, Closes ctx (genStmt body ctx) (body.exits ctx.counter)) :
    let start := ctx.counter + sizeOf init + sizeOf head + 1 + sizeOf step
    Closes ctx
      (genPieces pop (genApplyWaitingPatches c (jmpTemplate op true
        (fun ctx => genJ { linkedControlStructure := some c, top := true }
          (genPieces tail (genStmt body (genPieces step ctx))))
        (genPieces head (setLoopEntryPoint c (genPieces init ctx))))))
      (body.exits start ++ [⟨c, start + body.size + sizeOf tail + 1⟩]) := by
  intro start
  have hhead := (((closes_genPieces init ctx).step (closes_setLoopEntryPoint c _)).step
    (closes_genPieces head _))
  have hcounter := ((sets_genPieces init ctx).trans (sets_setLoopEntryPoint c 0 _)).step
    (sets_genPieces head _)
  generalize genPieces head (setLoopEntryPoint c (genPieces init ctx)) = ctx1 at hhead hcounter
  have hbegin := (sets_emit (op.instr 0) ctx1).step (sets_genPieces step _)
  have hb := hbody (genPieces step (emit (op.instr 0) ctx1))
  have hstart : ctx.counter + (sizeOf init + 0 + sizeOf head) + (1 + sizeOf step) = start := by
    omega
  rw [hbegin.counter, hcounter.counter, hstart] at hb
  have htemplate := closes_jmpTemplate op (fun ctx =>
    genJ { linkedControlStructure := some c, top := true }
      (genPieces tail (genStmt body (genPieces step ctx))))
    ((((closes_genPieces step _).after hb).step (closes_genPieces tail _)).step (closes_genJ _ _))
  have hsize := sets_jmpTemplate op (fun ctx =>
    genJ { linkedControlStructure := some c, top := true }
      (genPieces tail (genStmt body (genPieces step ctx))))
    ((((sets_genPieces step (emit (op.instr 0) ctx1)).trans (body.sets 0 _)).step
      (sets_genPieces tail _)).step (sets_genJ _ _))
  have hexit := closes_genApplyWaitingPatches c (jmpTemplate op true (fun ctx =>
    genJ { linkedControlStructure := some c, top := true }
      (genPieces tail (genStmt body (genPieces step ctx)))) ctx1)
  have hstop : ctx.counter + (sizeOf init + 0 + sizeOf head) +
      (1 + (sizeOf step + body.size + sizeOf tail + 1)) =
        start + body.size + sizeOf tail + 1 := by
    omega
  rw [hsize.counter, hcounter.counter, hstop] at hexit
  exact ((hhead.after htemplate).trans hexit).step (closes_genPieces pop _)

mutual

/-- **Every statement closes** the exits of its loops and switches where they end. -/
theorem Stmt.closes :
    ∀ (s : Stmt) (ctx : GenCtx), Closes ctx (genStmt s ctx) (s.exits ctx.counter)
  | .skip, ctx => Closes.refl ctx
  | .seq first rest, ctx => by
    have hrest := rest.closes (genStmt first ctx)
    rw [(first.sets 0 ctx).counter] at hrest
    exact (first.closes ctx).trans hrest
  | .expression e, ctx => closes_genExpr e ctx
  | .assign a, ctx => closes_genPieces a.pieces ctx
  | .cond test body rest, ctx => by
    exact (closes_arms test ctx body.closes rest.closes).step (closes_genFinishJumps _ _)
  | .while li test body, ctx => by
    have hloop := closes_loop .jz li.branchInfo (li.ifIx (.pushImm 0)) (whileHead li test) []
      (indexVarIncrement li) (li.ifIx .pop) ctx body.closes
    rw [genStmt_while]
    exact hloop
  | .forRange li lvar lo hi body, ctx => by
    have hloop := closes_loop .jnz li.branchInfo (rangeInit li lo hi) (rangeHead li)
      (rangeStep li lvar) [] [.op (.moveSp (-3))] ctx body.closes
    rw [genStmt_forRange]
    exact hloop
  | .forIn li lvar1 lvar2 container body, ctx => by
    have hloop := closes_loop .jnz li.branchInfo (containerInit li container) [.op .gteNoPop]
      (containerStep li lvar1 lvar2) [] [.op (.moveSp (-5))] ctx body.closes
    rw [genStmt_forIn]
    exact hloop
  | .switch branchInfo label value t cases, ctx => by
    rw [genStmt, genLabel_eq]
    have hstart := (sets_genPieces (labelPieces label) ctx).step (sets_genExpr value _)
    have hlabel := (closes_genPieces (labelPieces label) ctx).step (closes_genExpr value _)
    generalize genExpr value (genPieces (labelPieces label) ctx) = ctx1 at hstart hlabel
    have hcases := cases.closes branchInfo t true ctx1
    have hexit := closes_genApplyWaitingPatches branchInfo (genCases branchInfo t true cases ctx1)
    rw [(cases.sets branchInfo t true 0 ctx1).counter] at hexit
    rw [hstart.counter, ← Nat.add_assoc] at hcases hexit
    exact (hlabel.after hcases).trans hexit
  | .typeof branchInfo label sym cases, ctx => by
    rw [genStmt, genLabel_eq]
    have hstart := (sets_genPieces (labelPieces label) ctx).step
      (sets_genPieces [.op (symLoad sym), .op .pushObjType] _)
    have hlabel := (closes_genPieces (labelPieces label) ctx).step
      (closes_genPieces [.op (symLoad sym), .op .pushObjType] _)
    change Closes ctx (genApplyWaitingPatches branchInfo (genCases branchInfo .typespec false cases
      (genPieces [.op (symLoad sym), .op .pushObjType] (genPieces (labelPieces label) ctx)))) _
    generalize genPieces [.op (symLoad sym), .op .pushObjType] (genPieces (labelPieces label) ctx) =
      ctx1 at hstart hlabel
    have hcases := cases.closes branchInfo .typespec false ctx1
    have hexit := closes_genApplyWaitingPatches branchInfo
      (genCases branchInfo .typespec false cases ctx1)
    rw [(cases.sets branchInfo .typespec false 0 ctx1).counter] at hexit
    rw [hstart.counter, ← Nat.add_assoc] at hcases hexit
    exact (hlabel.after hcases).trans hexit
  | .break c, ctx => closes_genJ _ ctx
  | .continue c, ctx => closes_genJ _ ctx

theorem Chain.closes :
    ∀ (s : Chain) (ctx : GenCtx), Closes ctx (genChain s ctx).1 (s.exits ctx.counter)
  | .none, ctx => Closes.refl ctx
  | .else body, ctx => body.closes ctx
  | .elif test body rest, ctx => by
    exact closes_arms test ctx body.closes rest.closes

theorem Cases.closes (c : Nat) (t : Builtin) (popForElse : Bool) :
    ∀ (s : Cases) (ctx : GenCtx), Closes ctx (genCases c t popForElse s ctx)
      (s.exits t popForElse ctx.counter)
  | .none, ctx => Closes.refl ctx
  | .else body, ctx => by
    cases popForElse with
    | false => exact body.closes ctx
    | true =>
      have hbody := body.closes (emit .pop ctx)
      rw [(sets_emit .pop ctx).counter] at hbody
      exact (closes_emit .pop ctx).after hbody
  | .case conditions body rest, ctx => by
    have hstart := ((closes_genConditions t conditions ctx).step
      (closes_genJumpRaw {} .j false _)).step
      (closes_genFinishJumps (genConditions t conditions ctx).2 _)
    have hbegin := ((sets_genConditions t conditions ctx).step
      (sets_genJumpRaw {} .j false (.inr rfl) _)).step
      (sets_genFinishJumps (genConditions t conditions ctx).2 _)
    generalize hctx : genFinishJumps (genConditions t conditions ctx).2
      (genJumpRaw {} .j false (genConditions t conditions ctx).1).1 = ctx1 at hstart hbegin
    have hbody := body.closes ctx1
    have hcase := ((hstart.after hbody).step
      (closes_genJ { linkedControlStructure := some c } _)).step (closes_genFinishJump
        (genJumpRaw {} .j false (genConditions t conditions ctx).1).2 _)
    have hnext := ((hbegin.trans (body.sets 0 ctx1)).step
      (sets_genJ { linkedControlStructure := some c } _)).step (sets_genFinishJump
        (genJumpRaw {} .j false (genConditions t conditions ctx).1).2 _)
    have hall := hcase.trans (rest.closes c t popForElse _)
    rw [hnext.counter, hbegin.counter] at hall
    simp only [Nat.add_zero, ← Nat.add_assoc] at hall
    rw [genCases, hctx]
    exact hall

end

/-! ## Everything that is bound has an exit -/

theorem exits_perm_of_body {xs : List Exit} {x : Exit} {bound : List Nat}
    (h : (xs.map (·.record)).Perm bound) :
    ((xs ++ [x]).map (·.record)).Perm (x.record :: bound) := by
  rw [List.map_append]
  exact (List.perm_append_singleton _ _).trans (h.cons _)

mutual

/-- They are the exits that the statement binds. -/
theorem Stmt.exits_perm (base : Nat) :
    ∀ s : Stmt, ((s.exits base).map (·.record)).Perm s.bound
  | .skip | .expression _ | .assign _ | .break _ | .continue _ => List.Perm.nil
  | .seq first rest => by
    rw [Stmt.exits, List.map_append]
    exact (first.exits_perm base).append (rest.exits_perm _)
  | .cond test body rest => by
    rw [Stmt.exits, List.map_append]
    exact (body.exits_perm _).append (rest.exits_perm _)
  | .while li test body => exits_perm_of_body (body.exits_perm _)
  | .forRange li lvar lo hi body => exits_perm_of_body (body.exits_perm _)
  | .forIn li lvar1 lvar2 container body => exits_perm_of_body (body.exits_perm _)
  | .switch branchInfo label value t cases => exits_perm_of_body (cases.exits_perm t true _)
  | .typeof branchInfo label sym cases => exits_perm_of_body (cases.exits_perm .typespec false _)

theorem Chain.exits_perm (base : Nat) :
    ∀ s : Chain, ((s.exits base).map (·.record)).Perm s.bound
  | .none => List.Perm.nil
  | .else body => body.exits_perm base
  | .elif test body rest => by
    rw [Chain.exits, List.map_append]
    exact (body.exits_perm _).append (rest.exits_perm _)

theorem Cases.exits_perm (t : Builtin) (popForElse : Bool) (base : Nat) :
    ∀ s : Cases, ((s.exits t popForElse base).map (·.record)).Perm s.bound
  | .none => List.Perm.nil
  | .else body => body.exits_perm _
  | .case conditions body rest => by
    rw [Cases.exits, List.map_append]
    exact (body.exits_perm _).append (rest.exits_perm t popForElse _)

end

/-- So each exit is where its record says. -/
theorem Stmt.exitIp_of_mem {s : Stmt} {ctx : GenCtx} {x : Exit} (hnodup : s.bound.Nodup)
    (hx : x ∈ s.exits ctx.counter) : (genStmt s ctx).exitOf x.record = x.ip := by
  rw [s.closes ctx]
  exact setExits_of_mem ((s.exits_perm ctx.counter).nodup_iff.mpr hnodup) hx _

end N00b.Codegen
