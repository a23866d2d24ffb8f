import N00b.Codegen.Layout

/-!
# Backpatching produces the layout

The generator emits a jump before it knows where the jump goes and fills in the target later,
through the record of the loop or `switch` the jump belongs to or through a list of its own.
`genStmt_lays` says that what stands in the instruction list in the end is the layout.

The records of the loops in a statement are its `bound` ones, those of the loops around it are in
`scope`. Every loop has a record of its own.
-/

namespace N00b.Codegen

open N00b.Vm

/-! ## Sizes of layouts -/

/-- The layout of a condition is as long as its code. -/
theorem Condition.size_layout (t : Builtin) (dv : Int) (base : Nat) (c : Condition) :
    Layout.size (c.layout t dv base) = c.size t := by
  cases c with
  | value e => simp only [layout, size_line, size]
  | range lo hi =>
    simp only [layout, Layout.size_append, size_line, size_jump, size]
  | type constant => simp only [layout, size_line, size]

/-- So is that of several. -/
theorem size_layoutConditions (t : Builtin) (body : Nat) (d dv : Int) (cs : List Condition)
    (base : Nat) : Layout.size (layoutConditions t body d dv cs base) = conditionsSize t cs := by
  induction cs generalizing base with
  | nil => rfl
  | cons c cs ih =>
    simp only [layoutConditions, Layout.size_append, c.size_layout, ih, size_jump,
      conditionsSize]

theorem size_layoutArm (test : ExprCode) (body : Layout) (d : Int) (next exit : Nat) :
    Layout.size (layoutArm test body d next exit) = test.size + 1 + body.size + 1 := by
  simp only [layoutArm, Layout.size_append, size_line, size_jump]
  rfl

mutual

/-- **The layout of a statement** is as long as its code. -/
theorem Stmt.size_layout (env : Enclosing) (base : Nat) (d : Int) :
    ∀ s : Stmt, Layout.size (s.layout env base d) = s.size
  | .skip => rfl
  | .seq first rest => by
    rw [Stmt.layout, Layout.size_append, first.size_layout, rest.size_layout, Stmt.size]
  | .expression e => by simp [Stmt.layout, Stmt.size, sizeOf, Piece.what, What.size]
  | .assign a => by rw [Stmt.layout, size_line, Stmt.size]
  | .cond test body rest => by
    rw [Stmt.layout, Layout.size_append, size_layoutArm, body.size_layout, rest.size_layout,
      Stmt.size]
  | .while li test body => by
    simp only [Stmt.layout, Layout.size_append, size_line, Layout.size_bind, body.size_layout,
      size_jump, Stmt.size]
  | .forRange li lvar lo hi body => by
    simp only [Stmt.layout, Layout.size_append, size_line, Layout.size_bind, body.size_layout,
      size_jump, Stmt.size]
    rfl
  | .forIn li lvar1 lvar2 container body => by
    simp only [Stmt.layout, Layout.size_append, size_line, Layout.size_bind, body.size_layout,
      size_jump, Stmt.size]
    rfl
  | .switch branchInfo label value t cases => by
    simp only [Stmt.layout, Layout.size_append, size_line, Layout.size_bind, cases.size_layout,
      Stmt.size]
    rfl
  | .typeof branchInfo label sym cases => by
    simp only [Stmt.layout, Layout.size_append, size_line, Layout.size_bind, cases.size_layout,
      Stmt.size]
    rfl
  | .break _ => rfl
  | .continue _ => rfl

theorem Chain.size_layout (env : Enclosing) (base : Nat) (d : Int) :
    ∀ s : Chain, Layout.size (s.layout env base d) = s.size
  | .none => rfl
  | .else body => by rw [Chain.layout, body.size_layout, Chain.size]
  | .elif test body rest => by
    rw [Chain.layout, Layout.size_append, size_layoutArm, body.size_layout, rest.size_layout,
      Chain.size]

theorem Cases.size_layout (env : Enclosing) (c : Nat) (t : Builtin) (popForElse : Bool)
    (base : Nat) (d dv : Int) :
    ∀ s : Cases, Layout.size (s.layout env c t popForElse base d dv) = s.size t popForElse
  | .none => rfl
  | .else body => by
    rw [Cases.layout, Layout.size_append, size_line, body.size_layout, Cases.size]
    cases popForElse <;> rfl
  | .case conditions body rest => by
    simp only [Cases.layout, Layout.size_append, size_layoutConditions, body.size_layout,
      rest.size_layout, size_jump, size_exitJump, Cases.size]

end

/-! ## Scopes -/

mutual

/-- The control records of the loops, switches and typeofs in a statement. -/
def Stmt.bound : Stmt → List Nat
  | .skip | .expression _ | .assign _ | .break _ | .continue _ => []
  | .seq first rest => first.bound ++ rest.bound
  | .cond _ body rest => body.bound ++ rest.bound
  | .while li _ body | .forRange li _ _ _ body | .forIn li _ _ _ body =>
    li.branchInfo :: body.bound
  | .switch branchInfo _ _ _ cases | .typeof branchInfo _ _ cases => branchInfo :: cases.bound

def Chain.bound : Chain → List Nat
  | .none => []
  | .else body => body.bound
  | .elif _ body rest => body.bound ++ rest.bound

def Cases.bound : Cases → List Nat
  | .none => []
  | .else body => body.bound
  | .case _ body rest => body.bound ++ rest.bound

end

mutual

/-- `break` goes to a loop, `switch` or `typeof` around it, `continue` to a loop around it. The
check pass reports everything else. -/
def Stmt.Scoped : Stmt → (scope loops : List Nat) → Prop
  | .skip, _, _ | .expression _, _, _ | .assign _, _, _ => True
  | .seq first rest, scope, loops => first.Scoped scope loops ∧ rest.Scoped scope loops
  | .cond _ body rest, scope, loops => body.Scoped scope loops ∧ rest.Scoped scope loops
  | .while li _ body, scope, loops | .forRange li _ _ _ body, scope, loops
  | .forIn li _ _ _ body, scope, loops =>
    body.Scoped (li.branchInfo :: scope) (li.branchInfo :: loops)
  | .switch branchInfo _ _ _ cases, scope, loops | .typeof branchInfo _ _ cases, scope, loops =>
    cases.Scoped (branchInfo :: scope) loops
  | .break branchInfo, scope, _ => branchInfo ∈ scope
  | .continue branchInfo, _, loops => branchInfo ∈ loops

def Chain.Scoped : Chain → (scope loops : List Nat) → Prop
  | .none, _, _ => True
  | .else body, scope, loops => body.Scoped scope loops
  | .elif _ body rest, scope, loops => body.Scoped scope loops ∧ rest.Scoped scope loops

def Cases.Scoped : Cases → (scope loops : List Nat) → Prop
  | .none, _, _ => True
  | .else body, scope, loops => body.Scoped scope loops
  | .case _ body rest, scope, loops => body.Scoped scope loops ∧ rest.Scoped scope loops

end

/-! ## Layouts and the context -/

def Layout.ExitsIn (scope : List Nat) (l : Layout) : Prop :=
  ∀ it ∈ l, ∀ c, it.what = .exit c → c ∈ scope

def GenCtx.exitOf (ctx : GenCtx) (c : Nat) : Nat := (ctx.controls c).exitIp

/-- The record with further jumps that wait for its end. -/
def ControlInfo.await (ci : ControlInfo) (ixs : List Nat) : ControlInfo :=
  { ci with awaitingPatches := ci.awaitingPatches ++ ixs }

/-- The generator went from one context to another by emitting a layout. It left the records
alone except those in `bound`, which belong to the layout, and except that jumps to their end
were noted. -/
structure Lays (scope bound : List Nat) (ctx ctx' : GenCtx) (l : Layout) : Prop where
  exitsIn : l.ExitsIn scope
  instructions : ctx'.instructions = ctx.instructions ++ l.code ctx.exitOf ctx.counter
  controls : ∀ c ∉ bound, ctx'.controls c = (ctx.controls c).await (l.positions c ctx.counter)

namespace Layout

variable {scope : List Nat}

/-- The exits of two layouts are in scope if those of each are. -/
theorem ExitsIn.append {l l' : Layout} (h : l.ExitsIn scope)
    (h' : l'.ExitsIn scope) : ExitsIn scope (l ++ l') := by
  intro it hit
  rcases List.mem_append.mp hit with hit | hit
  · exact h it hit
  · exact h' it hit

/-- The code of a layout depends only on the exits that it jumps to. -/
theorem code_congr {exitOf exitOf' : Nat → Nat}
    (h : ∀ c ∈ scope, exitOf c = exitOf' c) :
    ∀ {l : Layout} (base : Nat), l.ExitsIn scope → code exitOf l base = code exitOf' l base
  | [], _, _ => rfl
  | it :: l, base, hl => by
    have hw : it.what.code exitOf base = it.what.code exitOf' base := by
      cases hwhat : it.what with
      | op i => rfl
      | expr e => rfl
      | exit c =>
        have hc : c ∈ scope := hl it List.mem_cons_self c hwhat
        rw [What.code, What.code, h c hc]
    rw [code, code, hw, code_congr h _ fun it' hit => hl it' (List.mem_cons_of_mem _ hit)]

/-- Nothing waits for an exit that is not in scope. -/
theorem positions_eq_nil {c : Nat} (hc : c ∉ scope) :
    ∀ {l : Layout} (base : Nat), l.ExitsIn scope → positions c l base = []
  | [], _, _ => rfl
  | it :: l, base, hl => by
    have hrest := fun b => positions_eq_nil hc (l := l) b
      fun it' hit => hl it' (List.mem_cons_of_mem _ hit)
    rw [positions]
    cases hwhat : it.what with
    | op i => exact hrest _
    | expr e => exact hrest _
    | exit c' =>
      have hc' : c' ∈ scope := hl it List.mem_cons_self c' hwhat
      have hne : c' ≠ c := fun heq => hc (heq ▸ hc')
      simp only [if_neg hne, hrest]

end Layout

@[simp] theorem ControlInfo.await_nil (ci : ControlInfo) : ci.await [] = ci := by
  simp [await]

theorem ControlInfo.await_await (ci : ControlInfo) (l l' : List Nat) :
    (ci.await l).await l' = ci.await (l ++ l') := by
  simp [await]

namespace Lays

variable {scope bound bound' : List Nat} {ctx ctx' ctx'' : GenCtx} {l l' : Layout}

/-- The counter moves on by the size of what is laid down. -/
theorem counter (h : Lays scope bound ctx ctx' l) : ctx'.counter = ctx.counter + l.size := by
  rw [GenCtx.counter, h.instructions, List.length_append, Layout.length_code]
  rfl

/-- An exit that is not bound stays where it was. -/
theorem exitOf (h : Lays scope bound ctx ctx' l) {c : Nat} (hc : c ∉ bound) :
    ctx'.exitOf c = ctx.exitOf c := by
  rw [GenCtx.exitOf, h.controls c hc]
  rfl

/-- An entry that is not bound does too. -/
theorem entryIp (h : Lays scope bound ctx ctx' l) {c : Nat} (hc : c ∉ bound) :
    (ctx'.controls c).entryIp = (ctx.controls c).entryIp := by
  rw [h.controls c hc]
  rfl

/-- What is laid down with less in scope is so with more. -/
theorem mono {scope' : List Nat} (h : Lays scope bound ctx ctx' l) (hs : scope ⊆ scope')
    (hb : bound ⊆ bound') : Lays scope' bound' ctx ctx' l where
  exitsIn it hit c hc := hs (h.exitsIn it hit c hc)
  instructions := h.instructions
  controls c hc := h.controls c fun hmem => hc (hb hmem)

/-- **Code is laid down piece by piece**: what two steps lay down one after the other is one layout.
-/
theorem append (h : Lays scope bound ctx ctx' l) (h' : Lays scope bound' ctx' ctx'' l')
    (hdisj : ∀ c ∈ scope, c ∉ bound) : Lays scope (bound ++ bound') ctx ctx'' (l ++ l') where
  exitsIn := h.exitsIn.append h'.exitsIn
  instructions := by
    have hex : ∀ c ∈ scope, ctx'.exitOf c = ctx.exitOf c := fun c hc => h.exitOf (hdisj c hc)
    rw [h'.instructions, h.instructions, Layout.code_append, h.counter,
      Layout.code_congr hex _ h'.exitsIn, List.append_assoc]
  controls c hc := by
    rw [h'.controls c fun hmem => hc (List.mem_append_right _ hmem),
      h.controls c fun hmem => hc (List.mem_append_left _ hmem), ControlInfo.await_await,
      h.counter, Layout.positions_append]

theorem append_nil (h : Lays scope bound ctx ctx' l) (h' : Lays scope [] ctx' ctx'' l')
    (hdisj : ∀ c ∈ scope, c ∉ bound) : Lays scope bound ctx ctx'' (l ++ l') := by
  have happ := h.append h' hdisj
  rwa [List.append_nil] at happ

theorem nil_append (h : Lays scope [] ctx ctx' l) (h' : Lays scope bound ctx' ctx'' l') :
    Lays scope bound ctx ctx'' (l ++ l') :=
  h.append h' fun _ _ => List.not_mem_nil

protected theorem refl (scope : List Nat) (ctx : GenCtx) : Lays scope [] ctx ctx [] where
  exitsIn _ hit := absurd hit List.not_mem_nil
  instructions := by simp [Layout.code]
  controls c _ := by simp [Layout.positions]

end Lays

/-! ## Straight code -/

/-- One item lays down its own code, unless it is a jump to an exit. -/
theorem lays_what (scope : List Nat) (ctx : GenCtx) {w : What} (hw : ∀ c, w ≠ .exit c)
    (d fall taken : Int) :
    Lays scope [] ctx { ctx with instructions := ctx.instructions ++ w.code ctx.exitOf ctx.counter }
      [⟨w, d, fall, taken⟩] where
  exitsIn it hit c hc := by
    rw [List.mem_singleton.mp hit] at hc
    exact absurd hc (hw c)
  instructions := by simp [Layout.code]
  controls c _ := by
    cases w with
    | op i => simp [Layout.positions]
    | expr e => simp [Layout.positions]
    | exit c' => exact absurd rfl (hw c')

theorem lays_emit (scope : List Nat) (i : Instr) (ctx : GenCtx) (d fall taken : Int) :
    Lays scope [] ctx (emit i ctx) [⟨.op i, d, fall, taken⟩] :=
  lays_what scope ctx (w := .op i) (fun _ h => by cases h) d fall taken

theorem lays_jump (scope : List Nat) (i : Instr) (ctx : GenCtx) (d taken : Int) :
    Lays scope [] ctx (emit i ctx) (jump i d taken) :=
  lays_emit scope i ctx d 0 taken

theorem lays_genPiece (scope : List Nat) (p : Piece) (ctx : GenCtx) (d fall taken : Int) :
    Lays scope [] ctx (genPiece p ctx) [⟨p.what, d, fall, taken⟩] := by
  cases p with
  | op i => exact lays_emit scope i ctx d fall taken
  | expr e => exact lays_what scope ctx (w := .expr e) (fun _ h => by cases h) d fall taken

/-- A line of pieces lays down their code. -/
theorem lays_genPieces (scope : List Nat) (leak d : Int) (ps : List Piece) (ctx : GenCtx) :
    Lays scope [] ctx (genPieces ps ctx) (line leak d ps) := by
  induction ps generalizing ctx d with
  | nil => exact Lays.refl scope ctx
  | cons p ps ih =>
    cases ps with
    | nil => exact lays_genPiece scope p ctx d leak 0
    | cons q ps => exact (lays_genPiece scope p ctx d 0 0).nil_append (ih (d + p.effect) _)

@[simp] theorem sizeOf_nil : sizeOf [] = 0 := rfl

@[simp] theorem sizeOf_op (i : Instr) : sizeOf [.op i] = 1 := rfl

/-- Pieces are generated one list behind the other. -/
theorem genPieces_append (ps qs : List Piece) (ctx : GenCtx) :
    genPieces (ps ++ qs) ctx = genPieces qs (genPieces ps ctx) := by
  rw [genPieces, List.foldl_append]
  rfl

/-! ## Jumps that get their target later -/

/-- A patched argument moves no waiting jump. -/
theorem positions_patched (c : Nat) (i i' : Instr) (l l' : Layout) (d taken : Int) (base : Nat) :
    Layout.positions c (l ++ jump i d taken ++ l') base =
      Layout.positions c (l ++ jump i' d taken ++ l') base := by
  simp only [Layout.positions_append, Layout.size_append, size_jump]
  rfl

variable {scope bound : List Nat}

/-- **Patching a jump** lays down the jump with its target. -/
theorem Lays.patch {ctx ctx' : GenCtx} {l l' : Layout} {i : Instr}
    {d taken : Int} (h : Lays scope bound ctx ctx' (l ++ jump i d taken ++ l')) (target : Nat) :
    Lays scope bound ctx (patchArg (ctx.counter + l.size) target ctx')
      (l ++ jump (setArg target i) d taken ++ l') where
  exitsIn it hit c hc := by
    rcases List.mem_append.mp hit with hit | hit
    · rcases List.mem_append.mp hit with hit | hit
      · exact h.exitsIn it (List.mem_append_left _ (List.mem_append_left _ hit)) c hc
      · rw [List.mem_singleton.mp hit] at hc
        cases hc
    · exact h.exitsIn it (List.mem_append_right _ hit) c hc
  instructions := by
    have hlen : ctx.counter + l.size =
        (ctx.instructions ++ l.code ctx.exitOf ctx.counter).length := by
      rw [List.length_append, Layout.length_code]
      rfl
    show ctx'.instructions.modify (ctx.counter + l.size) (setArg target) = _
    rw [h.instructions, hlen]
    simp only [Layout.code_append, jump, Layout.code, What.code, List.append_assoc,
      List.singleton_append, What.size]
    rw [← List.append_assoc, modify_append_cons, List.append_assoc]
  controls c hc := by
    show ctx'.controls c = _
    rw [h.controls c hc, positions_patched c i (setArg target i)]

/-- `gen_jump_raw` with code behind it lays down the jump over that code. -/
theorem lays_jmpTemplate {ctx : GenCtx} {l : Layout} (op : JumpOp)
    (userCode : GenCtx → GenCtx) (d taken : Int)
    (h : Lays scope bound (emit (op.instr 0) ctx) (userCode (emit (op.instr 0) ctx)) l) :
    Lays scope bound ctx (jmpTemplate op true userCode ctx)
      (jump (op.instr (ctx.counter + 1 + l.size)) d taken ++ l) := by
  have hall : Lays scope bound ctx (userCode (emit (op.instr 0) ctx))
      ([] ++ jump (op.instr 0) d taken ++ l) := (lays_emit scope _ ctx d 0 taken).nil_append h
  have hcounter : (userCode (emit (op.instr 0) ctx)).counter = ctx.counter + 1 + l.size := by
    rw [h.counter]
    simp [emit, GenCtx.counter]
  have hpatch := hall.patch (ctx.counter + 1 + l.size)
  rw [setArg_instr] at hpatch
  have hgen : jmpTemplate op true userCode ctx =
      patchArg (ctx.counter + Layout.size []) (ctx.counter + 1 + l.size)
        (userCode (emit (op.instr 0) ctx)) := by
    rw [← hcounter]
    simp [jmpTemplate, genJumpRaw, knownTarget, awaitPatch, genFinishJump]
  rw [hgen]
  exact hpatch

/-- Targets of several jumps are filled in. -/
def patchAll (ixs : List Nat) (target : Nat) (is : List Instr) : List Instr :=
  ixs.foldl (fun is ix => is.modify ix (setArg target)) is

/-- **Patching all that wait for an exit** gives the code with the exit bound. -/
theorem patchAll_positions (exitOf : Nat → Nat) (c target : Nat) :
    ∀ (l : Layout) (before : List Instr),
    patchAll (l.positions c before.length) target (before ++ l.code exitOf before.length) =
      before ++ (l.bind c target).code exitOf before.length
  | [], before => by simp [Layout.positions, patchAll, Layout.code, Layout.bind]
  | ⟨w, d, fall, taken⟩ :: l, before => by
    -- What comes first is out of the way, with its own part of the positions.
    have hskip : ∀ is : List Instr, is.length = w.size →
        patchAll (Layout.positions c l (before.length + w.size)) target
          (before ++ (is ++ Layout.code exitOf l (before.length + w.size))) =
        before ++ (is ++ Layout.code exitOf (Layout.bind c target l) (before.length + w.size)) := by
      intro is his
      have hrec := patchAll_positions exitOf c target l (before ++ is)
      rw [List.length_append, his, List.append_assoc, List.append_assoc] at hrec
      exact hrec
    have hbind : Layout.bind c target (⟨w, d, fall, taken⟩ :: l) =
        Layout.bindItem c target ⟨w, d, fall, taken⟩ :: Layout.bind c target l := rfl
    rw [Layout.code, hbind, Layout.code, Layout.size_bindItem]
    cases w with
    | op i => exact hskip [i] rfl
    | expr e => exact hskip _ (e.length_code _)
    | exit c' =>
      by_cases hc : c' = c
      · subst hc
        have hmod := modify_append_cons (setArg target) (Instr.j (exitOf c'))
          (Layout.code exitOf l (before.length + 1)) before
        have hrest := hskip [.j target] rfl
        simp only [Layout.positions, Layout.bindItem, What.code, patchAll, if_true, List.foldl_cons]
        rw [List.singleton_append, What.size, hmod]
        exact hrest
      · simp only [Layout.positions, Layout.bindItem, if_neg hc]
        exact hskip [.j (exitOf c')] rfl

/-- Patching one instruction after the other is patching all of them. -/
theorem apply_foldl_patchArg (ixs : List Nat) (target : Nat) (ctx : GenCtx) :
    ixs.foldl (fun ctx ix => patchArg ix target ctx) ctx =
      { ctx with instructions := patchAll ixs target ctx.instructions } := by
  induction ixs generalizing ctx with
  | nil => rfl
  | cons ix ixs ih =>
    rw [List.foldl_cons, ih]
    rfl

/-- What `gen_apply_waiting_patches` does to the context. -/
theorem genApplyWaitingPatches_eq (c : Nat) (ctx : GenCtx) :
    genApplyWaitingPatches c ctx =
      { instructions := patchAll (ctx.controls c).awaitingPatches ctx.counter ctx.instructions
        controls := Function.update ctx.controls c
          { ctx.controls c with exitIp := ctx.counter } } := by
  unfold genApplyWaitingPatches
  rw [apply_foldl_patchArg]

/-- A bound exit leaves the jumps that wait for another one. -/
theorem positions_bind {c c' : Nat} (target : Nat) (h : c' ≠ c) :
    ∀ (l : Layout) (base : Nat), (l.bind c target).positions c' base = l.positions c' base
  | [], _ => rfl
  | ⟨w, d, fall, taken⟩ :: l, base => by
    have hrest := positions_bind target h l
    show Layout.positions c'
      (Layout.bindItem c target ⟨w, d, fall, taken⟩ :: Layout.bind c target l) base = _
    cases w with
    | op i => exact hrest _
    | expr e => exact hrest _
    | exit c'' =>
      by_cases hc : c'' = c
      · subst hc
        simp only [Layout.bindItem, if_true, Layout.positions, if_neg h.symm, What.size]
        exact hrest _
      · simp only [Layout.bindItem, if_neg hc, Layout.positions, hrest]

/-- **Applying the waiting patches** binds the exit behind what is laid down. -/
theorem Lays.apply {ctx ctx' : GenCtx} {l : Layout} {c : Nat}
    (h : Lays (c :: scope) bound ctx ctx' l) (hc : c ∉ bound)
    (hawait : (ctx.controls c).awaitingPatches = []) :
    Lays scope (c :: bound) ctx (genApplyWaitingPatches c ctx') (l.bind c (ctx.counter + l.size))
    where
  exitsIn it hit c' hc' := by
    obtain ⟨it', hit', rfl⟩ := List.mem_map.mp hit
    obtain ⟨w, d, fall, taken⟩ := it'
    cases w with
    | op i => cases hc'
    | expr e => cases hc'
    | exit c'' =>
      by_cases heq : c'' = c
      · simp only [Layout.bindItem, if_pos heq] at hc'
        cases hc'
      · simp only [Layout.bindItem, if_neg heq] at hc'
        cases hc'
        exact (List.mem_cons.mp (h.exitsIn _ hit' c' rfl)).resolve_left heq
  instructions := by
    have hwait : (ctx'.controls c).awaitingPatches = l.positions c ctx.counter := by
      rw [h.controls c hc]
      simp [ControlInfo.await, hawait]
    rw [genApplyWaitingPatches_eq]
    show patchAll _ _ _ = _
    rw [hwait, h.counter, h.instructions]
    exact patchAll_positions ctx.exitOf c _ l ctx.instructions
  controls c' hc' := by
    have hne : c' ≠ c := fun heq => hc' (heq ▸ List.mem_cons_self)
    have hnot : c' ∉ bound := fun hmem => hc' (List.mem_cons_of_mem _ hmem)
    rw [genApplyWaitingPatches_eq, positions_bind _ hne]
    show Function.update _ _ _ c' = _
    rw [Function.update_of_ne hne, h.controls c' hnot]

/-! ## Lists of jumps -/

theorem length_patchAll (ixs : List Nat) (target : Nat) (is : List Instr) :
    (patchAll ixs target is).length = is.length := by
  induction ixs generalizing is with
  | nil => rfl
  | cons ix ixs ih =>
    show (patchAll ixs target _).length = _
    rw [ih, List.length_modify]

theorem modify_comm {α : Type} (f : α → α) (i j : Nat) (l : List α) :
    (l.modify i f).modify j f = (l.modify j f).modify i f := by
  apply List.ext_getElem?
  intro k
  simp only [List.getElem?_modify]
  cases l[k]? with
  | none => rfl
  | some a => simp only [Option.map_eq_map, Option.map_some]; split <;> split <;> rfl

theorem patchAll_modify (ixs : List Nat) (ix target : Nat) (is : List Instr) :
    patchAll ixs target (is.modify ix (setArg target)) =
      (patchAll ixs target is).modify ix (setArg target) := by
  induction ixs generalizing is with
  | nil => rfl
  | cons j ixs ih =>
    show patchAll ixs target ((is.modify ix _).modify j _) = (patchAll ixs target _).modify ix _
    rw [modify_comm, ih]

theorem patchAll_append {ixs : List Nat} {is : List Instr} (h : ∀ ix ∈ ixs, ix < is.length)
    (target : Nat) (after : List Instr) :
    patchAll ixs target (is ++ after) = patchAll ixs target is ++ after := by
  induction ixs generalizing is with
  | nil => rfl
  | cons ix ixs ih =>
    show patchAll ixs target ((is ++ after).modify ix _) = patchAll ixs target (is.modify ix _) ++ _
    have hix : ix < is.length := h ix List.mem_cons_self
    have hmod : (is ++ after).modify ix (setArg target) =
        is.modify ix (setArg target) ++ after := by
      apply List.ext_getElem?
      intro k
      by_cases hk : k < is.length
      · rw [List.getElem?_modify, List.getElem?_append_left hk,
          List.getElem?_append_left (by rwa [List.length_modify]), List.getElem?_modify]
      · rw [List.getElem?_modify, List.getElem?_append_right (Nat.le_of_not_lt hk),
          List.getElem?_append_right (by rw [List.length_modify]; exact Nat.le_of_not_lt hk),
          List.length_modify]
        have hne : ix ≠ k := by omega
        simp [hne]
    rw [hmod, ih]
    intro j hj
    rw [List.length_modify]
    exact h j (List.mem_cons_of_mem _ hj)

/-- The pending jumps of a list get one target. -/
def patchJumps (jumps : List (Option Nat)) (target : Nat) (ctx : GenCtx) : GenCtx :=
  { ctx with instructions := patchAll (jumps.filterMap id) target ctx.instructions }

@[simp] theorem counter_patchJumps (jumps : List (Option Nat)) (target : Nat) (ctx : GenCtx) :
    (patchJumps jumps target ctx).counter = ctx.counter :=
  length_patchAll _ _ _

theorem patchJumps_cons (ix : Nat) (jumps : List (Option Nat)) (target : Nat) (ctx : GenCtx) :
    patchJumps (some ix :: jumps) target ctx = patchArg ix target (patchJumps jumps target ctx) := by
  show GenCtx.mk (patchAll (jumps.filterMap id) target (ctx.instructions.modify ix _)) _ = _
  rw [patchAll_modify]
  rfl

theorem genFinishJumps_eq (jumps : List (Option Nat)) (ctx : GenCtx) :
    genFinishJumps jumps ctx = patchJumps jumps ctx.counter ctx := by
  have hgen : ∀ (target : Nat) (ctx' : GenCtx), ctx'.counter = target →
      genFinishJumps jumps ctx' = patchJumps jumps target ctx' := by
    intro target
    induction jumps with
    | nil => exact fun _ _ => rfl
    | cons j jumps ih =>
      intro ctx' h
      show genFinishJumps jumps (genFinishJump j ctx') = _
      cases j with
      | none => exact ih ctx' h
      | some ix =>
        have hcounter : (patchArg ix ctx'.counter ctx').counter = ctx'.counter :=
          List.length_modify _ _ _
        rw [genFinishJump, ih _ (hcounter.trans h), h]
        rfl
  exact hgen ctx.counter ctx rfl

theorem patchJumps_emit {jumps : List (Option Nat)} {ctx : GenCtx}
    (h : ∀ ix ∈ jumps.filterMap id, ix < ctx.counter) (target : Nat) (i : Instr) :
    patchJumps jumps target (emit i ctx) = emit i (patchJumps jumps target ctx) := by
  show GenCtx.mk (patchAll _ _ (ctx.instructions ++ [i])) _ = _
  rw [patchAll_append h]
  rfl

theorem genJumpRaw_local (op : JumpOp) (ctx : GenCtx) (pop : Bool) (h : pop = true ∨ op = .j) :
    genJumpRaw {} op pop ctx = (emit (op.instr 0) ctx, some ctx.counter) := by
  rcases h with rfl | rfl
  · simp [genJumpRaw, knownTarget, awaitPatch]
  · simp [genJumpRaw, knownTarget, awaitPatch]

/-! ## Conditions of cases -/

theorem genCondition_lays (scope : List Nat) (t : Builtin) (dv : Int) (c : Condition)
    (ctx : GenCtx) :
    Lays scope [] ctx (genCondition t c ctx) (c.layout t dv ctx.counter) := by
  cases c with
  | value e => exact lays_genPieces scope 0 dv ((Condition.value e).pieces t) ctx
  | type constant => exact lays_genPieces scope 0 dv ((Condition.type constant).pieces t) ctx
  | range lo hi =>
    have hlow := lays_genPieces scope 0 dv ((Condition.range lo hi).pieces t) ctx
    have hup := lays_jmpTemplate .jz (genPieces upperTest) (dv + 1) 0
      (lays_genPieces scope 0 dv upperTest
        (emit (.jz 0) (genPieces ((Condition.range lo hi).pieces t) ctx)))
    have hall := hlow.nil_append hup
    rw [hlow.counter, size_line, size_line, ← List.append_assoc] at hall
    exact hall

theorem genConditions_lays (scope : List Nat) (t : Builtin) (d dv : Int) (target : Nat) :
    ∀ (cs : List Condition) (ctx : GenCtx),
    Lays scope [] ctx (patchJumps (genConditions t cs ctx).2 target (genConditions t cs ctx).1)
        (layoutConditions t target d dv cs ctx.counter) ∧
      ∀ ix ∈ (genConditions t cs ctx).2.filterMap id, ix < (genConditions t cs ctx).1.counter
  | [], ctx => ⟨Lays.refl scope ctx, fun _ h => absurd h List.not_mem_nil⟩
  | c :: cs, ctx => by
    have hcond := genCondition_lays scope t dv c ctx
    obtain ⟨hrest, hlt⟩ := genConditions_lays scope t d dv target cs
      (emit (.jnz 0) (genCondition t c ctx))
    have hcounter : (emit (Instr.jnz 0) (genCondition t c ctx)).counter =
        ctx.counter + c.size t + 1 := by
      rw [← Condition.size_layout t dv ctx.counter c, ← hcond.counter]
      simp [emit, GenCtx.counter]
    rw [hcounter] at hrest
    have hall := (hcond.nil_append (lays_emit scope (.jnz 0) (genCondition t c ctx) (dv + 1) 0
      (dv + 1 - d))).nil_append hrest
    have hpatch := hall.patch target
    rw [← hcond.counter] at hpatch
    rw [genConditions, genJumpRaw_local .jnz _ true (.inl rfl)]
    refine ⟨?_, ?_⟩
    · show Lays scope [] ctx (patchJumps (some _ :: _) target _) _
      rw [patchJumps_cons]
      exact hpatch
    · intro ix hix
      rcases List.mem_cons.mp hix with rfl | hix
      · have hle := hrest.counter
        rw [counter_patchJumps, hcounter] at hle
        show (genCondition t c ctx).counter <
          (genConditions t cs (emit (.jnz 0) (genCondition t c ctx))).1.counter
        rw [hle, hcond.counter, Condition.size_layout]
        omega
      · exact hlt ix hix

/-! ## Contexts that are ready for a statement -/

/-- The records of the statement are untouched, those around it are open, and the layout knows
where the loops around it begin. -/
structure Ready (ctx : GenCtx) (env : Enclosing) (scope loops bound : List Nat) : Prop where
  fresh : ∀ c ∈ bound, ctx.controls c = {}
  nodup : bound.Nodup
  disjoint : ∀ c ∈ scope, c ∉ bound
  loops_subset : loops ⊆ scope
  exitIp : ∀ c ∈ scope, (ctx.controls c).exitIp = 0
  entry : ∀ c ∈ loops, env.entry c = (ctx.controls c).entryIp

namespace Ready

variable {ctx ctx' : GenCtx} {env : Enclosing} {scope loops bound bound' : List Nat} {l : Layout}

/-- Less can be bound than there is to bind. -/
theorem sub (h : Ready ctx env scope loops bound) (hsub : bound'.Sublist bound) :
    Ready ctx env scope loops bound' where
  fresh c hc := h.fresh c (hsub.subset hc)
  nodup := h.nodup.sublist hsub
  disjoint c hc hmem := h.disjoint c hc (hsub.subset hmem)
  loops_subset := h.loops_subset
  exitIp := h.exitIp
  entry := h.entry

/-- What is laid down for other exits leaves a context ready. -/
theorem after (h : Ready ctx env scope loops bound) (hl : Lays scope bound' ctx ctx' l)
    (hscope : ∀ c ∈ scope, c ∉ bound') (hbound : ∀ c ∈ bound, c ∉ bound') :
    Ready ctx' env scope loops bound where
  fresh c hc := by
    have hnot : c ∉ scope := fun hmem => h.disjoint c hmem hc
    rw [hl.controls c (hbound c hc), Layout.positions_eq_nil hnot _ hl.exitsIn,
      ControlInfo.await_nil, h.fresh c hc]
  nodup := h.nodup
  disjoint := h.disjoint
  loops_subset := h.loops_subset
  exitIp c hc := by
    have hexit : ctx'.exitOf c = ctx.exitOf c := hl.exitOf (hscope c hc)
    exact hexit.trans (h.exitIp c hc)
  entry c hc := by
    rw [hl.entryIp (hscope c (h.loops_subset hc)), h.entry c hc]

theorem after_nil (h : Ready ctx env scope loops bound) (hl : Lays scope [] ctx ctx' l) :
    Ready ctx' env scope loops bound :=
  h.after hl (fun _ _ => List.not_mem_nil) fun _ _ => List.not_mem_nil

/-- Behind the first of two statements the context is ready for the second. -/
theorem second (h : Ready ctx env scope loops (bound' ++ bound))
    (hl : Lays scope bound' ctx ctx' l) : Ready ctx' env scope loops bound := by
  refine (h.sub (List.sublist_append_right _ _)).after hl ?_ ?_
  · intro c hc hmem
    exact h.disjoint c hc (List.mem_append_left _ hmem)
  · intro c hc hmem
    exact (List.nodup_append.mp h.nodup).2.2 c hmem c hc rfl

theorem first_disjoint (h : Ready ctx env scope loops (bound' ++ bound)) :
    ∀ c ∈ scope, c ∉ bound' :=
  fun c hc hmem => h.disjoint c hc (List.mem_append_left _ hmem)

/-- The context is ready for what is inside of a switch, its exit in scope. -/
theorem inSwitch {c : Nat} (h : Ready ctx env scope loops (c :: bound)) (xd : Int) :
    Ready ctx (env.bindExit c xd) (c :: scope) loops bound where
  fresh c' hc' := h.fresh c' (List.mem_cons_of_mem _ hc')
  nodup := (List.nodup_cons.mp h.nodup).2
  disjoint c' hc' := by
    rcases List.mem_cons.mp hc' with rfl | hc'
    · exact (List.nodup_cons.mp h.nodup).1
    · exact fun hmem => h.disjoint c' hc' (List.mem_cons_of_mem _ hmem)
  loops_subset c' hc' := List.mem_cons_of_mem _ (h.loops_subset hc')
  exitIp c' hc' := by
    rcases List.mem_cons.mp hc' with rfl | hc'
    · rw [h.fresh c' List.mem_cons_self]
    · exact h.exitIp c' hc'
  entry := h.entry

/-- It is ready for what is inside of a loop, its entry and its exit in scope. -/
theorem inLoop {c : Nat} (h : Ready ctx env scope loops (c :: bound)) (ed xd : Int) :
    Ready (setLoopEntryPoint c ctx) (env.bind c ctx.counter ed xd) (c :: scope) (c :: loops)
      bound where
  fresh c' hc' := by
    have hne : c' ≠ c := by
      rintro rfl
      exact (List.nodup_cons.mp h.nodup).1 hc'
    show Function.update ctx.controls c _ c' = _
    rw [Function.update_of_ne hne, h.fresh c' (List.mem_cons_of_mem _ hc')]
  nodup := (List.nodup_cons.mp h.nodup).2
  disjoint := (h.inSwitch xd).disjoint
  loops_subset c' hc' := by
    rcases List.mem_cons.mp hc' with rfl | hc'
    · exact List.mem_cons_self
    · exact List.mem_cons_of_mem _ (h.loops_subset hc')
  exitIp c' hc' := by
    show (Function.update ctx.controls c _ c').exitIp = 0
    by_cases hne : c' = c
    · subst hne
      rw [Function.update_self, h.fresh c' List.mem_cons_self]
    · rw [Function.update_of_ne hne]
      exact h.exitIp c' ((List.mem_cons.mp hc').resolve_left hne)
  entry c' hc' := by
    show Function.update env.entry c ctx.counter c' = (Function.update ctx.controls c _ c').entryIp
    by_cases hne : c' = c
    · subst hne
      rw [Function.update_self, Function.update_self]
    · rw [Function.update_of_ne hne, Function.update_of_ne hne]
      exact h.entry c' ((List.mem_cons.mp hc').resolve_left hne)

end Ready

theorem lays_setLoopEntryPoint (scope : List Nat) (c : Nat) (ctx : GenCtx) :
    Lays scope [c] ctx (setLoopEntryPoint c ctx) [] where
  exitsIn _ hit := absurd hit List.not_mem_nil
  instructions := by simp [Layout.code, setLoopEntryPoint]
  controls c' hc' := by
    have hne : c' ≠ c := fun heq => hc' (heq ▸ List.mem_singleton_self _)
    show Function.update ctx.controls c _ c' = _
    rw [Function.update_of_ne hne]
    simp [Layout.positions]

/-- A statement generates its layout wherever it may stand. -/
def Stmt.Generates (s : Stmt) (env : Enclosing) (scope loops : List Nat) (d : Int) : Prop :=
  ∀ ctx, Ready ctx env scope loops s.bound →
    Lays scope s.bound ctx (genStmt s ctx) (s.layout env ctx.counter d)

/-! ## Jumps to loops -/

/-- `continue` jumps to the entry of its loop. -/
theorem genJ_top_lays (scope : List Nat) (c : Nat) (ctx : GenCtx) (d taken : Int) :
    Lays scope [] ctx (genJ { linkedControlStructure := some c, top := true } ctx)
      (jump (.j (ctx.controls c).entryIp) d taken) := by
  have hgen : genJ { linkedControlStructure := some c, top := true } ctx =
      emit (.j (ctx.controls c).entryIp) ctx := by
    simp [genJ, genJumpRaw, knownTarget, JumpOp.instr]
  rw [hgen]
  exact lays_emit scope _ ctx d 0 taken

variable {ctx : GenCtx}

/-- `break` jumps to an exit that is not known yet, and waits for it. -/
theorem genJ_exit_lays {scope : List Nat} {c : Nat} (hc : c ∈ scope)
    (hopen : (ctx.controls c).exitIp = 0) (d taken : Int) :
    Lays scope [] ctx (genJ { linkedControlStructure := some c } ctx) (exitJump c d taken) := by
  have hgen : genJ { linkedControlStructure := some c } ctx =
      awaitPatch { linkedControlStructure := some c } ctx.counter (emit (.j 0) ctx) := by
    simp [genJ, genJumpRaw, knownTarget, JumpOp.instr, hopen]
  rw [hgen]
  refine ⟨?_, ?_, ?_⟩
  · intro it hit c' hc'
    rw [List.mem_singleton.mp hit] at hc'
    cases hc'
    exact hc
  · show ctx.instructions ++ [Instr.j 0] = _
    simp [exitJump, Layout.code, What.code, GenCtx.exitOf, hopen]
  · intro c' _
    by_cases hne : c' = c
    · subst hne
      simp [awaitPatch, emit, exitJump, Layout.positions, ControlInfo.await]
    · simp [awaitPatch, emit, exitJump, Layout.positions, Ne.symm hne, Function.update_of_ne hne]

/-! ## Loops -/

theorem Layout.bind_append (c target : Nat) (l l' : Layout) :
    Layout.bind c target (l ++ l') = Layout.bind c target l ++ Layout.bind c target l' :=
  List.map_append

theorem Layout.bind_jump (c target : Nat) (i : Instr) (d taken : Int) :
    Layout.bind c target (jump i d taken) = jump i d taken := rfl

/-- Pieces have no exits to bind. -/
theorem Layout.bind_line (c target : Nat) (leak d : Int) (ps : List Piece) :
    Layout.bind c target (line leak d ps) = line leak d ps := by
  have hitem : ∀ (p : Piece) (d fall : Int), bindItem c target ⟨p.what, d, fall, 0⟩ =
      ⟨p.what, d, fall, 0⟩ := by
    intro p d fall
    cases p <;> rfl
  induction ps generalizing d with
  | nil => rfl
  | cons p ps ih =>
    cases ps with
    | nil =>
      show [bindItem c target ⟨p.what, d, leak, 0⟩] = _
      rw [hitem]
      rfl
    | cons q ps =>
      show bindItem c target ⟨p.what, d, 0, 0⟩ :: Layout.bind c target (line leak _ (q :: ps)) = _
      rw [hitem, ih]
      rfl

variable {scope loops : List Nat} {env : Enclosing} {body : Stmt}

/-- **A loop** lays down its head, its body and its jump back, with all that waited for its exit
patched. -/
theorem loop_lays {c : Nat}
    (op : JumpOp) (head step tail : List Piece)
    (inner dj tj ds db xd : Int) (hready : Ready ctx env scope loops (c :: body.bound))
    (hbody : body.Generates (env.bind c ctx.counter inner xd) (c :: scope) (c :: loops) db) :
    let start := ctx.counter + sizeOf head + 1 + sizeOf step
    let exit := start + body.size + sizeOf tail + 1
    Lays scope (c :: body.bound) ctx
      (genApplyWaitingPatches c (jmpTemplate op true (fun ctx =>
        genJ { linkedControlStructure := some c, top := true }
          (genPieces tail (genStmt body (genPieces step ctx))))
        (genPieces head (setLoopEntryPoint c ctx))))
      (line 0 inner head ++ jump (op.instr exit) dj tj ++ line 0 ds step ++
        (body.layout (env.bind c ctx.counter inner xd) start db).bind c exit ++
        line 0 db tail ++ jump (.j ctx.counter) db 0) := by
  intro start exit
  have hin := hready.inLoop inner xd
  -- The context at each of the places of the loop.
  generalize hctx0 : setLoopEntryPoint c ctx = ctx0 at hin
  have hc0 : ctx0.counter = ctx.counter := by rw [← hctx0]; rfl
  have hlhead := lays_genPieces (c :: scope) 0 inner head ctx0
  generalize hctx1 : genPieces head ctx0 = ctx1 at hlhead
  have hljump := lays_emit (c :: scope) (op.instr 0) ctx1 dj 0 tj
  have hlstep := lays_genPieces (c :: scope) 0 ds step (emit (op.instr 0) ctx1)
  have hlbody := hbody _ (((hin.after_nil hlhead).after_nil hljump).after_nil hlstep)
  generalize hctx2 : genPieces step (emit (op.instr 0) ctx1) = ctx2 at hlstep hlbody
  have hltail := lays_genPieces (c :: scope) 0 db tail (genStmt body ctx2)
  generalize hctx3 : genPieces tail (genStmt body ctx2) = ctx3 at hltail
  have hltop := genJ_top_lays (c :: scope) c ctx3 db 0
  have hc1 : ctx1.counter = ctx.counter + sizeOf head := by rw [hlhead.counter, hc0, size_line]
  have hc2 : ctx2.counter = start := by
    rw [hlstep.counter, hljump.counter, hc1, size_line]
    rfl
  -- The record of the loop still has its entry point.
  have hnot : c ∉ body.bound := (List.nodup_cons.mp hready.nodup).1
  have hentry : (ctx3.controls c).entryIp = ctx.counter := by
    rw [hltail.entryIp List.not_mem_nil, hlbody.entryIp hnot, hlstep.entryIp List.not_mem_nil,
      hljump.entryIp List.not_mem_nil, hlhead.entryIp List.not_mem_nil, ← hctx0]
    simp [setLoopEntryPoint]
  rw [hentry] at hltop
  rw [hc2] at hlbody
  have huser : Lays (c :: scope) body.bound (emit (op.instr 0) ctx1)
      (genJ { linkedControlStructure := some c, top := true } ctx3) _ :=
    hlstep.nil_append ((hlbody.append_nil hltail hin.disjoint).append_nil hltop hin.disjoint)
  rw [← hctx3, ← hctx2] at huser
  have htemplate := lays_jmpTemplate op (fun ctx =>
    genJ { linkedControlStructure := some c, top := true }
      (genPieces tail (genStmt body (genPieces step ctx)))) dj tj huser
  have hfresh : (ctx0.controls c).awaitingPatches = [] := by
    rw [← hctx0]
    simp [setLoopEntryPoint, hready.fresh c List.mem_cons_self]
  have hloop := (hlhead.nil_append htemplate).apply hnot hfresh
  simp only [Layout.bind_append, Layout.bind_line, Layout.bind_jump, Layout.size_append,
    size_line, size_jump, body.size_layout, hc1, hc0] at hloop
  have hexit : ctx.counter + sizeOf head + 1 + (sizeOf step + (body.size + sizeOf tail + 1)) =
      exit := by
    simp only [exit, start]
    omega
  have hexit' : ctx.counter + (sizeOf head + (1 + (sizeOf step + (body.size + sizeOf tail + 1)))) =
      exit := by
    omega
  rw [hexit, hexit'] at hloop
  have hset := lays_setLoopEntryPoint scope c ctx
  rw [hctx0] at hset
  have hscope : ∀ c' ∈ scope, c' ∉ [c] := by
    intro c' hc' hmem
    exact hready.disjoint c' hc' (List.mem_singleton.mp hmem ▸ List.mem_cons_self)
  have hall := (hset.append hloop hscope).mono (fun _ h => h)
    (show [c] ++ c :: body.bound ⊆ c :: body.bound by simp)
  simpa only [List.nil_append, List.append_assoc] using hall

/-! ## Statements -/

theorem genLabel_eq (label : Bool) (ctx : GenCtx) :
    genLabel label ctx = genPieces (labelPieces label) ctx := by
  cases label <;> rfl

theorem genIndexVarInit_eq (li : LoopInfo) (ctx : GenCtx) :
    genIndexVarInit li ctx = genPieces (li.ifIx (.pushImm 0)) ctx := by
  unfold genIndexVarInit LoopInfo.ifIx
  split <;> rfl

theorem genIndexVarCleanup_eq (li : LoopInfo) (ctx : GenCtx) :
    genIndexVarCleanup li ctx = genPieces (li.ifIx .pop) ctx := by
  unfold genIndexVarCleanup LoopInfo.ifIx
  split <;> rfl

theorem genIfIx_eq (li : LoopInfo) (i : Instr) (ctx : GenCtx) :
    (if li.genIx then emit i ctx else ctx) = genPieces (li.ifIx i) ctx := by
  unfold LoopInfo.ifIx
  split <;> rfl

/-- An arm of a conditional lays down its test, its jumps and its body. -/
theorem arm_lays
    {d : Int} (test : ExprCode) (hready : Ready ctx env scope loops body.bound)
    (hbody : body.Generates env scope loops d) :
    let r := genJumpRaw {} .jz true (genExpr test ctx)
    let e := genJumpRaw {} .j false (genStmt body r.1)
    let start := ctx.counter + test.size + 1
    e.2 = some (start + body.size) ∧
      Lays scope body.bound ctx (genFinishJump r.2 e.1)
        (layoutArm test (body.layout env start d) d (start + body.size + 1) 0) := by
  intro r e start
  have htest := lays_genPieces scope 0 d [.expr test] ctx
  have hjz := lays_jump scope (.jz 0) (genExpr test ctx) (d + 1) 1
  have hc1 : (genExpr test ctx).counter = ctx.counter + test.size := htest.counter
  have hc2 : (emit (.jz 0) (genExpr test ctx)).counter = start := by
    rw [hjz.counter, hc1, size_jump]
  have hlbody := hbody _ ((hready.after_nil htest).after_nil hjz)
  rw [hc2] at hlbody
  have hr : r = (emit (.jz 0) (genExpr test ctx), some (genExpr test ctx).counter) :=
    genJumpRaw_local .jz _ true (.inl rfl)
  have he : e = (emit (.j 0) (genStmt body r.1), some (genStmt body r.1).counter) :=
    genJumpRaw_local .j _ false (.inr rfl)
  refine ⟨?_, ?_⟩
  · rw [he, hr, hlbody.counter, hc2, body.size_layout]
  · have huser := hlbody.append_nil (lays_jump scope (.j 0) _ d 0) hready.disjoint
    have htemplate := lays_jmpTemplate .jz
      (fun ctx => (genJumpRaw {} .j false (genStmt body ctx)).1) (d + 1) 1
      (by rw [genJumpRaw_local .j _ false (.inr rfl)]; exact huser)
    have hall := htest.nil_append htemplate
    rw [Layout.size_append, body.size_layout, size_jump, hc1, ← Nat.add_assoc] at hall
    simp only [layoutArm, List.append_assoc]
    exact hall

/-- An arm lays down its code in front of the other ones, whose jumps wait for the end. -/
theorem arms_lays
    {rest : Chain} {d : Int} {exit : Nat} (test : ExprCode)
    (hready : Ready ctx env scope loops (body.bound ++ rest.bound))
    (hbody : body.Generates env scope loops d)
    (hrest : ∀ ctx', Ready ctx' env scope loops rest.bound → ctx'.counter + rest.size = exit →
      Lays scope rest.bound ctx'
        (patchJumps (genChain rest ctx').2 exit (genChain rest ctx').1)
        (rest.layout env ctx'.counter d)) :
    let r := genJumpRaw {} .jz true (genExpr test ctx)
    let e := genJumpRaw {} .j false (genStmt body r.1)
    let rs := genChain rest (genFinishJump r.2 e.1)
    let next := ctx.counter + test.size + 1 + body.size + 1
    next + rest.size = exit →
    Lays scope (body.bound ++ rest.bound) ctx (patchJumps (e.2 :: rs.2) exit rs.1)
      (layoutArm test (body.layout env (ctx.counter + test.size + 1) d) d next exit ++
        rest.layout env next d) := by
  intro r e rs next hexit
  obtain ⟨he, harm⟩ := arm_lays test (hready.sub (List.sublist_append_left _ _)) hbody
  have hnext : (genFinishJump r.2 e.1).counter = next := by
    rw [harm.counter, size_layoutArm, body.size_layout]
    omega
  have hlrest := hrest _ (hready.second harm) (by rw [hnext, hexit])
  rw [hnext] at hlrest
  have hall := harm.append hlrest hready.first_disjoint
  have hpatch := hall.patch exit
  have hix : ctx.counter + Layout.size (line 0 d [.expr test] ++
      jump (.jz next) (d + 1) 1 ++ body.layout env (ctx.counter + test.size + 1) d) =
      ctx.counter + test.size + 1 + body.size := by
    rw [Layout.size_append, Layout.size_append, size_line, size_jump, body.size_layout]
    show ctx.counter + (test.size + 1 + body.size) = _
    omega
  rw [hix] at hpatch
  rw [he, patchJumps_cons]
  exact hpatch

/-- A case lays down its conditions, its body and its jump to the end. -/
theorem case_lays
    {c : Nat} {d : Int} (t : Builtin) (conditions : List Condition) (dv : Int)
    (hready : Ready ctx env scope loops body.bound) (hc : c ∈ scope)
    (hbody : body.Generates env scope loops d) :
    let r := genConditions t conditions ctx
    let caseEnd := genJumpRaw {} .j false r.1
    let ctx' := genJ { linkedControlStructure := some c }
      (genStmt body (genFinishJumps r.2 caseEnd.1))
    let start := ctx.counter + conditionsSize t conditions + 1
    Lays scope body.bound ctx (genFinishJump caseEnd.2 ctx')
      (layoutConditions t start d dv conditions ctx.counter ++
        jump (.j (start + body.size + 1)) dv 0 ++ body.layout env start d ++ exitJump c d 0) := by
  intro r caseEnd ctx' start
  obtain ⟨hconds, hlt⟩ := genConditions_lays scope t d dv start conditions ctx
  have hr : r.1.counter = ctx.counter + conditionsSize t conditions := by
    have hcounter := hconds.counter
    rwa [counter_patchJumps, size_layoutConditions] at hcounter
  have hend : caseEnd = (emit (.j 0) r.1, some r.1.counter) :=
    genJumpRaw_local .j _ false (.inr rfl)
  have hjump := lays_jump scope (.j 0) (patchJumps r.2 start r.1) dv 0
  have hfinish : genFinishJumps r.2 caseEnd.1 = emit (.j 0) (patchJumps r.2 start r.1) := by
    have hstart : (emit (Instr.j 0) r.1).counter = start := by
      rw [(lays_jump scope (.j 0) r.1 dv 0).counter, hr, size_jump]
    rw [hend, genFinishJumps_eq, hstart, patchJumps_emit hlt]
  have hstart : (emit (Instr.j 0) (patchJumps r.2 start r.1)).counter = start := by
    rw [hjump.counter, counter_patchJumps, hr, size_jump]
  have hready' := (hready.after_nil hconds).after_nil hjump
  have hlbody := hbody _ hready'
  rw [hstart] at hlbody
  have hopen := (hlbody.exitOf (hready.disjoint c hc)).trans (hready'.exitIp c hc)
  have hexit := genJ_exit_lays hc hopen d 0
  have hall := (hconds.nil_append hjump).nil_append (hlbody.append_nil hexit hready.disjoint)
  rw [← hfinish] at hall
  have hcounter : ctx'.counter = start + body.size + 1 := by
    rw [hall.counter, Layout.size_append, Layout.size_append, Layout.size_append,
      size_layoutConditions, body.size_layout, size_jump, size_exitJump]
    omega
  have hpatch := hall.patch (start + body.size + 1)
  rw [size_layoutConditions, ← hr] at hpatch
  rw [hend]
  show Lays scope body.bound ctx (patchArg r.1.counter ctx'.counter ctx') _
  rw [hcounter, List.append_assoc _ (body.layout env start d)]
  exact hpatch

/-! The loops in the form of `loop_lays`. -/

theorem genStmt_while (li : LoopInfo) (test : ExprCode) (body : Stmt) (ctx : GenCtx) :
    genStmt (.while li test body) ctx =
      genPieces (li.ifIx .pop) (genApplyWaitingPatches li.branchInfo (jmpTemplate .jz true
        (fun ctx => genJ { linkedControlStructure := some li.branchInfo, top := true }
          (genPieces (indexVarIncrement li) (genStmt body (genPieces [] ctx))))
        (genPieces (whileHead li test) (setLoopEntryPoint li.branchInfo
          (genPieces (li.ifIx (.pushImm 0)) ctx))))) := by
  rw [genStmt, genIndexVarCleanup_eq, genIndexVarInit_eq, genLabel_eq, whileHead, genPieces_append]
  rfl

theorem genStmt_forRange (li : LoopInfo) (lvar : Symbol) (lo hi : ExprCode) (body : Stmt)
    (ctx : GenCtx) :
    genStmt (.forRange li lvar lo hi body) ctx =
      genPieces [.op (.moveSp (-3))] (genApplyWaitingPatches li.branchInfo (jmpTemplate .jnz true
        (fun ctx => genJ { linkedControlStructure := some li.branchInfo, top := true }
          (genPieces [] (genStmt body (genPieces (rangeStep li lvar) ctx))))
        (genPieces (rangeHead li) (setLoopEntryPoint li.branchInfo
          (genPieces (rangeInit li lo hi) ctx))))) := by
  simp only [genStmt, genIndexVarInit_eq, genLabel_eq, genIfIx_eq, rangeStep, rangeHead, rangeInit,
    genPieces_append]
  rfl

theorem genStmt_forIn (li : LoopInfo) (lvar1 : Symbol) (lvar2 : Option Symbol)
    (container : ExprCode) (body : Stmt) (ctx : GenCtx) :
    genStmt (.forIn li lvar1 lvar2 container body) ctx =
      genPieces [.op (.moveSp (-5))] (genApplyWaitingPatches li.branchInfo (jmpTemplate .jnz true
        (fun ctx => genJ { linkedControlStructure := some li.branchInfo, top := true }
          (genPieces [] (genStmt body (genPieces (containerStep li lvar1 lvar2) ctx))))
        (genPieces [.op .gteNoPop] (setLoopEntryPoint li.branchInfo
          (genPieces (containerInit li container) ctx))))) := by
  have hinit : ∀ ctx, (if li.genIx then genIndexVarInit li ctx else genLoadImmediate 0 ctx) =
      genLoadImmediate 0 ctx := by
    intro ctx
    unfold genIndexVarInit
    split <;> rfl
  have hcount : ∀ ctx, (if li.genIx then genPieces (indexVarIncrement li) ctx
      else emit (.arith .add) (genLoadImmediate 1 ctx)) = genPieces (iterationCount li) ctx := by
    intro ctx
    unfold iterationCount
    split <;> rfl
  simp only [genStmt, genLabel_eq, hinit, hcount, containerStep, containerInit, genPieces_append]
  rfl

/-- A switch lays down its value and its cases, with the exit bound behind them. -/
theorem switch_lays {cases : Cases}
    (label value : List Piece) (c : Nat) (t : Builtin) (popForElse : Bool) (d dv leak : Int)
    (hready : Ready ctx env scope loops (c :: cases.bound))
    (hcases : ∀ ctx', Ready ctx' (env.bindExit c d) (c :: scope) loops cases.bound →
      Lays (c :: scope) cases.bound ctx' (genCases c t popForElse cases ctx')
        (cases.layout (env.bindExit c d) c t popForElse ctx'.counter d dv)) :
    let start := ctx.counter + sizeOf label + sizeOf value
    Lays scope (c :: cases.bound) ctx
      (genApplyWaitingPatches c (genCases c t popForElse cases
        (genPieces value (genPieces label ctx))))
      (line 0 d label ++ line leak d value ++
        (cases.layout (env.bindExit c d) c t popForElse start d dv).bind c
          (start + cases.size t popForElse)) := by
  intro start
  have hlabel := lays_genPieces (c :: scope) 0 d label ctx
  have hvalue := lays_genPieces (c :: scope) leak d value (genPieces label ctx)
  have hin := ((hready.inSwitch d).after_nil hlabel).after_nil hvalue
  have hlcases := hcases _ hin
  rw [hvalue.counter, hlabel.counter, size_line, size_line] at hlcases
  have hfresh : (ctx.controls c).awaitingPatches = [] := by
    rw [hready.fresh c List.mem_cons_self]
  have hall := ((hlabel.nil_append hvalue).nil_append hlcases).apply
    (List.nodup_cons.mp hready.nodup).1 hfresh
  simp only [Layout.bind_append, Layout.bind_line, Layout.size_append, size_line,
    cases.size_layout, ← Nat.add_assoc] at hall
  exact hall

mutual

/-- **The generator lays down the layout** of every statement, by induction on the statement. -/
theorem Stmt.generates (env : Enclosing) (scope loops : List Nat) (d : Int) :
    ∀ s : Stmt, s.Scoped scope loops → s.Generates env scope loops d
  | .skip, _ => fun ctx _ => Lays.refl scope ctx
  | .seq first rest, hscoped => fun ctx hready => by
    have hfirst := first.generates env scope loops d hscoped.1 ctx
      (hready.sub (List.sublist_append_left _ _))
    have hrest := rest.generates env scope loops d hscoped.2 _ (hready.second hfirst)
    rw [hfirst.counter, first.size_layout] at hrest
    exact hfirst.append hrest hready.first_disjoint
  | .expression e, _ => fun ctx _ => lays_genPieces scope 1 d [.expr e] ctx
  | .assign a, _ => fun ctx _ => lays_genPieces scope a.leak d a.pieces ctx
  | .cond test body rest, hscoped => fun ctx hready => by
    have harms := arms_lays test hready (body.generates env scope loops d hscoped.1)
      (rest.generates env scope loops d _ hscoped.2) rfl
    have hcounter := harms.counter
    rw [counter_patchJumps, Layout.size_append, size_layoutArm, body.size_layout,
      rest.size_layout] at hcounter
    rw [genStmt, genFinishJumps_eq, hcounter]
    have hexit : ctx.counter + (test.size + 1 + body.size + 1 + rest.size) =
        ctx.counter + test.size + 1 + body.size + 1 + rest.size := by omega
    rw [hexit]
    exact harms
  | .while li test body, hscoped => fun ctx hready => by
    have hinit := lays_genPieces scope 0 d (li.ifIx (.pushImm 0)) ctx
    have hloop := loop_lays .jz (whileHead li test) [] (indexVarIncrement li) (d + li.ixSlots)
      (d + li.ixSlots + 1) 1 (d + li.ixSlots) (d + li.ixSlots) (d + li.ixSlots)
      (hready.after_nil hinit) (body.generates _ _ _ _ hscoped)
    have hpop := hloop.append_nil
      (lays_genPieces scope 0 (d + li.ixSlots) (li.ifIx .pop) _) hready.disjoint
    have hall := hinit.nil_append hpop
    rw [hinit.counter, size_line] at hall
    rw [genStmt_while]
    simpa only [Stmt.layout, Stmt.bound, line, sizeOf_nil, Nat.add_zero, JumpOp.instr,
      List.append_nil, List.append_assoc] using hall
  | .forRange li lvar lo hi body, hscoped => fun ctx hready => by
    have hinit := lays_genPieces scope 0 d (rangeInit li lo hi) ctx
    have hloop := loop_lays .jnz (rangeHead li) (rangeStep li lvar) [] (d + 3 + li.ixSlots)
      (d + 3) 0 (d + 2) (d + 3 + li.ixSlots) (d + 3)
      (hready.after_nil hinit) (body.generates _ _ _ _ hscoped)
    have hpop := hloop.append_nil
      (lays_genPieces scope 0 (d + 3) [.op (.moveSp (-3))] _) hready.disjoint
    have hall := hinit.nil_append hpop
    rw [hinit.counter, size_line] at hall
    rw [genStmt_forRange]
    simpa only [Stmt.layout, Stmt.bound, line, sizeOf_nil, Nat.add_zero, JumpOp.instr,
      List.append_nil, List.append_assoc] using hall
  | .forIn li lvar1 lvar2 container body, hscoped => fun ctx hready => by
    have hinit := lays_genPieces scope 0 d (containerInit li container) ctx
    have hloop := loop_lays .jnz [.op .gteNoPop] (containerStep li lvar1 lvar2) [] (d + 4)
      (d + 5) 0 (d + 4) (d + 4) (d + 5) (hready.after_nil hinit) (body.generates _ _ _ _ hscoped)
    have hpop := hloop.append_nil
      (lays_genPieces scope 0 (d + 5) [.op (.moveSp (-5))] _) hready.disjoint
    have hall := hinit.nil_append hpop
    rw [hinit.counter, size_line] at hall
    rw [genStmt_forIn]
    simpa only [Stmt.layout, Stmt.bound, line, sizeOf_nil, sizeOf_op, Nat.add_zero, JumpOp.instr,
      List.append_nil, List.append_assoc] using hall
  | .switch branchInfo label value t cases, hscoped => fun ctx hready => by
    have hswitch := switch_lays (labelPieces label) [.expr value] branchInfo t true d
      (if cases.hasElse then d + 1 else d) (if cases.hasElse then 0 else 1) hready
      (cases.generates _ _ _ _ _ _ _ _ List.mem_cons_self hscoped)
    rw [← genLabel_eq] at hswitch
    exact hswitch
  | .typeof branchInfo label sym cases, hscoped => fun ctx hready => by
    have hswitch := switch_lays (labelPieces label) [.op (symLoad sym), .op .pushObjType]
      branchInfo .typespec false d d 1 hready
      (cases.generates _ _ _ _ _ _ _ _ List.mem_cons_self hscoped)
    rw [← genLabel_eq] at hswitch
    exact hswitch
  | .break branchInfo, hscoped => fun ctx hready =>
    genJ_exit_lays hscoped (hready.exitIp _ hscoped) d _
  | .continue branchInfo, hscoped => fun ctx hready => by
    have htop := genJ_top_lays scope branchInfo ctx d (d - env.entryDepth branchInfo)
    rw [← hready.entry branchInfo hscoped] at htop
    exact htop

/-- The branches of a conditional, once their jumps to its end are patched. -/
theorem Chain.generates (env : Enclosing) (scope loops : List Nat) (d : Int) (exit : Nat) :
    ∀ s : Chain, s.Scoped scope loops → ∀ ctx, Ready ctx env scope loops s.bound →
      ctx.counter + s.size = exit →
      Lays scope s.bound ctx (patchJumps (genChain s ctx).2 exit (genChain s ctx).1)
        (s.layout env ctx.counter d)
  | .none, _, ctx, _, _ => Lays.refl scope ctx
  | .else body, hscoped, ctx, hready, _ => body.generates env scope loops d hscoped ctx hready
  | .elif test body rest, hscoped, ctx, hready, hexit => by
    rw [Chain.size] at hexit
    obtain rfl : ctx.counter + test.size + 1 + body.size + 1 + rest.size = exit := by omega
    exact arms_lays test hready (body.generates env scope loops d hscoped.1)
      (rest.generates env scope loops d _ hscoped.2) rfl

theorem Cases.generates (env : Enclosing) (scope loops : List Nat) (c : Nat) (t : Builtin)
    (popForElse : Bool) (d dv : Int) (hc : c ∈ scope) :
    ∀ s : Cases, s.Scoped scope loops → ∀ ctx, Ready ctx env scope loops s.bound →
      Lays scope s.bound ctx (genCases c t popForElse s ctx)
        (s.layout env c t popForElse ctx.counter d dv)
  | .none, _, ctx, _ => Lays.refl scope ctx
  | .else body, hscoped, ctx, hready => by
    cases popForElse with
    | false => exact body.generates env scope loops d hscoped ctx hready
    | true =>
      have hpop := lays_genPieces scope 0 dv [.op .pop] ctx
      have hbody := body.generates env scope loops d hscoped _ (hready.after_nil hpop)
      rw [hpop.counter] at hbody
      exact hpop.nil_append hbody
  | .case conditions body rest, hscoped, ctx, hready => by
    have hcase := case_lays t conditions dv (hready.sub (List.sublist_append_left _ _)) hc
      (body.generates env scope loops d hscoped.1)
    have hrest := rest.generates env scope loops c t popForElse d dv hc hscoped.2 _
      (hready.second hcase)
    have hnext : ctx.counter + (conditionsSize t conditions + 1 + body.size + 1) =
        ctx.counter + conditionsSize t conditions + 1 + body.size + 1 := by omega
    rw [hcase.counter, Layout.size_append, Layout.size_append, Layout.size_append,
      size_layoutConditions, body.size_layout, size_jump, size_exitJump, hnext] at hrest
    exact hcase.append hrest hready.first_disjoint

end

end N00b.Codegen
