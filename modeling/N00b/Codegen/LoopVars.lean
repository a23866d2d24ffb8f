import N00b.Codegen.Stmt

/-!
# Variables of loops

The check pass makes the symbols of a loop's variables, and `set_stack_offset` gives some of them an
offset while the code is generated. `gen_sym_load` decides from the flags of a symbol whether its
offset is one of the stack frame, one of static memory or none at all.

The counter that the offsets come from goes up inside a loop and is set back behind it. The code of
a loop also keeps words of its own on the operand stack while its body runs, at least one for each
offset that it gives.

## Main results

* `Stmt.allot_spec`: inside loops the offsets given are consecutive, from the start on.
-/

namespace N00b.Codegen

/-! ## `gen_sym_load` -/

/-- What `gen_sym_load` reads of a symbol that is a variable: four flags, and for constants whether
`unbox_const_value` takes values of the type. -/
structure SymbolFlags where
  declaredConst : Bool := false
  userImmutible : Bool := false
  registerStorage : Bool := false
  functionScope : Bool := false
  unboxed : Bool := false

/-- Where the code finds a variable. Only the last three need its `static_offset`. -/
inductive Storage where
  | immediate
  | register
  | constObj
  | stack
  | static
  deriving DecidableEq, Repr

/-- The cases of `gen_sym_load` for a variable. -/
def SymbolFlags.storage (flags : SymbolFlags) : Storage :=
  match flags.declaredConst, flags.userImmutible, flags.registerStorage with
  | true, false, false => if flags.unboxed then .immediate else .constObj
  | false, true, false => .stack
  | false, false, true => .register
  | _, _, _ => if flags.functionScope then .stack else .static

/-- The offset of the variable is an offset in the frame, if it is used at all. -/
def Storage.framed : Storage → Bool
  | immediate | register | stack => true
  | constObj | static => false

/-- The variables of a loop: `lvar_1`, `lvar_2`, `$i`, `$last` and the last two with a label. -/
inductive LoopVar where
  | lvar1
  | lvar2
  | ix
  | labelIx
  | last
  | labelLast
  deriving DecidableEq, Repr

/-- The flags that the check pass sets. The symbols with a label come from
`n00b_add_inferred_symbol`, which marks those of a function, the others from
`n00b_add_or_replace_symbol`, which does not. -/
def LoopVar.flags (inFunction : Bool) : LoopVar → SymbolFlags
  | lvar1 | lvar2 => { userImmutible := true }
  | ix | last => { userImmutible := true, declaredConst := true }
  | labelIx => { userImmutible := true, declaredConst := true, functionScope := inFunction }
  | labelLast => { userImmutible := true, functionScope := inFunction }

def LoopVar.storage (inFunction : Bool) (v : LoopVar) : Storage := (v.flags inFunction).storage

@[simp] theorem storage_lvar1 (f : Bool) : LoopVar.lvar1.storage f = .stack := rfl

@[simp] theorem storage_ix (f : Bool) : LoopVar.ix.storage f = .static := rfl

@[simp] theorem storage_labelIx (f : Bool) :
    LoopVar.labelIx.storage f = if f then .stack else .static := rfl

@[simp] theorem storage_last (f : Bool) : LoopVar.last.storage f = .static := rfl

@[simp] theorem storage_labelLast (f : Bool) : LoopVar.labelLast.storage f = .stack := rfl

/-! ## `set_stack_offset` -/

/-- `current_stack_offset` and `max_stack_size`. -/
structure StackCtx where
  current : Nat
  max : Nat

def setStackOffset (ctx : StackCtx) : Nat × StackCtx :=
  let current := ctx.current + 1
  (ctx.current, ⟨current, if current > ctx.max then current else ctx.max⟩)

/-- A variable in use with its `static_offset`, which is 0 as long as nothing has set it. -/
structure LoopSlot where
  var : LoopVar
  given : Bool
  offset : Nat

def setStackOffsets : List LoopVar → StackCtx → List LoopSlot × StackCtx
  | [], ctx => ([], ctx)
  | v :: vs, ctx =>
    let (offset, ctx) := setStackOffset ctx
    let (slots, ctx) := setStackOffsets vs ctx
    (⟨v, true, offset⟩ :: slots, ctx)

/-- The symbol with its place. `local_module_id` is never set for the variables of loops. -/
def LoopSlot.symbol (inFunction : Bool) (slot : LoopSlot) : Symbol :=
  if slot.var.storage inFunction = .stack then .stack slot.offset else .static 0 slot.offset

/-! ## Loops -/

/-- `gen_index_var_init` gives an offset to `$i`, or to the form with a label if only that one is
used. -/
def LoopInfo.indexVars (li : LoopInfo) : List LoopVar :=
  match li.loopIx, li.namedLoopIx with
  | some _, _ => [.ix]
  | none, some _ => [.labelIx]
  | none, none => []

/-- Where both are used, the form with a label has to be the same symbol, says an assertion of debug
builds; it is not. -/
def LoopInfo.otherIndexVars (li : LoopInfo) : List LoopVar :=
  if li.loopIx.isSome && li.namedLoopIx.isSome then [.labelIx] else []

/-- `gen_len_var_init` does the same with `$last`. -/
def LoopInfo.lenVars (li : LoopInfo) : List LoopVar :=
  match li.loopLast, li.namedLoopLast with
  | some _, _ => [.last]
  | none, some _ => [.labelLast]
  | none, none => []

def LoopInfo.otherLenVars (li : LoopInfo) : List LoopVar :=
  if li.loopLast.isSome && li.namedLoopLast.isSome then [.labelLast] else []

/-- `gen_ranged_for` stores to `$last` and its form with a label, and gives them no offset. -/
def LoopInfo.rangeLenVars (li : LoopInfo) : List LoopVar :=
  (li.loopLast.map fun _ => LoopVar.last).toList ++
    (li.namedLoopLast.map fun _ => LoopVar.labelLast).toList

/-- The variables that a loop calls `set_stack_offset` for, in order. -/
def Stmt.givenVars : Stmt → List LoopVar
  | .while li _ _ => li.indexVars
  | .forRange li _ _ _ _ => .lvar1 :: li.indexVars
  | .forIn li _ lvar2 _ _ =>
    .lvar1 :: (lvar2.map fun _ => LoopVar.lvar2).toList ++ li.lenVars ++ li.indexVars
  | _ => []

/-- The variables that it uses without. -/
def Stmt.otherVars : Stmt → List LoopVar
  | .while li _ _ => li.otherIndexVars
  | .forRange li _ _ _ _ => li.rangeLenVars ++ li.otherIndexVars
  | .forIn li _ _ _ _ => li.otherLenVars ++ li.otherIndexVars
  | _ => []

/-- The words on the operand stack while the body of a loop runs: the index; the step, the current
number and the end; the length, the count, the size and the place of the items. -/
def Stmt.words : Stmt → Nat
  | .while li _ _ => if li.genIx then 1 else 0
  | .forRange li _ _ _ _ => 3 + if li.genIx then 1 else 0
  | .forIn _ _ _ _ _ => 4
  | _ => 0

def Stmt.enterLoop (s : Stmt) (ctx : StackCtx) : List LoopSlot × StackCtx :=
  let (given, ctx) := setStackOffsets s.givenVars ctx
  (given ++ s.otherVars.map (⟨·, false, 0⟩), ctx)

/-- A loop in a body of code, with the variables of the loops around it, its own ones, and the words
that the loops around it keep on the operand stack. -/
structure LoopSite where
  loop : Stmt
  around : List LoopSlot
  own : List LoopSlot
  words : Nat

def LoopSite.live (site : LoopSite) : List LoopSlot := site.around ++ site.own

/-- The symbol of a variable of the loop, with its place. -/
def LoopSite.symbol (site : LoopSite) (inFunction : Bool) (v : LoopVar) : Option Symbol :=
  (site.own.find? (·.var == v)).map (·.symbol inFunction)

/-- The symbols that the code of a `for` uses have the places they are given. -/
structure LoopSite.Places (site : LoopSite) (inFunction : Bool) (li : LoopInfo) (lvar : Symbol) :
    Prop where
  lvar1 : site.symbol inFunction .lvar1 = some lvar
  ix : site.symbol inFunction .ix = li.loopIx
  labelIx : site.symbol inFunction .labelIx = li.namedLoopIx
  last : site.symbol inFunction .last = li.loopLast
  labelLast : site.symbol inFunction .labelLast = li.namedLoopLast

mutual

/-- The loops in a statement, and the counters behind it. `live` and `words` are those of the loops
around the statement. -/
def Stmt.allot : Stmt → List LoopSlot → Nat → StackCtx → List LoopSite × StackCtx
  | .skip, _, _, ctx => ([], ctx)
  | .seq first rest, live, words, ctx =>
    let (inFirst, ctx) := first.allot live words ctx
    let (inRest, ctx) := rest.allot live words ctx
    (inFirst ++ inRest, ctx)
  | .expression _, _, _, ctx => ([], ctx)
  | .assign _, _, _, ctx => ([], ctx)
  | .cond _ body rest, live, words, ctx =>
    let (inBody, ctx) := body.allot live words ctx
    let (inRest, ctx) := rest.allot live words ctx
    (inBody ++ inRest, ctx)
  | .while li test body, live, words, ctx =>
    let loop := Stmt.while li test body
    let savedStack := ctx.current
    let (own, ctx) := loop.enterLoop ctx
    let (inBody, ctx) := body.allot (live ++ own) (words + loop.words) ctx
    (⟨loop, live, own, words⟩ :: inBody, { ctx with current := savedStack })
  | .forRange li lvar lo hi body, live, words, ctx =>
    let loop := Stmt.forRange li lvar lo hi body
    let savedStack := ctx.current
    let (own, ctx) := loop.enterLoop ctx
    let (inBody, ctx) := body.allot (live ++ own) (words + loop.words) ctx
    (⟨loop, live, own, words⟩ :: inBody, { ctx with current := savedStack })
  | .forIn li lvar1 lvar2 container body, live, words, ctx =>
    let loop := Stmt.forIn li lvar1 lvar2 container body
    let savedStack := ctx.current
    let (own, ctx) := loop.enterLoop ctx
    let (inBody, ctx) := body.allot (live ++ own) (words + loop.words) ctx
    (⟨loop, live, own, words⟩ :: inBody, { ctx with current := savedStack })
  | .switch _ _ _ _ cases, live, words, ctx => cases.allot live words ctx
  | .typeof _ _ _ cases, live, words, ctx => cases.allot live words ctx
  | .break _, _, _, ctx => ([], ctx)
  | .continue _, _, _, ctx => ([], ctx)

def Chain.allot : Chain → List LoopSlot → Nat → StackCtx → List LoopSite × StackCtx
  | .none, _, _, ctx => ([], ctx)
  | .else body, live, words, ctx => body.allot live words ctx
  | .elif _ body rest, live, words, ctx =>
    let (inBody, ctx) := body.allot live words ctx
    let (inRest, ctx) := rest.allot live words ctx
    (inBody ++ inRest, ctx)

def Cases.allot : Cases → List LoopSlot → Nat → StackCtx → List LoopSite × StackCtx
  | .none, _, _, ctx => ([], ctx)
  | .else body, live, words, ctx => body.allot live words ctx
  | .case _ body rest, live, words, ctx =>
    let (inBody, ctx) := body.allot live words ctx
    let (inRest, ctx) := rest.allot live words ctx
    (inBody ++ inRest, ctx)

end

/-! ## What a body needs -/

/-- The variables of a loop, each with whether it gets an offset. -/
def Stmt.ownUses (s : Stmt) : List (LoopVar × Bool) :=
  s.givenVars.map (·, true) ++ s.otherVars.map (·, false)

mutual

/-- The variables of all loops in a statement. -/
def Stmt.uses : Stmt → List (LoopVar × Bool)
  | .skip => []
  | .seq first rest => first.uses ++ rest.uses
  | .expression _ => []
  | .assign _ => []
  | .cond _ body rest => body.uses ++ rest.uses
  | .while li test body => (Stmt.while li test body).ownUses ++ body.uses
  | .forRange li lvar lo hi body => (Stmt.forRange li lvar lo hi body).ownUses ++ body.uses
  | .forIn li lvar1 lvar2 container body =>
    (Stmt.forIn li lvar1 lvar2 container body).ownUses ++ body.uses
  | .switch _ _ _ _ cases => cases.uses
  | .typeof _ _ _ cases => cases.uses
  | .break _ => []
  | .continue _ => []

def Chain.uses : Chain → List (LoopVar × Bool)
  | .none => []
  | .else body => body.uses
  | .elif _ body rest => body.uses ++ rest.uses

def Cases.uses : Cases → List (LoopVar × Bool)
  | .none => []
  | .else body => body.uses
  | .case _ body rest => body.uses ++ rest.uses

end

mutual

/-- The largest number of offsets in use at one place. -/
def Stmt.height : Stmt → Nat
  | .skip => 0
  | .seq first rest => max first.height rest.height
  | .expression _ => 0
  | .assign _ => 0
  | .cond _ body rest => max body.height rest.height
  | .while li test body => (Stmt.while li test body).givenVars.length + body.height
  | .forRange li lvar lo hi body =>
    (Stmt.forRange li lvar lo hi body).givenVars.length + body.height
  | .forIn li lvar1 lvar2 container body =>
    (Stmt.forIn li lvar1 lvar2 container body).givenVars.length + body.height
  | .switch _ _ _ _ cases => cases.height
  | .typeof _ _ _ cases => cases.height
  | .break _ => 0
  | .continue _ => 0

def Chain.height : Chain → Nat
  | .none => 0
  | .else body => body.height
  | .elif _ body rest => max body.height rest.height

def Cases.height : Cases → Nat
  | .none => 0
  | .else body => body.height
  | .case _ body rest => max body.height rest.height

end

/-! ## Entering a loop -/

/-- The offsets that variables have been given. -/
def offsets (slots : List LoopSlot) : List Nat := (slots.filter (·.given)).map (·.offset)

/-- The offsets of slots add up. -/
theorem offsets_append (slots slots' : List LoopSlot) :
    offsets (slots ++ slots') = offsets slots ++ offsets slots' := by
  rw [offsets, List.filter_append, List.map_append]
  rfl

/-- The variables of a loop that starts with the counter at `current`. -/
def Stmt.ownSlots (s : Stmt) (current : Nat) : List LoopSlot :=
  (s.givenVars.zipIdx current).map (fun v => ⟨v.1, true, v.2⟩) ++
    s.otherVars.map (⟨·, false, 0⟩)

/-- Variables get the next offsets one after the other. -/
theorem setStackOffsets_eq (vs : List LoopVar) (ctx : StackCtx) :
    (setStackOffsets vs ctx).1 = (vs.zipIdx ctx.current).map (fun v => ⟨v.1, true, v.2⟩) ∧
      (setStackOffsets vs ctx).2.current = ctx.current + vs.length ∧
      (ctx.current ≤ ctx.max →
        (setStackOffsets vs ctx).2.max = max ctx.max (ctx.current + vs.length)) := by
  induction vs generalizing ctx with
  | nil => exact ⟨rfl, rfl, fun h => by simpa [setStackOffsets] using h⟩
  | cons v vs ih =>
    obtain ⟨h1, h2, h3⟩ := ih (setStackOffset ctx).2
    refine ⟨?_, ?_, fun h => ?_⟩
    · rw [List.zipIdx_cons, List.map_cons]
      exact congrArg _ h1
    · rw [List.length_cons]
      refine h2.trans ?_
      show ctx.current + 1 + vs.length = _
      omega
    · have hmax : (setStackOffset ctx).2.max = max ctx.max (ctx.current + 1) := by
        simp only [setStackOffset]
        split <;> omega
      have hle : (setStackOffset ctx).2.current ≤ (setStackOffset ctx).2.max := by
        rw [hmax]
        exact Nat.le_max_right _ _
      refine (h3 hle).trans ?_
      rw [hmax, List.length_cons]
      show max (max ctx.max (ctx.current + 1)) (ctx.current + 1 + vs.length) = _
      omega

/-- Entering a loop gives offsets to those of its variables that are on the stack. -/
theorem Stmt.enterLoop_eq (s : Stmt) (ctx : StackCtx) :
    (s.enterLoop ctx).1 = s.ownSlots ctx.current ∧
      (s.enterLoop ctx).2.current = ctx.current + s.givenVars.length ∧
      (ctx.current ≤ ctx.max →
        (s.enterLoop ctx).2.max = max ctx.max (ctx.current + s.givenVars.length)) := by
  obtain ⟨h1, h2, h3⟩ := setStackOffsets_eq s.givenVars ctx
  refine ⟨?_, h2, h3⟩
  rw [Stmt.enterLoop, Stmt.ownSlots, ← h1]

/-- A slot of a loop is that of one of its variables. -/
theorem Stmt.mem_ownSlots {s : Stmt} {current : Nat} {slot : LoopSlot}
    (h : slot ∈ s.ownSlots current) :
    (slot.var, slot.given) ∈ s.ownUses ∧ (slot.given = false → slot.offset = 0) := by
  rcases List.mem_append.mp h with h | h
  · obtain ⟨⟨v, i⟩, hv, rfl⟩ := List.mem_map.mp h
    have hmem : v ∈ s.givenVars := List.fst_mem_of_mem_zipIdx hv
    exact ⟨List.mem_append_left _ (List.mem_map_of_mem hmem), fun h => nomatch h⟩
  · obtain ⟨v, hv, rfl⟩ := List.mem_map.mp h
    exact ⟨List.mem_append_right _ (List.mem_map_of_mem hv), fun _ => rfl⟩

/-- Every variable of a loop has a slot. -/
theorem Stmt.exists_mem_ownSlots {s : Stmt} (current : Nat) {v : LoopVar × Bool}
    (h : v ∈ s.ownUses) : ∃ slot ∈ s.ownSlots current, (slot.var, slot.given) = v := by
  rcases List.mem_append.mp h with h | h
  · obtain ⟨x, hx, rfl⟩ := List.mem_map.mp h
    obtain ⟨i, hi, rfl⟩ := List.mem_iff_getElem.mp hx
    refine ⟨⟨s.givenVars[i], true, current + i⟩, List.mem_append_left _ ?_, rfl⟩
    refine List.mem_map.mpr ⟨(s.givenVars[i], current + i), ?_, rfl⟩
    rw [List.mem_iff_getElem]
    exact ⟨i, by simpa using hi, by simp⟩
  · obtain ⟨x, hx, rfl⟩ := List.mem_map.mp h
    exact ⟨_, List.mem_append_right _ (List.mem_map_of_mem hx), rfl⟩

/-- An offset that was given is one of the next ones. -/
theorem Stmt.offset_of_given {s : Stmt} {current : Nat} {slot : LoopSlot}
    (h : slot ∈ s.ownSlots current) (hgiven : slot.given = true) :
    ∃ j, s.givenVars[j]? = some slot.var ∧ slot.offset = current + j := by
  rcases List.mem_append.mp h with h | h
  · obtain ⟨⟨v, i⟩, hv, rfl⟩ := List.mem_map.mp h
    obtain ⟨hle, hlt, hget⟩ := List.mem_zipIdx hv
    refine ⟨i - current, ?_, by show i = _; omega⟩
    rw [hget]
    exact List.getElem?_eq_getElem _
  · obtain ⟨v, -, rfl⟩ := List.mem_map.mp h
    cases hgiven

/-- A loop takes the next offsets. -/
theorem Stmt.offsets_ownSlots (s : Stmt) (current : Nat) :
    offsets (s.ownSlots current) = List.range' current s.givenVars.length := by
  have hgiven : ∀ l : List (LoopVar × Nat),
      offsets (l.map fun v => ⟨v.1, true, v.2⟩) = l.map Prod.snd := by
    intro l
    simp [offsets, List.filter_map, Function.comp_def]
  have hother : offsets (s.otherVars.map (⟨·, false, 0⟩)) = [] := by
    simp [offsets, List.filter_map, Function.comp_def]
  rw [Stmt.ownSlots, offsets_append, hgiven, hother, List.append_nil, List.zipIdx_map_snd]

theorem Stmt.length_givenVars_le (s : Stmt) : s.givenVars.length ≤ s.words := by
  cases s with
  | «while» li =>
    cases hix : li.loopIx <;> cases hnamed : li.namedLoopIx <;>
      simp [givenVars, words, LoopInfo.indexVars, LoopInfo.genIx, hix, hnamed]
  | forRange li =>
    cases hix : li.loopIx <;> cases hnamed : li.namedLoopIx <;>
      simp [givenVars, words, LoopInfo.indexVars, LoopInfo.genIx, hix, hnamed]
  | forIn li _ lvar2 =>
    cases hix : li.loopIx <;> cases hnamed : li.namedLoopIx <;> cases hlast : li.loopLast <;>
      cases hlabel : li.namedLoopLast <;> cases lvar2 <;>
      simp [givenVars, words, LoopInfo.indexVars, LoopInfo.lenVars, hix, hnamed, hlast, hlabel]
  | _ => exact Nat.zero_le _

/-! ## Symbols with their places -/

section

variable {site : LoopSite} {f : Bool} {v : LoopVar} {sym : Symbol}

/-- A symbol of a loop is that of one of its slots. -/
theorem LoopSite.symbol_cases (h : site.symbol f v = some sym) :
    ∃ slot ∈ site.own, slot.var = v ∧ sym = slot.symbol f := by
  obtain ⟨slot, hslot, rfl⟩ := Option.map_eq_some_iff.mp h
  exact ⟨slot, List.mem_of_find?_eq_some hslot, by simpa using List.find?_some hslot, rfl⟩

/-- **A variable that is not on the stack** is addressed as static data. -/
theorem LoopSite.symbol_static (h : site.symbol f v = some sym) (hv : v.storage f ≠ .stack) :
    ∃ off, sym = .static 0 off := by
  obtain ⟨slot, -, rfl, rfl⟩ := LoopSite.symbol_cases h
  exact ⟨slot.offset, if_neg hv⟩

/-- **One that is** has an offset of its own. -/
theorem LoopSite.symbol_stack (h : site.symbol f v = some sym) (hv : v.storage f = .stack) :
    ∃ slot ∈ site.own, slot.var = v ∧ sym = .stack slot.offset := by
  obtain ⟨slot, hslot, rfl, rfl⟩ := LoopSite.symbol_cases h
  exact ⟨slot, hslot, rfl, if_pos hv⟩

end

/-! ## Bodies without offsets -/

theorem Stmt.ownUses_eq_nil {s : Stmt} (h : s.givenVars.length = 0) : s.ownUses = [] := by
  have hgiven : s.givenVars = [] := List.eq_nil_of_length_eq_zero h
  have hother : s.otherVars = [] := by
    cases s with
    | «while» li =>
      cases hix : li.loopIx with
      | none => simp [otherVars, LoopInfo.otherIndexVars, hix]
      | some sym => simp [givenVars, LoopInfo.indexVars, hix] at hgiven
    | forRange => cases hgiven
    | forIn => cases hgiven
    | _ => rfl
  rw [Stmt.ownUses, hgiven, hother]
  rfl

mutual

/-- A statement that needs no slots has no variables of loops. -/
theorem Stmt.uses_eq_nil : ∀ (s : Stmt), s.height = 0 → s.uses = []
  | .skip, _ => rfl
  | .seq first rest, h => by
    have hmax := Nat.max_eq_zero_iff.mp h
    rw [Stmt.uses, first.uses_eq_nil hmax.1, rest.uses_eq_nil hmax.2]
    rfl
  | .expression _, _ => rfl
  | .assign _, _ => rfl
  | .cond _ body rest, h => by
    have hmax := Nat.max_eq_zero_iff.mp h
    rw [Stmt.uses, body.uses_eq_nil hmax.1, rest.uses_eq_nil hmax.2]
    rfl
  | .while li test body, h => by
    have hsum := Nat.add_eq_zero_iff.mp h
    rw [Stmt.uses, Stmt.ownUses_eq_nil hsum.1, body.uses_eq_nil hsum.2]
    rfl
  | .forRange li lvar lo hi body, h => by
    have hsum := Nat.add_eq_zero_iff.mp h
    rw [Stmt.uses, Stmt.ownUses_eq_nil hsum.1, body.uses_eq_nil hsum.2]
    rfl
  | .forIn li lvar1 lvar2 container body, h => by
    have hsum := Nat.add_eq_zero_iff.mp h
    rw [Stmt.uses, Stmt.ownUses_eq_nil hsum.1, body.uses_eq_nil hsum.2]
    rfl
  | .switch _ _ _ _ cases, h => cases.uses_eq_nil h
  | .typeof _ _ _ cases, h => cases.uses_eq_nil h
  | .break _, _ => rfl
  | .continue _, _ => rfl

theorem Chain.uses_eq_nil : ∀ (c : Chain), c.height = 0 → c.uses = []
  | .none, _ => rfl
  | .else body, h => body.uses_eq_nil h
  | .elif _ body rest, h => by
    have hmax := Nat.max_eq_zero_iff.mp h
    rw [Chain.uses, body.uses_eq_nil hmax.1, rest.uses_eq_nil hmax.2]
    rfl

theorem Cases.uses_eq_nil : ∀ (c : Cases), c.height = 0 → c.uses = []
  | .none, _ => rfl
  | .else body, h => body.uses_eq_nil h
  | .case _ body rest, h => by
    have hmax := Nat.max_eq_zero_iff.mp h
    rw [Cases.uses, body.uses_eq_nil hmax.1, rest.uses_eq_nil hmax.2]
    rfl

end

/-! ## The offsets of a body -/

/-- The variables of the loops around a place have the `k` offsets from `start` on, and there are no
fewer words on the stack. -/
structure Open (start k : Nat) (live : List LoopSlot) (words : Nat) (ctx : StackCtx) : Prop where
  current : ctx.current = start + k
  given : offsets live = List.range' start k
  words : k ≤ words
  other : ∀ slot ∈ live, slot.given = false → slot.offset = 0

/-- Inside of a loop its slots are live too. -/
theorem Open.enter {start k words : Nat} {live : List LoopSlot} {ctx : StackCtx}
    (h : Open start k live words ctx) (s : Stmt) :
    Open start (k + s.givenVars.length) (live ++ (s.enterLoop ctx).1) (words + s.words)
      (s.enterLoop ctx).2 where
  current := by
    rw [(s.enterLoop_eq ctx).2.1, h.current, Nat.add_assoc]
  given := by
    rw [offsets_append, h.given, (s.enterLoop_eq ctx).1, s.offsets_ownSlots, h.current,
      List.range'_append_1]
  words := Nat.add_le_add h.words s.length_givenVars_le
  other := by
    intro slot hslot
    rcases List.mem_append.mp hslot with hslot | hslot
    · exact h.other slot hslot
    · rw [(s.enterLoop_eq ctx).1] at hslot
      exact (Stmt.mem_ownSlots hslot).2

/-- A loop with `m` offsets in use around it, and no more than `top` with its own. -/
structure LoopSite.Fits (site : LoopSite) (start top m : Nat) : Prop where
  around : offsets site.around = List.range' start m
  words : m ≤ site.words
  own : site.own = site.loop.ownSlots (start + m)
  top : m + site.loop.givenVars.length ≤ top
  other : ∀ slot ∈ site.live, slot.given = false → slot.offset = 0

theorem LoopSite.Fits.live {site : LoopSite} {start top m : Nat} (h : site.Fits start top m) :
    offsets site.live = List.range' start (m + site.loop.givenVars.length) := by
  rw [LoopSite.live, offsets_append, h.around, h.own, Stmt.offsets_ownSlots, List.range'_append_1]

/-- What the generation of code does at a place with `k` offsets in use: it gives the next ones, at
most `h` at a time, to the variables `uses`, and sets the counter back. -/
structure Allots (start k h : Nat) (live : List LoopSlot) (uses : List (LoopVar × Bool))
    (ctx : StackCtx) (r : List LoopSite × StackCtx) : Prop where
  current : r.2.current = ctx.current
  fits : ∀ site ∈ r.1, ∃ m, site.Fits start (k + h) m
  known : ∀ site ∈ r.1, ∀ slot ∈ site.live, slot ∈ live ∨ (slot.var, slot.given) ∈ uses
  shown : ∀ v ∈ uses, ∃ site ∈ r.1, ∃ slot ∈ site.live, (slot.var, slot.given) = v
  reached : 0 < h → ∃ site ∈ r.1, offsets site.live = List.range' start (k + h)
  most : ctx.current ≤ ctx.max → r.2.max = max ctx.max (start + k + h)

namespace Allots

variable {start k h h' : Nat} {live : List LoopSlot} {uses uses' : List (LoopVar × Bool)}
  {ctx : StackCtx} {r r' : List LoopSite × StackCtx}

theorem none (hcur : ctx.current = start + k) : Allots start k 0 live [] ctx ([], ctx) where
  current := rfl
  fits _ hsite := absurd hsite List.not_mem_nil
  known _ hsite := absurd hsite List.not_mem_nil
  shown _ hv := absurd hv List.not_mem_nil
  reached hpos := absurd hpos (Nat.lt_irrefl 0)
  most hle := by
    rw [hcur] at hle
    exact (Nat.max_eq_left hle).symm

/-- Two statements one behind the other take the slots of the larger one. -/
theorem seq (hr : Allots start k h live uses ctx r) (hr' : Allots start k h' live uses' r.2 r') :
    Allots start k (max h h') live (uses ++ uses') ctx (r.1 ++ r'.1, r'.2) where
  current := hr'.current.trans hr.current
  fits := by
    intro site hsite
    have hmono : ∀ h₁ ≤ max h h', (∃ m, site.Fits start (k + h₁) m) →
        ∃ m, site.Fits start (k + max h h') m := by
      rintro h₁ hle ⟨m, hm⟩
      exact ⟨m, hm.around, hm.words, hm.own, hm.top.trans (Nat.add_le_add_left hle k), hm.other⟩
    rcases List.mem_append.mp hsite with hsite | hsite
    · exact hmono h (Nat.le_max_left _ _) (hr.fits site hsite)
    · exact hmono h' (Nat.le_max_right _ _) (hr'.fits site hsite)
  known := by
    intro site hsite slot hslot
    rcases List.mem_append.mp hsite with hsite | hsite
    · exact (hr.known site hsite slot hslot).imp_right (List.mem_append_left _)
    · exact (hr'.known site hsite slot hslot).imp_right (List.mem_append_right _)
  shown := by
    intro v hv
    rcases List.mem_append.mp hv with hv | hv
    · obtain ⟨site, hsite, hslot⟩ := hr.shown v hv
      exact ⟨site, List.mem_append_left _ hsite, hslot⟩
    · obtain ⟨site, hsite, hslot⟩ := hr'.shown v hv
      exact ⟨site, List.mem_append_right _ hsite, hslot⟩
  reached := by
    intro hpos
    rcases Nat.le_total h h' with hle | hle
    · rw [Nat.max_eq_right hle] at hpos ⊢
      obtain ⟨site, hsite, hoff⟩ := hr'.reached hpos
      exact ⟨site, List.mem_append_right _ hsite, hoff⟩
    · rw [Nat.max_eq_left hle] at hpos ⊢
      obtain ⟨site, hsite, hoff⟩ := hr.reached hpos
      exact ⟨site, List.mem_append_left _ hsite, hoff⟩
  most := by
    intro hle
    have h1 := hr.most hle
    have h2 := hr'.most (by rw [hr.current, h1]; exact hle.trans (Nat.le_max_left _ _))
    rw [h2, h1]
    show max (max ctx.max (start + k + h)) (start + k + h') = max ctx.max (start + k + max h h')
    omega

/-- A loop takes its own slots and those of its body. -/
theorem loop {words : Nat} (hopen : Open start k live words ctx) (s : Stmt)
    (hr : Allots start (k + s.givenVars.length) h (live ++ (s.enterLoop ctx).1) uses
      (s.enterLoop ctx).2 r) :
    Allots start k (s.givenVars.length + h) live (s.ownUses ++ uses) ctx
      (⟨s, live, (s.enterLoop ctx).1, words⟩ :: r.1, { r.2 with current := ctx.current }) := by
  obtain ⟨hown, hcur, hmax⟩ := s.enterLoop_eq ctx
  have hhead : (⟨s, live, (s.enterLoop ctx).1, words⟩ : LoopSite).Fits start
      (k + (s.givenVars.length + h)) k :=
    ⟨hopen.given, hopen.words, by rw [hown, hopen.current], Nat.add_le_add_left
      (Nat.le_add_right _ _) k, (hopen.enter s).other⟩
  -- What is known of the slots of the loop itself.
  have hslots : ∀ slot ∈ live ++ (s.enterLoop ctx).1,
      slot ∈ live ∨ (slot.var, slot.given) ∈ s.ownUses ++ uses := by
    intro slot hslot
    rcases List.mem_append.mp hslot with hslot | hslot
    · exact .inl hslot
    · rw [hown] at hslot
      exact .inr (List.mem_append_left _ (Stmt.mem_ownSlots hslot).1)
  constructor
  case current => rfl
  case fits =>
    intro site hsite
    rcases List.mem_cons.mp hsite with rfl | hsite
    · exact ⟨k, hhead⟩
    · rw [← Nat.add_assoc]
      exact hr.fits site hsite
  case known =>
    intro site hsite slot hslot
    rcases List.mem_cons.mp hsite with rfl | hsite
    · exact hslots slot hslot
    · rcases hr.known site hsite slot hslot with hslot | hslot
      · exact hslots slot hslot
      · exact .inr (List.mem_append_right _ hslot)
  case shown =>
    intro v hv
    rcases List.mem_append.mp hv with hv | hv
    · obtain ⟨slot, hslot, hv⟩ := s.exists_mem_ownSlots ctx.current hv
      rw [← hown] at hslot
      exact ⟨_, List.mem_cons_self, slot, List.mem_append_right _ hslot, hv⟩
    · obtain ⟨site, hsite, hslot⟩ := hr.shown v hv
      exact ⟨site, List.mem_cons_of_mem _ hsite, hslot⟩
  case reached =>
    intro hpos
    rcases Nat.eq_zero_or_pos h with rfl | hh
    · exact ⟨_, List.mem_cons_self, hhead.live⟩
    · rw [← Nat.add_assoc]
      obtain ⟨site, hsite, hoff⟩ := hr.reached hh
      exact ⟨site, List.mem_cons_of_mem _ hsite, hoff⟩
  case most =>
    intro hle
    have hbody := hr.most (by rw [hcur, hmax hle]; exact Nat.le_max_right _ _)
    show r.2.max = _
    rw [hbody, hmax hle, hopen.current]
    omega

end Allots

theorem Open.congr {start k words : Nat} {live : List LoopSlot} {ctx ctx' : StackCtx}
    (h : Open start k live words ctx) (hcur : ctx'.current = ctx.current) :
    Open start k live words ctx' :=
  ⟨hcur.trans h.current, h.given, h.words, h.other⟩

mutual

/-- **The offsets given are consecutive**: what the code of a statement does to the counters. -/
theorem Stmt.allot_spec (start k : Nat) : ∀ (s : Stmt) {live : List LoopSlot} {words : Nat}
    {ctx : StackCtx}, Open start k live words ctx →
    Allots start k s.height live s.uses ctx (s.allot live words ctx)
  | .skip, _, _, _, hopen => Allots.none hopen.current
  | .seq first rest, _, _, _, hopen => by
    have h1 := first.allot_spec start k hopen
    exact h1.seq (rest.allot_spec start k (hopen.congr h1.current))
  | .expression _, _, _, _, hopen => Allots.none hopen.current
  | .assign _, _, _, _, hopen => Allots.none hopen.current
  | .cond _ body rest, _, _, _, hopen => by
    have h1 := body.allot_spec start k hopen
    exact h1.seq (rest.allot_spec start k (hopen.congr h1.current))
  | .while _ _ body, _, _, _, hopen =>
    Allots.loop hopen _ (body.allot_spec start _ (hopen.enter _))
  | .forRange _ _ _ _ body, _, _, _, hopen =>
    Allots.loop hopen _ (body.allot_spec start _ (hopen.enter _))
  | .forIn _ _ _ _ body, _, _, _, hopen =>
    Allots.loop hopen _ (body.allot_spec start _ (hopen.enter _))
  | .switch _ _ _ _ cases, _, _, _, hopen => cases.allot_spec start k hopen
  | .typeof _ _ _ cases, _, _, _, hopen => cases.allot_spec start k hopen
  | .break _, _, _, _, hopen => Allots.none hopen.current
  | .continue _, _, _, _, hopen => Allots.none hopen.current

theorem Chain.allot_spec (start k : Nat) : ∀ (c : Chain) {live : List LoopSlot} {words : Nat}
    {ctx : StackCtx}, Open start k live words ctx →
    Allots start k c.height live c.uses ctx (c.allot live words ctx)
  | .none, _, _, _, hopen => Allots.none hopen.current
  | .else body, _, _, _, hopen => body.allot_spec start k hopen
  | .elif _ body rest, _, _, _, hopen => by
    have h1 := body.allot_spec start k hopen
    exact h1.seq (rest.allot_spec start k (hopen.congr h1.current))

theorem Cases.allot_spec (start k : Nat) : ∀ (c : Cases) {live : List LoopSlot} {words : Nat}
    {ctx : StackCtx}, Open start k live words ctx →
    Allots start k c.height live c.uses ctx (c.allot live words ctx)
  | .none, _, _, _, hopen => Allots.none hopen.current
  | .else body, _, _, _, hopen => body.allot_spec start k hopen
  | .case _ body rest, _, _, _, hopen => by
    have h1 := body.allot_spec start k hopen
    exact h1.seq (rest.allot_spec start k (hopen.congr h1.current))

end

end N00b.Codegen
