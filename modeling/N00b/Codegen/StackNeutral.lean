import N00b.Codegen.EntryPoints
import N00b.Vm.Block

/-!
# Statements and the stack pointer

In a run of the code of a statement the stack pointer is where the depths of the layout say, as
long as no step leaks. At the end of the statement the depth is the one of its beginning.
-/

namespace N00b.Codegen

open N00b.Vm N00b.Lib

variable {H : Type} {host : Host H}

/-! ## Instructions that go on to the next one -/

/-- The view of a dictionary comes in pairs of words only if its items have eight bytes. -/
def Unpaired (i : Instr) (st : VmState H) : Prop := i = .loadFromView true ∧ st.peek 0 ≠ 8

/-- Goes on to the next instruction with `n` more slots on the stack. -/
def Advances (n : Int) (st st' : VmState H) : Prop :=
  st'.pc = st.pc + 1 ∧ (st'.sp : Int) + n = st.sp

/-- A push moves the stack up by one. -/
theorem push_advances {st : VmState H} (hsp : 1 ≤ st.sp) (w : Word) :
    Advances 1 st (st.push w).next := by
  refine ⟨rfl, ?_⟩
  show ((st.sp - 1 : Nat) : Int) + 1 = st.sp
  omega

variable {st st' : VmState H}

theorem requireSlots_push {n : Nat} {w : Word} (hn : 1 ≤ n)
    (h : requireSlots n st (.ok (st.push w).next) = .ok st') : Advances 1 st st' := by
  obtain ⟨hsp, h⟩ := requireSlots_eq_ok h
  cases h
  exact push_advances (hn.trans hsp) w

/-- An instruction that replaces its operands takes off all but one. -/
theorem replaceTop_advances (n : Nat) (w : Word) (st : VmState H) :
    Advances (-n) st (replaceTop n w st).next := by
  refine ⟨rfl, ?_⟩
  show ((st.sp + n : Nat) : Int) + -n = st.sp
  omega

/-- A call of the host takes its operands and leaves its results. -/
theorem hostCall_advances {op : HostOp} {pops pushes : Nat}
    (hsp : pushes ≤ st.sp + pops) (h : hostCall host op pops pushes st = .ok st') :
    Advances (pushes - pops) st st' := by
  obtain ⟨hpc, hsp'⟩ := hostCall_eq_ok h
  refine ⟨hpc, ?_⟩
  rw [hsp']
  omega

theorem arith_advances {n : Nat} {r : Except Fault Word}
    (h : (match r with
      | .ok w => (.ok (replaceTop n w st).next : StepResult H)
      | .error f => .halt f) = .ok st') : Advances (-n) st st' := by
  cases r with
  | ok w =>
    cases h
    exact replaceTop_advances n w st
  | error f => cases h

/-- A call of a type function does likewise. -/
theorem tcall_advances {fn : TypeFn} {ty : Option Builtin}
    (h : execInstr host (.tcall fn ty) st = .ok st') :
    Advances (fn.results - fn.operands) st st' := by
  obtain ⟨hsp, h⟩ := requireSlots_eq_ok (requireValues_eq_ok h)
  split at h
  next b hraw =>
    cases h
    have hfn : (fn.results : Int) - fn.operands = -(1 : Nat) := by
      split at hraw
      · cases fn <;> first | rfl | cases hraw
      · cases hraw
    rw [hfn]
    exact replaceTop_advances 1 _ st
  next => exact hostCall_advances (by omega) h

/-- **Every straight instruction** moves the stack by its effect, but for a view or an unpaired
load. -/
theorem execInstr_straight {i : Instr} (hi : (Piece.op i).straight)
    (hview : ¬ Unpaired i st) (h : execInstr host i st = .ok st') :
    Advances (effect i) st st' := by
  cases i with
  | nop => cases h; exact ⟨rfl, by simp [effect, VmState.next]⟩
  | moveSp arg =>
    unfold execInstr at h
    simp only at h
    split at h
    · obtain ⟨hsp, h⟩ := requireSlots_eq_ok h
      cases h
      refine ⟨rfl, ?_⟩
      show ((st.sp - arg.toNat : Nat) : Int) + arg = st.sp
      omega
    · cases h
      refine ⟨rfl, ?_⟩
      show ((st.sp + (-arg).toNat : Nat) : Int) + arg = st.sp
      omega
  | pushConstObj arg =>
    obtain ⟨hsp, h⟩ := requireSlots_eq_ok h
    exact hostCall_advances hsp h
  | pushImm w | pushLocalObj arg | pushLocalRef arg => exact requireSlots_push le_rfl h
  | pushStaticObj m arg | pushStaticRef m arg => exact requireSlots_push le_rfl h
  | dupTop => exact requireSlots_push le_rfl (requireValues_eq_ok h)
  | pop =>
    cases requireValues_eq_ok h
    exact ⟨rfl, by simp [effect, VmState.next, VmState.drop]⟩
  | deref =>
    cases requireValues_eq_ok h
    exact replaceTop_advances 0 _ st
  | jz arg => cases hi
  | jnz arg => cases hi
  | j arg => cases hi
  | arith op => exact arith_advances (requireValues_eq_ok h)
  | float op => exact hostCall_advances (by omega) (requireValues_eq_ok h)
  | compare op =>
    cases requireValues_eq_ok h
    exact replaceTop_advances 1 _ st
  | subNoPop =>
    obtain ⟨hsp, h⟩ := requireSlots_eq_ok (requireValues_eq_ok h)
    split at h
    · cases h
      exact push_advances hsp _
    · cases h
  | shlI arg => exact arith_advances (requireValues_eq_ok h)
  | not | abs | getSign =>
    cases requireValues_eq_ok h
    exact replaceTop_advances 0 _ st
  | swap =>
    cases requireValues_eq_ok h
    exact ⟨rfl, by simp [effect, VmState.next, VmState.poke]⟩
  | gteNoPop | cmpNoPop => exact requireSlots_push le_rfl (requireValues_eq_ok h)
  | unsteal =>
    obtain ⟨hsp, h⟩ := requireSlots_eq_ok (requireValues_eq_ok h)
    cases h
    show Advances 1 (st.poke st.sp (st.peek 0 &&& ~~~ 7)) _
    exact push_advances hsp (st.peek 0 &&& 7)
  | popTo r =>
    cases requireValues_eq_ok h
    exact ⟨rfl, by simp [effect, VmState.next]⟩
  | pushFrom r =>
    cases r with
    | r3 => exact requireSlots_push (by omega) h
    | r0 | r1 | r2 => exact requireSlots_push le_rfl h
  | tcall fn ty => exact tcall_advances h
  | pushObjType =>
    obtain ⟨hsp, h⟩ := requireSlots_eq_ok h
    exact hostCall_advances (by omega) h
  | typeCmp => exact hostCall_advances (by omega) (requireValues_eq_ok h)
  | loadFromView kv =>
    obtain ⟨hsp, h⟩ := requireSlots_eq_ok (requireValues_eq_ok h)
    cases kv with
    | false =>
      simp only [Bool.false_and, Bool.false_eq_true, if_false] at h
      exact hostCall_advances (by omega) h
    | true =>
      have height : st.peek 0 = 8 := by
        by_contra hne
        exact hview ⟨rfl, hne⟩
      simp only [height, beq_self_eq_true, Bool.and_self, if_true] at h
      exact hostCall_advances (by omega) h
  | assignToLoc =>
    cases requireValues_eq_ok h
    exact ⟨by simp [VmState.next, VmState.drop], by simp [effect, VmState.next, VmState.drop]⟩
  | loadFromAttr flag => cases hi
  | assignAttr lock => exact hostCall_advances (by omega) (requireValues_eq_ok h)
  | unpack arg =>
    obtain ⟨hpc, hsp⟩ := unpackLoop_eq_ok h
    exact ⟨hpc, by rw [hsp]; simp [effect]⟩

/-! ## Runs of a layout -/

/-- The item that stands at `p`. -/
def ItemAt : Layout → (base p : Nat) → Item → Prop
  | [], _, _, _ => False
  | it' :: l, base, p, it => (p = base ∧ it = it') ∨ ItemAt l (base + it'.what.size) p it

namespace ItemAt

variable {l : Layout} {base p : Nat} {it : Item}

theorem mem (h : ItemAt l base p it) : it ∈ l := by
  induction l generalizing base with
  | nil => cases h
  | cons it' l ih =>
    rcases h with ⟨-, rfl⟩ | h
    · exact List.mem_cons_self
    · exact List.mem_cons_of_mem _ (ih h)

theorem ge (h : ItemAt l base p it) : base ≤ p := by
  induction l generalizing base with
  | nil => cases h
  | cons it' l ih =>
    rcases h with ⟨rfl, -⟩ | h
    · exact le_rfl
    · exact (Nat.le_add_right _ _).trans (ih h)

/-- A place with a depth is not inside of an item. -/
theorem not_inside (h : ItemAt l base p it) {q : Nat} {d dend : Int} (hq : At l base dend q d)
    (hlt : p < q) : p + it.what.size ≤ q := by
  induction l generalizing base with
  | nil => cases h
  | cons it' l ih =>
    rcases h with ⟨rfl, rfl⟩ | h
    · rcases hq with ⟨rfl, -⟩ | hq
      · omega
      · exact hq.ge
    · rcases hq with ⟨rfl, -⟩ | hq
      · have := h.ge
        omega
      · exact ih h hq

theorem block {code : List Instr} {exitOf : Nat → Nat} (h : ItemAt l base p it)
    (hcode : BlockAt code base (l.code exitOf base)) : BlockAt code p (it.what.code exitOf p) := by
  induction l generalizing base with
  | nil => cases h
  | cons it' l ih =>
    rw [Layout.code] at hcode
    rcases h with ⟨rfl, rfl⟩ | h
    · exact hcode.left
    · have hright := hcode.right
      rw [What.length_code] at hright
      exact ih h hright

/-- Behind an item is the next place with a depth. -/
theorem next {d dend : Int} (h : ItemAt l base p it) (hl : Chained l d dend) :
    ∃ d', it.Falls d' ∧ At l base dend (p + it.what.size) d' := by
  induction l generalizing base d with
  | nil => cases h
  | cons it' l ih =>
    obtain ⟨hd, d', hfalls, hrest⟩ := hl
    rcases h with ⟨rfl, rfl⟩ | h
    · exact ⟨d', hfalls, .inr (hrest.at_start _)⟩
    · obtain ⟨d'', hfalls', hat⟩ := ih h hrest
      exact ⟨d'', hfalls', .inr hat⟩

end ItemAt

/-- At a place in front of the end stands an item. -/
theorem At.item {l : Layout} {base p : Nat} {d dend : Int} (h : At l base dend p d)
    (hp : p < base + l.size) : ∃ it, ItemAt l base p it ∧ it.depth = d := by
  induction l generalizing base with
  | nil =>
    obtain ⟨rfl, -⟩ := h
    simp at hp
  | cons it l ih =>
    rcases h with ⟨rfl, rfl⟩ | h
    · exact ⟨it, .inl ⟨rfl, rfl⟩, rfl⟩
    · rw [Layout.size_cons, ← Nat.add_assoc] at hp
      obtain ⟨it', hit, hd⟩ := ih h hp
      exact ⟨it', .inr hit, hd⟩

/-- An expression pushes one value: from the first instruction its code goes forward, and when
it gets out it is at the end of the code with one more slot on the stack. -/
def PushesOne (host : Host H) (e : ExprCode) : Prop :=
  ∀ (code : List Instr) (st st₁ st' : VmState H), BlockAt code st.pc (e.code st.pc) →
    step host code st = .ok st₁ → Runs host code (st.pc + 1) (st.pc + e.size) st₁ (.ok st') →
    st'.pc = st.pc + e.size ∧ st'.sp + 1 = st.sp

/-- The next step at this item leaves more or less on the stack than the layout calls for. -/
def Item.Leaks (it : Item) (st : VmState H) : Prop :=
  match it.what with
  | .op (.jz _) => if st.peek 0 = 0 then it.taken ≠ 0 else it.fall ≠ 0
  | .op (.jnz _) => if st.peek 0 ≠ 0 then it.taken ≠ 0 else it.fall ≠ 0
  | .op (.j _) | .exit _ => it.taken ≠ 0
  | .op i => it.fall ≠ 0 ∨ Unpaired i st
  | .expr _ => it.fall ≠ 0

theorem Item.falls_straight {i : Instr} {d fall taken d' : Int} (hi : (Piece.op i).straight)
    (h : Item.Falls ⟨.op i, d, fall, taken⟩ d') : d' = d + effect i - fall := by
  cases i <;> first | exact h | cases hi

/-- A straight item that does not leak falls through at the depth of its effect. -/
theorem Item.leaks_straight {i : Instr} {d fall taken : Int} {st : VmState H}
    (hi : (Piece.op i).straight) (h : ¬ Item.Leaks ⟨.op i, d, fall, taken⟩ st) :
    fall = 0 ∧ ¬ Unpaired i st := by
  have hor : ¬ (fall ≠ 0 ∨ Unpaired i st) := by
    cases i <;> first | exact h | cases hi
  exact ⟨not_not.mp fun hne => hor (.inl hne), fun hun => hor (.inr hun)⟩

def Layout.Leaks (l : Layout) (base : Nat) (st : VmState H) : Prop :=
  ∃ it, ItemAt l base st.pc it ∧ it.Leaks st

section

variable {code : List Instr} {exitOf : Nat → Nat} {l : Layout} {base : Nat} {dend : Int}

/-- What a layout without open exits needs in order to be run. -/
structure Runnable (host : Host H) (code : List Instr) (exitOf : Nat → Nat) (l : Layout)
    (base : Nat) (d dend : Int) : Prop where
  block : BlockAt code base (l.code exitOf base)
  chained : Chained l d dend
  lands : l.Lands (fun _ => 0) (At l base dend)
  closed : l.ExitsIn []
  pushesOne : ∀ it ∈ l, ∀ e, it.what = .expr e → PushesOne host e

/-- The stack pointer at a place of the layout. -/
def AtDepth (l : Layout) (base : Nat) (dend top : Int) (st : VmState H) : Prop :=
  ∃ d, At l base dend st.pc d ∧ (st.sp : Int) + d = top

/-- Inside of an expression that started at `st₁`. -/
def InExpr (host : Host H) (code : List Instr) (l : Layout) (base : Nat) (top : Int)
    (st : VmState H) : Prop :=
  ∃ it e st₁ st₂, ItemAt l base st₁.pc it ∧ it.what = .expr e ∧ it.fall = 0 ∧
    (st₁.sp : Int) + it.depth = top ∧ step host code st₁ = .ok st₂ ∧
    StepsIn (step host code) (InBlock (st₁.pc + 1) (st₁.pc + e.size)) st₂ st ∧
    InBlock (st₁.pc + 1) (st₁.pc + e.size) st

variable {d top : Int} {st st' : VmState H}

theorem Runnable.expr_step (hr : Runnable host code exitOf l base d dend) {it : Item}
    {e : ExprCode} {st₁ st₂ : VmState H} (hit : ItemAt l base st₁.pc it) (he : it.what = .expr e)
    (hfall : it.fall = 0) (htop : (st₁.sp : Int) + it.depth = top)
    (hfirst : step host code st₁ = .ok st₂)
    (hsteps : StepsIn (step host code) (InBlock (st₁.pc + 1) (st₁.pc + e.size)) st₂ st') :
    AtDepth l base dend top st' ∨ InExpr host code l base top st' := by
  by_cases hin : InBlock (st₁.pc + 1) (st₁.pc + e.size) st'
  · exact .inr ⟨it, e, st₁, st₂, hit, he, hfall, htop, hfirst, hsteps, hin⟩
  · left
    have hblock := hit.block hr.block
    rw [he] at hblock
    obtain ⟨hpc, hsp⟩ := hr.pushesOne it hit.mem e he code st₁ st₂ st' hblock hfirst
      (hsteps.leave hin)
    obtain ⟨d', hfalls, hat⟩ := hit.next hr.chained
    simp only [Item.Falls, he, hfall, sub_zero] at hfalls
    rw [he] at hat
    refine ⟨d', ?_, by omega⟩
    rw [hpc]
    exact hat

/-- A jump that does not leak lands at a place with the depth that it has. -/
theorem jump_step {i : Instr} {dp fall taken d' : Int} (hi : ¬ (Piece.op i).straight)
    (hleak : ¬ Item.Leaks ⟨.op i, dp, fall, taken⟩ st) (htop : (st.sp : Int) + dp = top)
    (hexec : execInstr host i st = .ok st') (hfalls : Item.Falls ⟨.op i, dp, fall, taken⟩ d')
    (hat : At l base dend (st.pc + 1) d')
    (hlands : Item.Lands (fun _ => 0) (At l base dend) ⟨.op i, dp, fall, taken⟩) :
    AtDepth l base dend top st' := by
  -- The jump is taken, or it pops what it tested.
  have htaken : ∀ target, At l base dend target (dp - taken) → taken = 0 →
      AtDepth l base dend top { st with pc := target } := by
    rintro target htarget rfl
    rw [sub_zero] at htarget
    exact ⟨dp, htarget, htop⟩
  have hfell : d' = dp - 1 - fall → fall = 0 → AtDepth l base dend top (st.drop 1).next := by
    rintro hd rfl
    refine ⟨d', hat, ?_⟩
    show ((st.sp + 1 : Nat) : Int) + d' = top
    omega
  cases i with
  | jz target | jnz target =>
    have hexec := requireValues_eq_ok hexec
    simp only [Item.Leaks] at hleak
    split at hexec
    next h0 =>
      rw [if_pos h0] at hleak
      cases hexec
      exact htaken target hlands (not_not.mp hleak)
    next h0 =>
      rw [if_neg h0] at hleak
      cases hexec
      exact hfell hfalls (not_not.mp hleak)
  | j target =>
    cases hexec
    exact htaken target hlands (not_not.mp hleak)
  | loadFromAttr flag => cases hfalls
  | _ => exact absurd rfl hi

/-- **A step of the machine** goes from a place with a depth to another one, or into an expression.
-/
theorem Runnable.item_step (hr : Runnable host code exitOf l base d dend) {it : Item}
    (hit : ItemAt l base st.pc it) (hleak : ¬ it.Leaks st) (htop : (st.sp : Int) + it.depth = top)
    (hstep : step host code st = .ok st') :
    AtDepth l base dend top st' ∨ InExpr host code l base top st' := by
  have hblock := hit.block hr.block
  have hlands := hr.lands it hit.mem
  obtain ⟨d', hfalls, hat⟩ := hit.next hr.chained
  obtain ⟨w, dp, fall, taken⟩ := it
  cases w with
  | exit c => exact absurd (hr.closed _ hit.mem c rfl) List.not_mem_nil
  | expr e =>
    have hfall : fall = 0 := not_not.mp hleak
    exact hr.expr_step hit rfl hfall htop hstep .refl
  | op i =>
    left
    have hexec : execInstr host i st = .ok st' := by
      have hcode := BlockAt.head hblock
      rw [step, hcode] at hstep
      exact hstep
    by_cases hi : (Piece.op i).straight
    · obtain ⟨hfall, hview⟩ := Item.leaks_straight hi hleak
      obtain ⟨hpc, hsp⟩ := execInstr_straight hi hview hexec
      have hd := Item.falls_straight hi hfalls
      refine ⟨d', ?_, by simp only at htop; omega⟩
      rw [hpc]
      exact hat
    · exact jump_step hi hleak htop hexec hfalls hat hlands

/-- **At every place of the code** the stack is as high as the layout says. -/
theorem Runnable.atDepth (hr : Runnable host code exitOf l base d dend) (hpc : st.pc = base)
    (hsteps : StepsIn (step host code)
      (fun st => InBlock base (base + l.size) st ∧ ¬ l.Leaks base st) st st')
    {d' : Int} (hat : At l base dend st'.pc d') : (st'.sp : Int) + d' = st.sp + d := by
  have hinv : AtDepth l base dend (st.sp + d) st' ∨ InExpr host code l base (st.sp + d) st' := by
    refine hsteps.invariant (fun st₁ => AtDepth l base dend (st.sp + d) st₁ ∨
      InExpr host code l base (st.sp + d) st₁) ?_ ?_
    · refine .inl ⟨d, ?_, rfl⟩
      rw [hpc]
      exact hr.chained.at_start base
    · rintro st₁ st₂ ⟨hin, hleak⟩ hinv hstep
      rcases hinv with ⟨d₁, hat₁, htop⟩ | ⟨it, e, st₀, stf, hit, he, hfall, htop, hfirst, hs, hin'⟩
      · obtain ⟨it, hit, rfl⟩ := hat₁.item hin.2
        exact hr.item_step hit (fun h => hleak ⟨it, hit, h⟩) htop hstep
      · exact hr.expr_step hit he hfall htop hfirst (hs.tail hin' hstep)
  rcases hinv with ⟨d₁, hat₁, htop⟩ | ⟨it, e, st₀, stf, hit, he, -, -, -, -, hin⟩
  · rw [hat.unique hat₁, htop]
  · have hnot := hit.not_inside hat (by have := hin.1; omega)
    rw [he] at hnot
    have := hin.2
    simp only [What.size] at hnot
    omega

end

/-! ## The expressions of a statement -/

def exprsOf (ps : List Piece) : List ExprCode :=
  ps.filterMap fun
    | .expr e => some e
    | .op _ => none

def Condition.exprs : Condition → List ExprCode
  | .value e => [e]
  | .range lo hi => [lo, hi]
  | .type _ => []

mutual

def Stmt.exprs : Stmt → List ExprCode
  | .skip | .break _ | .continue _ => []
  | .seq first rest => first.exprs ++ rest.exprs
  | .expression e => [e]
  | .assign a => exprsOf a.pieces
  | .cond test body rest => test :: (body.exprs ++ rest.exprs)
  | .while _ test body => test :: body.exprs
  | .forRange _ _ lo hi body => lo :: hi :: body.exprs
  | .forIn _ _ _ container body => container :: body.exprs
  | .switch _ _ value _ cases => value :: cases.exprs
  | .typeof _ _ _ cases => cases.exprs

def Chain.exprs : Chain → List ExprCode
  | .none => []
  | .else body => body.exprs
  | .elif test body rest => test :: (body.exprs ++ rest.exprs)

def Cases.exprs : Cases → List ExprCode
  | .none => []
  | .else body => body.exprs
  | .case conditions body rest => conditions.flatMap Condition.exprs ++ body.exprs ++ rest.exprs

end

def Layout.exprs (l : Layout) : List ExprCode :=
  l.filterMap fun it =>
    match it.what with
    | .expr e => some e
    | _ => none

theorem Layout.mem_exprs {l : Layout} {it : Item} {e : ExprCode} (hit : it ∈ l)
    (he : it.what = .expr e) : e ∈ l.exprs :=
  List.mem_filterMap.mpr ⟨it, hit, by rw [he]⟩

@[simp] theorem Layout.exprs_append (l l' : Layout) :
    Layout.exprs (l ++ l') = l.exprs ++ l'.exprs :=
  List.filterMap_append

/-- Binding an exit leaves the expressions. -/
@[simp] theorem Layout.exprs_bind (c target : Nat) (l : Layout) : (l.bind c target).exprs = l.exprs := by
  unfold Layout.exprs Layout.bind
  rw [List.filterMap_map]
  congr 1
  funext ⟨w, d, fall, taken⟩
  cases w with
  | op i => rfl
  | expr e => rfl
  | exit c' =>
    by_cases hc : c' = c
    · simp [bindItem, hc]
    · simp [bindItem, hc]

@[simp] theorem exprs_line (leak d : Int) (ps : List Piece) :
    Layout.exprs (line leak d ps) = exprsOf ps := by
  have hitem : ∀ (p : Piece) (d fall : Int) (l : Layout) (ps : List Piece),
      Layout.exprs l = exprsOf ps → Layout.exprs (⟨p.what, d, fall, 0⟩ :: l) = exprsOf (p :: ps) := by
    intro p d fall l ps h
    cases p with
    | op i => exact h
    | expr e => exact congrArg (e :: ·) h
  induction ps generalizing d with
  | nil => rfl
  | cons p ps ih =>
    cases ps with
    | nil => exact hitem p d leak [] [] rfl
    | cons q ps => exact hitem p d 0 _ _ (ih _)

@[simp] theorem exprs_jump (i : Instr) (d taken : Int) : Layout.exprs (jump i d taken) = [] := rfl

@[simp] theorem exprs_exitJump (c : Nat) (d taken : Int) :
    Layout.exprs (exitJump c d taken) = [] := rfl

@[simp] theorem exprsOf_append (ps qs : List Piece) : exprsOf (ps ++ qs) = exprsOf ps ++ exprsOf qs :=
  List.filterMap_append

@[simp] theorem exprsOf_expr (e : ExprCode) (ps : List Piece) :
    exprsOf (.expr e :: ps) = e :: exprsOf ps := rfl

@[simp] theorem exprsOf_op (i : Instr) (ps : List Piece) : exprsOf (.op i :: ps) = exprsOf ps := rfl

@[simp] theorem exprsOf_nil : exprsOf [] = [] := rfl

@[simp] theorem exprsOf_labelPieces (label : Bool) : exprsOf (labelPieces label) = [] := by
  cases label <;> rfl

@[simp] theorem exprsOf_ifIx (li : LoopInfo) (i : Instr) : exprsOf (li.ifIx i) = [] := by
  unfold LoopInfo.ifIx
  split <;> rfl

@[simp] theorem exprsOf_symStore (sym : Symbol) (pop : Bool) : exprsOf (symStore sym pop) = [] := by
  cases pop <;> rfl

@[simp] theorem exprsOf_symStore_map (sym : Option Symbol) (pop : Bool) :
    exprsOf ((sym.map (symStore · pop)).getD []) = [] := by
  cases sym with
  | none => rfl
  | some sym => exact exprsOf_symStore sym pop

@[simp] theorem exprsOf_indexVarIncrement (li : LoopInfo) : exprsOf (indexVarIncrement li) = [] := by
  unfold indexVarIncrement
  split <;> simp

@[simp] theorem exprsOf_calcLast (li : LoopInfo) : exprsOf (calcLast li) = [] := by
  unfold calcLast
  split <;> simp

@[simp] theorem exprsOf_lenVarInit (li : LoopInfo) : exprsOf (lenVarInit li) = [] := by
  unfold lenVarInit
  split <;> simp

@[simp] theorem exprsOf_iterationCount (li : LoopInfo) : exprsOf (iterationCount li) = [] := by
  unfold iterationCount
  split <;> simp

theorem Condition.exprs_layout (t : Builtin) (dv : Int) (base : Nat) (c : Condition) :
    (c.layout t dv base).exprs = c.exprs := by
  cases c with
  | value e => simp [layout, exprs, pieces]
  | range lo hi => simp [layout, exprs, pieces, upperTest]
  | type constant => simp [layout, exprs, pieces]

theorem exprs_layoutConditions (t : Builtin) (body : Nat) (d dv : Int) (cs : List Condition)
    (base : Nat) :
    (layoutConditions t body d dv cs base).exprs = cs.flatMap Condition.exprs := by
  induction cs generalizing base with
  | nil => rfl
  | cons c cs ih => simp [layoutConditions, c.exprs_layout, ih]

mutual

/-- The expressions in the layout of a statement are those of the statement. -/
theorem Stmt.exprs_layout (env : Enclosing) (base : Nat) (d : Int) :
    ∀ s : Stmt, (s.layout env base d).exprs = s.exprs
  | .skip => rfl
  | .seq first rest => by
    simp [Stmt.layout, Stmt.exprs, first.exprs_layout, rest.exprs_layout]
  | .expression e => by simp [Stmt.layout, Stmt.exprs]
  | .assign a => by simp [Stmt.layout, Stmt.exprs]
  | .cond test body rest => by
    simp [Stmt.layout, Stmt.exprs, layoutArm, body.exprs_layout, rest.exprs_layout]
  | .while li test body => by
    simp [Stmt.layout, Stmt.exprs, whileHead, body.exprs_layout]
  | .forRange li lvar lo hi body => by
    simp [Stmt.layout, Stmt.exprs, rangeInit, rangeHead, rangeStep, body.exprs_layout]
  | .forIn li lvar1 lvar2 container body => by
    simp [Stmt.layout, Stmt.exprs, containerInit, containerStep, body.exprs_layout]
  | .switch branchInfo label value t cases => by
    simp [Stmt.layout, Stmt.exprs, cases.exprs_layout]
  | .typeof branchInfo label sym cases => by
    simp [Stmt.layout, Stmt.exprs, cases.exprs_layout]
  | .break _ => rfl
  | .continue _ => rfl

theorem Chain.exprs_layout (env : Enclosing) (base : Nat) (d : Int) :
    ∀ s : Chain, (s.layout env base d).exprs = s.exprs
  | .none => rfl
  | .else body => body.exprs_layout env base d
  | .elif test body rest => by
    simp [Chain.layout, Chain.exprs, layoutArm, body.exprs_layout, rest.exprs_layout]

theorem Cases.exprs_layout (env : Enclosing) (c : Nat) (t : Builtin) (popForElse : Bool)
    (base : Nat) (d dv : Int) :
    ∀ s : Cases, (s.layout env c t popForElse base d dv).exprs = s.exprs
  | .none => rfl
  | .else body => by
    cases popForElse <;> simp [Cases.layout, Cases.exprs, body.exprs_layout]
  | .case conditions body rest => by
    simp [Cases.layout, Cases.exprs, exprs_layoutConditions, body.exprs_layout, rest.exprs_layout]

end

/-! ## The stack pointer after a statement -/

def outermost : Enclosing where
  entry _ := 0
  entryDepth _ := 0
  exitDepth _ := 0

/-- The next step of the code of a statement that starts at `base` is one that leaks. -/
def Stmt.Leaks (s : Stmt) (base : Nat) (st : VmState H) : Prop :=
  (s.layout outermost base 0).Leaks base st

/-- The statement can be compiled on its own: its jumps stay in it, each of its loops has a record
of its own that is new, and its expressions push one value. -/
structure Stmt.Closed (host : Host H) (s : Stmt) (ctx : GenCtx) : Prop where
  jumps : s.Scoped [] []
  nodup : s.bound.Nodup
  fresh : ∀ c ∈ s.bound, ctx.controls c = {}
  pushesOne : ∀ e ∈ s.exprs, PushesOne host e

/-- At the end of the code of a statement the stack pointer is where it was in the beginning, and
at the entry point of a loop in it, the slots of that loop and of those around it are on top. -/
structure Stmt.Neutral (s : Stmt) (ctx : GenCtx) (st st' : VmState H) : Prop where
  finish : st'.pc = (genStmt s ctx).counter → st'.sp = st.sp
  entry : ∀ e ∈ s.entries ctx.counter 0,
    st'.pc = ((genStmt s ctx).controls e.record).entryIp → (st'.sp : Int) + e.depth = st.sp

variable {ctx : GenCtx}

/-- A closed statement lays down its layout. -/
theorem Stmt.Closed.lays {s : Stmt} (h : s.Closed host ctx) :
    Lays [] s.bound ctx (genStmt s ctx) (s.layout outermost ctx.counter 0) := by
  refine s.generates outermost [] [] 0 h.jumps ctx ?_
  exact ⟨h.fresh, h.nodup, fun _ hc => absurd hc List.not_mem_nil, fun _ hc => hc,
    fun _ hc => absurd hc List.not_mem_nil, fun _ hc => absurd hc List.not_mem_nil⟩

/-- Its jumps land at places with their depth. -/
theorem Stmt.Closed.fits {s : Stmt} (h : s.Closed host ctx) :
    Fits (fun _ => 0) (At (s.layout outermost ctx.counter 0) ctx.counter 0)
      (s.layout outermost ctx.counter 0) (s.entries ctx.counter 0) :=
  s.fits _ outermost [] [] ctx.counter 0 (fun _ hc => absurd hc List.not_mem_nil) h.jumps
    fun _ _ hat => hat

/-- So its code runs at the depths of the layout. -/
theorem Stmt.Closed.runnable {s : Stmt} {code : List Instr}
    (h : s.Closed host ctx) (hcode : (genStmt s ctx).instructions <+: code) :
    Runnable host code ctx.exitOf (s.layout outermost ctx.counter 0) ctx.counter 0 0 where
  block := by
    obtain ⟨after, rfl⟩ := hcode
    refine ⟨ctx.instructions, after, ?_, rfl⟩
    rw [h.lays.instructions, List.append_assoc]
  chained := s.chained outermost ctx.counter 0
  lands := h.fits.lands
  closed := h.lays.exitsIn
  pushesOne it hit e he := by
    refine h.pushesOne e ?_
    rw [← s.exprs_layout outermost ctx.counter 0]
    exact Layout.mem_exprs hit he

/-- **Statements are stack-neutral as long as no step leaks.** -/
theorem neutral_of_not_leaks {s : Stmt} {ctx : GenCtx} {code : List Instr} {st st' : VmState H}
    (hs : s.Closed host ctx) (hcode : (genStmt s ctx).instructions <+: code)
    (hpc : st.pc = ctx.counter)
    (hsteps : StepsIn (step host code) (fun st =>
      InBlock ctx.counter (genStmt s ctx).counter st ∧ ¬ s.Leaks ctx.counter st) st st') :
    s.Neutral ctx st st' := by
  have hr := hs.runnable hcode
  have hcounter : (genStmt s ctx).counter = ctx.counter + (s.layout outermost ctx.counter 0).size :=
    hs.lays.counter
  rw [hcounter] at hsteps
  constructor
  · intro hend
    rw [hcounter] at hend
    have hat := At.atEnd (s.layout outermost ctx.counter 0) ctx.counter 0
    rw [← hend] at hat
    have hsp := hr.atDepth hpc hsteps hat
    omega
  · intro e he hentry
    rw [Stmt.entryIp_of_mem hs.nodup he] at hentry
    have hat := hs.fits.entries e he
    rw [← hentry] at hat
    have hsp := hr.atDepth hpc hsteps hat
    omega

/-! ## `while true: break`, and `if false` -/

/-- A literal leaves one word. -/
theorem pushesOne_simpleLit (host : Host H) (w : Word) :
    PushesOne host (Node.simpleLit w).exprCode := by
  intro code st st₁ st' hcode hstep hrun
  have hexec : execInstr host (.pushImm w) st = .ok st₁ := by
    rw [step, BlockAt.head hcode] at hstep
    exact hstep
  obtain ⟨hpc, hsp⟩ := requireSlots_push le_rfl hexec
  have hleave : Runs host code (st.pc + 1) (st.pc + 1) st₁ (.ok st₁) := runs_leave hpc
  obtain rfl := Next.ok.inj (hrun.unique hleave)
  exact ⟨hpc, by omega⟩

def whileTrueBreak : Stmt := .while { branchInfo := 0 } (Node.simpleLit 1).exprCode (.break 0)

theorem whileTrueBreak_closed : whileTrueBreak.Closed noHost {} where
  jumps := List.mem_singleton_self 0
  nodup := List.nodup_singleton 0
  fresh _ _ := rfl
  pushesOne e he := by
    obtain rfl := List.mem_singleton.mp he
    exact pushesOne_simpleLit noHost 1

def ifFalse : Stmt := .cond (Node.simpleLit 0).exprCode .skip .none

theorem ifFalse_closed : ifFalse.Closed noHost {} where
  jumps := ⟨trivial, trivial⟩
  nodup := List.nodup_nil
  fresh _ _ := rfl
  pushesOne e he := by
    obtain rfl := List.mem_singleton.mp he
    exact pushesOne_simpleLit noHost 0

/-- The test stays on the stack when the branch is not taken. -/
theorem not_neutral_ifFalse :
    ifFalse.Closed noHost {} ∧ ∃ st', StepsIn (step noHost (genStmt ifFalse {}).instructions)
        (InBlock 0 (genStmt ifFalse {}).counter) sampleState st' ∧
      ¬ ifFalse.Neutral {} sampleState st' := by
  refine ⟨ifFalse_closed, { sampleState.push 0 with pc := 3 }, ?_, ?_⟩
  · have hpush : StepsIn (step noHost (genStmt ifFalse {}).instructions)
        (InBlock 0 (genStmt ifFalse {}).counter) sampleState (sampleState.push 0).next :=
      StepsIn.refl.tail ⟨by decide, by decide⟩ rfl
    exact hpush.tail ⟨by decide, by decide⟩ rfl
  · intro h
    have hsp := h.finish rfl
    simp [sampleState, VmState.push] at hsp

theorem whileTrueBreak_layout : whileTrueBreak.layout outermost 0 0 =
    [⟨.expr (Node.simpleLit 1).exprCode, 0, 0, 0⟩, ⟨.op (.pushImm 1), 1, 0, 0⟩,
      ⟨.op (.compare .cmp), 2, 0, 0⟩, ⟨.op (.jz 6), 1, 0, 1⟩, ⟨.op (.j 6), 0, 0, 0⟩,
      ⟨.op (.j 0), 0, 0, 0⟩] := rfl

theorem whileTrueBreak_not_leaks {st : VmState Unit} (h : st.pc = 3 → st.peek 0 ≠ 0) :
    ¬ whileTrueBreak.Leaks 0 st := by
  rintro ⟨it, hit, hleak⟩
  rw [whileTrueBreak_layout] at hit
  rcases hit with ⟨-, rfl⟩ | ⟨-, rfl⟩ | ⟨-, rfl⟩ | ⟨hpc, rfl⟩ | ⟨-, rfl⟩ | ⟨-, rfl⟩ | hit
  · exact hleak rfl
  · simp [Item.Leaks, Unpaired] at hleak
  · simp [Item.Leaks, Unpaired] at hleak
  · have hne : st.peek 0 ≠ 0 := h hpc
    simp only [Item.Leaks, if_neg hne] at hleak
    exact hleak rfl
  · exact hleak rfl
  · exact hleak rfl
  · exact hit

theorem neutral_whileTrueBreak : ∃ st', st'.pc = 6 ∧ whileTrueBreak.Neutral {} sampleState st' := by
  have h0 : StepsIn (step noHost (genStmt whileTrueBreak {}).instructions)
      (fun st => InBlock 0 (genStmt whileTrueBreak {}).counter st ∧ ¬ whileTrueBreak.Leaks 0 st)
      sampleState sampleState := .refl
  have h1 := h0.tail ⟨⟨by decide, by decide⟩, whileTrueBreak_not_leaks (by decide)⟩ rfl
  have h2 := h1.tail ⟨⟨by decide, by decide⟩, whileTrueBreak_not_leaks (by decide)⟩ rfl
  have h3 := h2.tail ⟨⟨by decide, by decide⟩, whileTrueBreak_not_leaks (by decide)⟩ rfl
  have h4 := h3.tail ⟨⟨by decide, by decide⟩, whileTrueBreak_not_leaks (by decide)⟩ rfl
  have h5 := h4.tail ⟨⟨by decide, by decide⟩, whileTrueBreak_not_leaks (by decide)⟩ rfl
  exact ⟨_, rfl, neutral_of_not_leaks whileTrueBreak_closed (List.prefix_refl _) rfl h5⟩

end N00b.Codegen
