import N00b.Codegen.ExprSem
import N00b.Vm.Block

/-!
# What the code of an expression does

The code pushes the value of the expression and nothing else as long as the evaluation

* takes no short cut in `and` or `or`: the jump that takes it leaves the copy it tested,
* evaluates no `not`: its operand is generated twice, and
* computes nothing that the C code of the machine leaves undefined.

Everything that goes wrong leaves one value too many, and nothing in the code of an expression ever
takes it away again. So a run that ends with exactly one value more has done none of the above, and
its value is right.

## Main results

* `pushesValue_of_clean`, `clean_of_pushesValue`: the two directions.
-/

namespace N00b.Codegen

open N00b.Lib N00b.Vm

/-! ## Variables -/

section

variable {H : Type} (host : Host H) {code : List Instr}

def Var.read (x : Var) (st : VmState H) : Word :=
  match x with
  | .local off => st.stack (st.fp - off)
  | .module m off => st.statics m off

/-- A local variable lies in the frame, not in the part of the stack that is still free. -/
def Var.InFrame (x : Var) (st : VmState H) : Prop :=
  match x with
  | .local off => st.sp ≤ st.fp - off
  | .module _ _ => True

/-- The variables of the expression hold the values of the environment. -/
def Holds (env : Env) (st : VmState H) : {t : Ty} → Expr t → Prop
  | _, .intLit _ | _, .boolLit _ => True
  | _, .var t x => x.InFrame st ∧ x.read st = encode t (env t x)
  | _, .arith _ _ a b | _, .rel _ _ _ a b | _, .and a b | _, .or a b =>
    Holds env st a ∧ Holds env st b
  | _, .neg a | _, .not a => Holds env st a

/-- Variables keep their values as long as the stack above them does. -/
theorem Holds.keeps {env : Env} {st st' : VmState H} (hk : Keeps st st') :
    ∀ {t : Ty} {e : Expr t}, Holds env st e → Holds env st' e
  | _, .intLit _, _ | _, .boolLit _, _ => trivial
  | _, .var t (.local off), ⟨hin, hread⟩ => by
    have hin : st.sp ≤ st.fp - off := hin
    refine ⟨?_, ?_⟩
    · show st'.sp ≤ st'.fp - off
      rw [hk.fp_eq]
      exact hk.sp_le.trans hin
    · show st'.stack (st'.fp - off) = _
      rw [hk.fp_eq, hk.stack_eq _ hin]
      exact hread
  | _, .var t (.module m off), ⟨_, hread⟩ => by
    refine ⟨trivial, ?_⟩
    show st'.statics m off = _
    rw [hk.statics_eq]
    exact hread
  | _, .arith _ _ a b, h => ⟨Holds.keeps hk (e := a) h.1, Holds.keeps hk (e := b) h.2⟩
  | _, .rel _ _ _ a b, h => ⟨Holds.keeps hk (e := a) h.1, Holds.keeps hk (e := b) h.2⟩
  | _, .and a b, h => ⟨Holds.keeps hk (e := a) h.1, Holds.keeps hk (e := b) h.2⟩
  | _, .or a b, h => ⟨Holds.keeps hk (e := a) h.1, Holds.keeps hk (e := b) h.2⟩
  | _, .neg a, h => Holds.keeps hk (e := a) h
  | _, .not a, h => Holds.keeps hk (e := a) h

/-! ## The specification -/

def divisionByZero : Fault := .raise "Division by zero error."

/-- The run has pushed the value, or has raised where the evaluation divides by zero. -/
def Right {t : Ty} (value : Option t.Value) (st : VmState H) (r : StepResult H) : Prop :=
  match value, r with
  | some v, .ok st' => st'.sp + 1 = st.sp ∧ st'.stack st'.sp = encode t v
  | none, .halt f => f = divisionByZero
  | _, _ => False

/-- Everything there is to know about a run `r` of code that is to push `value` if `clean` holds
and `need` slots are free. -/
structure Pushes {t : Ty} (value : Option t.Value) (clean : Prop) (need size : Nat)
    (st : VmState H) (r : StepResult H) : Prop where
  keeps : ∀ st', r = .ok st' → st'.pc = st.pc + size ∧ Keeps st st' ∧ st'.sp < st.sp
  complete : clean → need ≤ st.sp → Right value st r
  exact : ∀ st', r = .ok st' → st'.sp + 1 = st.sp → clean ∧ need ≤ st.sp ∧ Right value st r

/-- The code of `e` has a run, and it is as `Pushes` says. -/
def Spec (env : Env) {t : Ty} (e : Expr t) : Prop :=
  ∀ (code : List Instr) (st : VmState H), BlockAt code st.pc (e.node.code st.pc) →
    st.sp ≤ stackSize → Holds env st e →
    ∃ r, Runs host code st.pc (st.pc + e.node.size) st r ∧
      Pushes (eval env e) (Clean env e) (slots env e) e.node.size st r

end

/-! ## Rules -/

section

variable {H : Type} {host : Host H} {code : List Instr} {env : Env}

variable {t : Ty}

theorem Right.of_sp_eq {value : Option t.Value} {st st' : VmState H} {r : StepResult H}
    (h : Right value st r) (hsp : st.sp = st'.sp) : Right value st' r := by
  cases value <;> cases r <;> simp only [Right] at h ⊢
  · exact h
  · exact ⟨h.1.trans hsp, h.2⟩

theorem Right.of_ok {value : Option t.Value} {st st' : VmState H}
    (h : Right value st (.ok st')) :
    ∃ v, value = some v ∧ st'.sp + 1 = st.sp ∧ st'.stack st'.sp = encode t v := by
  cases value with
  | none => exact absurd h id
  | some v => exact ⟨v, rfl, h.1, h.2⟩

variable {st : VmState H}

theorem Right.of_halt {value : Option t.Value} {f : Fault}
    (h : Right value st (.halt f)) : value = none ∧ f = divisionByZero := by
  cases value with
  | none => exact ⟨rfl, h⟩
  | some v => exact absurd h id

/-- An instruction that pushes a word. -/
theorem pushes_one {v : t.Value} {i : Instr}
    (hcode : code[st.pc]? = some i)
    (hexec : execInstr host i st = requireSlots 1 st (.ok (st.push (encode t v)).next)) :
    ∃ r, Runs host code st.pc (st.pc + 1) st r ∧ Pushes (some v) True 1 1 st r := by
  have hin : InBlock st.pc (st.pc + 1) st := ⟨le_rfl, Nat.lt_succ_self _⟩
  by_cases h : 1 ≤ st.sp
  · rw [requireSlots, if_pos h] at hexec
    have hstep : step host code st = .ok (st.push (encode t v)).next := by
      simp only [step, hcode, hexec]
    have hsp : (st.push (encode t v)).next.sp + 1 = st.sp := by
      show st.sp - 1 + 1 = st.sp
      omega
    have hright : Right (some v) st (.ok (st.push (encode t v)).next) :=
      ⟨hsp, Function.update_self _ _ _⟩
    refine ⟨_, .step hin hstep (runs_leave rfl), ⟨?_, fun _ _ => hright, ?_⟩⟩
    · intro st' heq
      obtain rfl := Next.ok.inj heq
      exact ⟨rfl, Keeps.push h, by omega⟩
    · intro st' heq _
      exact ⟨trivial, h, hright⟩
  · rw [requireSlots, if_neg h] at hexec
    have hstep : step host code st = .halt (.raise "stack overflow") := by
      simp only [step, hcode, hexec]
    refine ⟨_, .halt hin hstep, ⟨?_, fun _ hn => absurd hn h, ?_⟩⟩
    · intro st' heq
      cases heq
    · intro st' heq
      cases heq

/-- Code that replaces the two values on top by one. -/
def TailSpec (host : Host H) (tail : List Instr) (t t' : Ty)
    (combine : t.Value → t.Value → Option t'.Value) (defined : t.Value → t.Value → Prop) : Prop :=
  ∀ (code : List Instr) (st : VmState H), BlockAt code st.pc tail → st.sp + 2 ≤ stackSize →
    ∃ r, Runs host code st.pc (st.pc + tail.length) st r ∧
      (∀ st', r = .ok st' →
        st'.pc = st.pc + tail.length ∧ Keeps (st.drop 2) st' ∧ st'.sp = st.sp + 1) ∧
      ∀ x y, st.peek 1 = encode t x → st.peek 0 = encode t y →
        (defined x y → Right (combine x y) (st.drop 2) r) ∧ ∀ st', r = .ok st' → defined x y

/-- **A binary operator** behind its operands pushes its value. -/
theorem pushes_binary {t t' : Ty} {a b : Expr t} {tail : List Instr}
    {combine : t.Value → t.Value → Option t'.Value} {defined : t.Value → t.Value → Prop}
    {value : Option t'.Value} {clean : Prop} {need : Nat} (ha : Spec host env a)
    (hb : Spec host env b) (htail : TailSpec host tail t t' combine defined)
    (hvalue : value = (eval env a).bind fun x => (eval env b).bind fun y => combine x y)
    (hclean : clean ↔ Clean env a ∧ ∀ x, eval env a = some x →
      Clean env b ∧ ∀ y, eval env b = some y → defined x y)
    (hneed : need =
      if (eval env a).isSome then max (slots env a) (1 + slots env b) else slots env a)
    (hcode : BlockAt code st.pc
      (a.node.code st.pc ++ (b.node.code (st.pc + a.node.size) ++ tail)))
    (hsp : st.sp ≤ stackSize) (hha : Holds env st a) (hhb : Holds env st b) :
    ∃ r, Runs host code st.pc (st.pc + (a.node.size + b.node.size + tail.length)) st r ∧
      Pushes value clean need (a.node.size + b.node.size + tail.length) st r := by
  obtain ⟨ra, hra, pa⟩ := ha code st hcode.left hsp hha
  have hcode₁ := hcode.right
  rw [Node.length_code] at hcode₁
  have hpart := InBlock.mono (H := H) (le_refl st.pc)
    (show st.pc + a.node.size ≤ st.pc + (a.node.size + b.node.size + tail.length) by omega)
  cases ra with
  | halt f =>
    refine ⟨.halt f, hra.halt_mono hpart, ⟨nofun, ?_, nofun⟩⟩
    intro hc hn
    have hsome : slots env a ≤ st.sp := by
      rw [hneed] at hn
      split at hn
      · exact (le_max_left _ _).trans hn
      · exact hn
    obtain ⟨hnone, hf⟩ := (pa.complete (hclean.mp hc).1 hsome).of_halt
    rw [hvalue, hnone]
    exact hf
  | ok st₁ =>
    obtain ⟨hpc₁, hk₁, hlt₁⟩ := pa.keeps st₁ rfl
    rw [← hpc₁] at hcode₁
    obtain ⟨rb, hrb, pb⟩ := hb code st₁ hcode₁.left (by omega) (hhb.keeps hk₁)
    have hpart₁ := InBlock.mono (H := H) (show st.pc ≤ st₁.pc by omega)
      (show st₁.pc + b.node.size ≤ st.pc + (a.node.size + b.node.size + tail.length) by omega)
    -- What a clean evaluation of the left operand has left for the right one.
    have hleft : clean → need ≤ st.sp → ∃ x, eval env a = some x ∧ st₁.sp + 1 = st.sp ∧
        st₁.stack st₁.sp = encode t x ∧ Clean env b ∧ slots env b ≤ st₁.sp ∧
        ∀ y, eval env b = some y → defined x y := by
      intro hc hn
      obtain ⟨hca, hcb⟩ := hclean.mp hc
      have hna : slots env a ≤ st.sp := by
        rw [hneed] at hn
        split at hn
        · exact (le_max_left _ _).trans hn
        · exact hn
      obtain ⟨x, hx, hsp₁, htop⟩ := (pa.complete hca hna).of_ok
      rw [hneed, hx, Option.isSome_some, if_pos rfl] at hn
      have hnb := (le_max_right _ _).trans hn
      exact ⟨x, hx, hsp₁, htop, (hcb x hx).1, by omega, (hcb x hx).2⟩
    cases rb with
    | halt f =>
      refine ⟨.halt f, hra.seq hpart (hrb.halt_mono hpart₁), ⟨nofun, ?_, nofun⟩⟩
      intro hc hn
      obtain ⟨x, hx, -, -, hcb, hnb, -⟩ := hleft hc hn
      obtain ⟨hnone, hf⟩ := (pb.complete hcb hnb).of_halt
      rw [hvalue, hx, hnone]
      exact hf
    | ok st₂ =>
      obtain ⟨hpc₂, hk₂, hlt₂⟩ := pb.keeps st₂ rfl
      have hcode₂ := hcode₁.right
      rw [Node.length_code, ← hpc₂] at hcode₂
      obtain ⟨r, hr, hkeep, hval⟩ := htail code st₂ hcode₂ (by omega)
      have hend : st₂.pc + tail.length = st.pc + (a.node.size + b.node.size + tail.length) := by
        omega
      rw [hend] at hr
      have hrun :
          Runs host code st.pc (st.pc + (a.node.size + b.node.size + tail.length)) st r := by
        refine hra.seq hpart (hrb.seq hpart₁ (hr.widen (InBlock.mono (by omega) le_rfl) ?_))
        intro st₃ heq hin
        have := (hkeep st₃ heq).1
        have := hin.2
        omega
      have hpeek : st₂.peek 0 = st₂.stack st₂.sp := rfl
      refine ⟨r, hrun, ⟨?_, ?_, ?_⟩⟩
      · intro st₃ heq
        obtain ⟨hpc₃, hk₃, hsp₃⟩ := hkeep st₃ heq
        have hk₂ := (hk₁.trans hk₂).drop (show st₂.sp + 2 ≤ st.sp by omega)
        exact ⟨by omega, hk₂.trans hk₃, by omega⟩
      · intro hc hn
        obtain ⟨x, hx, hsp₁, htop₁, hcb, hnb, hdef⟩ := hleft hc hn
        obtain ⟨y, hy, hsp₂, htop₂⟩ := (pb.complete hcb hnb).of_ok
        have hpeek₁ : st₂.peek 1 = encode t x := by
          rw [VmState.peek, hsp₂, hk₂.stack_eq _ le_rfl, htop₁]
        have hright := (hval x y hpeek₁ (hpeek.trans htop₂)).1 (hdef y hy)
        rw [hvalue, hx, hy]
        exact hright.of_sp_eq (show st₂.sp + 2 = st.sp by omega)
      · intro st₃ heq hsp₃
        have hsp₂ := (hkeep st₃ heq).2.2
        obtain ⟨hca, hna, hrighta⟩ := pa.exact st₁ rfl (by omega)
        obtain ⟨hcb, hnb, hrightb⟩ := pb.exact st₂ rfl (by omega)
        obtain ⟨x, hx, hsp₁, htop₁⟩ := hrighta.of_ok
        obtain ⟨y, hy, hsp₂', htop₂⟩ := hrightb.of_ok
        have hpeek₁ : st₂.peek 1 = encode t x := by
          rw [VmState.peek, hsp₂', hk₂.stack_eq _ le_rfl, htop₁]
        obtain ⟨hright, hdef⟩ := hval x y hpeek₁ (hpeek.trans htop₂)
        have hdef := hdef st₃ heq
        refine ⟨hclean.mpr ⟨hca, ?_⟩, ?_, ?_⟩
        · intro x' hx'
          obtain rfl := Option.some.inj (hx.symm.trans hx')
          refine ⟨hcb, ?_⟩
          intro y' hy'
          obtain rfl := Option.some.inj (hy.symm.trans hy')
          exact hdef
        · rw [hneed, hx, Option.isSome_some, if_pos rfl]
          exact max_le hna (by omega)
        · rw [hvalue, hx, hy]
          exact (hright hdef).of_sp_eq (show st₂.sp + 2 = st.sp by omega)

end

/-! ## `and` and `or` -/

section

variable {H : Type} {host : Host H} {code : List Instr} {env : Env}

/-- `jump` goes to its target when the truth of the value on top is `stop`, and pops it
otherwise. -/
def JumpsOn (host : Host H) (jump : Nat → Instr) (stop : Bool) : Prop :=
  ∀ (arg : Nat) (st : VmState H), execInstr host (jump arg) st = requireValues 1 st
    (if decide (st.peek 0 ≠ 0) = stop then .ok { st with pc := arg } else .ok (st.drop 1).next)

theorem jumpsOn_jz : JumpsOn host .jz false := by
  intro arg st
  simp only [execInstr, ne_eq, decide_eq_false_iff_not, not_not]

theorem jumpsOn_jnz : JumpsOn host .jnz true := by
  intro arg st
  simp only [execInstr, ne_eq, decide_eq_true_eq]

/-- A conditional jump behind a copy of the operand. -/
theorem runs_test {jump : Nat → Instr} {stop : Bool} (hjump : JumpsOn host jump stop)
    {st : VmState H} {lo hi : Nat} {rest : List Instr}
    (hcode : BlockAt code st.pc (.dupTop :: jump hi :: .pop :: rest)) (hlo : lo ≤ st.pc)
    (hhi : st.pc + 3 ≤ hi) (hv : st.sp + 1 ≤ stackSize) :
    (st.sp = 0 ∧ Runs host code lo hi st (.halt (.raise "stack overflow"))) ∨
    (decide (st.peek 0 ≠ 0) = stop ∧ ∃ st', Runs host code lo hi st (.ok st') ∧ st'.pc = hi ∧
      Keeps st st' ∧ st'.sp + 1 = st.sp) ∨
    (1 ≤ st.sp ∧ decide (st.peek 0 ≠ 0) ≠ stop ∧ ∃ st',
      (∀ r, Runs host code lo hi st' r → Runs host code lo hi st r) ∧ st'.pc = st.pc + 3 ∧
      st'.sp = st.sp + 1 ∧ ∀ st₀, Keeps st₀ st → st.sp < st₀.sp → Keeps st₀ st') := by
  have hin : InBlock lo hi st := ⟨hlo, by omega⟩
  by_cases hroom : 1 ≤ st.sp
  · let st₁ : VmState H := (st.push (st.peek 0)).next
    have hdup : step host code st = .ok st₁ := by
      simp only [step, hcode.head, execInstr, requireValues, if_pos hv, requireSlots,
        if_pos hroom, st₁]
    have hsp₁ : st₁.sp + 1 = st.sp := by
      show st.sp - 1 + 1 = st.sp
      omega
    have hpc₁ : st₁.pc = st.pc + 1 := rfl
    have hin₁ : InBlock lo hi st₁ := ⟨by omega, by omega⟩
    have hpeek₁ : st₁.peek 0 = st.peek 0 := Function.update_self _ _ _
    have hstep₁ : step host code st₁ = if decide (st₁.peek 0 ≠ 0) = stop
        then .ok { st₁ with pc := hi } else .ok (st₁.drop 1).next := by
      have hfetch : code[st₁.pc]? = some (jump hi) := hcode.tail.head
      have hv₁ : st₁.sp + 1 ≤ stackSize := by omega
      simp only [step, hfetch, hjump hi st₁, requireValues, if_pos hv₁]
    have hk₁ : Keeps st st₁ := Keeps.push hroom
    rw [hpeek₁] at hstep₁
    by_cases htaken : decide (st.peek 0 ≠ 0) = stop
    · rw [if_pos htaken] at hstep₁
      refine .inr (.inl ⟨htaken, _, .step hin hdup (.step hin₁ hstep₁ (runs_leave rfl)), rfl,
        ⟨hk₁.sp_le, hk₁.stack_eq, hk₁.statics_eq, hk₁.fp_eq⟩, hsp₁⟩)
    · rw [if_neg htaken] at hstep₁
      let st₂ : VmState H := (st₁.drop 1).next
      have hin₂ : InBlock lo hi st₂ :=
        ⟨show lo ≤ st₁.pc + 1 by omega, show st₁.pc + 1 < hi by omega⟩
      have hsp₂ : st₂.sp = st.sp := hsp₁
      have hstep₂ : step host code st₂ = .ok (st₂.drop 1).next := by
        have hfetch : code[st₂.pc]? = some .pop := hcode.tail.tail.head
        have hv₂ : st₂.sp + 1 ≤ stackSize := by omega
        simp only [step, hfetch, execInstr, requireValues, if_pos hv₂]
      refine .inr (.inr ⟨hroom, htaken, (st₂.drop 1).next, ?_, rfl, ?_, ?_⟩)
      · intro r hr
        exact .step hin hdup (.step hin₁ hstep₁ (.step hin₂ hstep₂ hr))
      · show st₂.sp + 1 = st.sp + 1
        rw [hsp₂]
      · intro st₀ hk₀ hlt
        have hk := hk₀.trans hk₁
        exact ⟨show st₂.sp + 1 ≤ st₀.sp by omega, hk.stack_eq, hk.statics_eq, hk.fp_eq⟩
  · have hdup : step host code st = .halt (.raise "stack overflow") := by
      simp only [step, hcode.head, execInstr, requireValues, if_pos hv, requireSlots,
        if_neg hroom]
    exact .inl ⟨by omega, .halt hin hdup⟩

/-- **`and` and `or`** skip their right operand, and leave a word too much then. -/
theorem pushes_shortCircuit {a b : Expr .bool} {jump : Nat → Instr} {stop : Bool}
    {value : Option Bool} {clean : Prop} {need : Nat} (hjump : JumpsOn host jump stop)
    (ha : Spec host env a) (hb : Spec host env b)
    (hvalue : value = (eval env a).bind fun x => if x = stop then some stop else eval env b)
    (hclean : clean ↔ Clean env a ∧ ∀ x, eval env a = some x → x ≠ stop ∧ Clean env b)
    (hneed : need =
      if (eval env a).isSome then max (max (slots env a) 2) (slots env b) else slots env a)
    {st : VmState H}
    (hcode : BlockAt code st.pc (a.node.code st.pc ++
      (.dupTop :: jump (st.pc + a.node.size + 3 + b.node.size) :: .pop ::
        b.node.code (st.pc + a.node.size + 3))))
    (hsp : st.sp ≤ stackSize) (hha : Holds env st a) (hhb : Holds env st b) :
    ∃ r, Runs host code st.pc (st.pc + (a.node.size + 3 + b.node.size)) st r ∧
      Pushes (t := .bool) value clean need (a.node.size + 3 + b.node.size) st r := by
  obtain ⟨ra, hra, pa⟩ := ha code st hcode.left hsp hha
  have hcode₁ := hcode.right
  rw [Node.length_code] at hcode₁
  have hpart := InBlock.mono (H := H) (le_refl st.pc)
    (show st.pc + a.node.size ≤ st.pc + (a.node.size + 3 + b.node.size) by omega)
  have hneeda : need ≤ st.sp → slots env a ≤ st.sp := by
    intro hn
    rw [hneed] at hn
    split at hn
    · exact (le_max_left _ _).trans ((le_max_left _ _).trans hn)
    · exact hn
  cases ra with
  | halt f =>
    refine ⟨.halt f, hra.halt_mono hpart, ⟨nofun, ?_, nofun⟩⟩
    intro hc hn
    obtain ⟨hnone, hf⟩ := (pa.complete (hclean.mp hc).1 (hneeda hn)).of_halt
    rw [hvalue, hnone]
    exact hf
  | ok st₁ =>
    obtain ⟨hpc₁, hk₁, hlt₁⟩ := pa.keeps st₁ rfl
    have hend : st.pc + a.node.size + 3 + b.node.size =
        st.pc + (a.node.size + 3 + b.node.size) := by omega
    rw [hend, ← hpc₁] at hcode₁
    have hleft : clean → need ≤ st.sp → ∃ x, eval env a = some x ∧ st₁.sp + 1 = st.sp ∧
        st₁.peek 0 = ofBool x ∧ x ≠ stop ∧ 2 ≤ st.sp ∧ Clean env b ∧ slots env b ≤ st.sp := by
      intro hc hn
      obtain ⟨hca, hcb⟩ := hclean.mp hc
      obtain ⟨x, hx, hsp₁, htop⟩ := (pa.complete hca (hneeda hn)).of_ok
      rw [hneed, hx, Option.isSome_some, if_pos rfl] at hn
      have htwo := (le_max_right _ _).trans ((le_max_left _ _).trans hn)
      exact ⟨x, hx, hsp₁, htop, (hcb x hx).1, htwo, (hcb x hx).2, (le_max_right _ _).trans hn⟩
    have htruth : ∀ x : Bool, st₁.peek 0 = ofBool x → decide (st₁.peek 0 ≠ 0) = x := by
      intro x hx
      rw [hx]
      cases x <;> decide
    rcases runs_test hjump hcode₁ (show st.pc ≤ st₁.pc by omega) (by omega) (by omega) with
      ⟨hzero, hrun⟩ | ⟨htaken, st₂, hrun, hpc₂, hk₂, hsp₂⟩ |
        ⟨hroom, htaken, st₂, hrun, hpc₂, hsp₂, hk₂⟩
    · refine ⟨_, hra.seq hpart hrun, ⟨nofun, ?_, nofun⟩⟩
      intro hc hn
      obtain ⟨x, -, hsp₁, -, -, htwo, -⟩ := hleft hc hn
      omega
    · -- The short cut: the copy stays.
      refine ⟨_, hra.seq hpart hrun, ⟨?_, ?_, ?_⟩⟩
      · intro st' heq
        obtain rfl := Next.ok.inj heq
        exact ⟨hpc₂, hk₁.trans hk₂, by omega⟩
      · intro hc hn
        obtain ⟨x, -, -, htop, hx, -⟩ := hleft hc hn
        exact absurd ((htruth x htop).symm.trans htaken) hx
      · intro st' heq hsp'
        obtain rfl := Next.ok.inj heq
        omega
    · have hk₂ := hk₂ st hk₁ hlt₁
      have hcode₂ := hcode₁.tail.tail.tail
      rw [show st₁.pc + 1 + 1 + 1 = st₂.pc by omega] at hcode₂
      obtain ⟨rb, hrb, pb⟩ := hb code st₂ hcode₂ (by omega) (hhb.keeps hk₂)
      have hrun' : Runs host code st.pc (st.pc + (a.node.size + 3 + b.node.size)) st rb := by
        refine hra.seq hpart (hrun rb (hrb.widen (InBlock.mono (by omega) (by omega)) ?_))
        intro st₃ heq hin
        have := (pb.keeps st₃ heq).1
        have := hin.2
        omega
      refine ⟨rb, hrun', ⟨?_, ?_, ?_⟩⟩
      · intro st₃ heq
        obtain ⟨hpc₃, hk₃, hlt₃⟩ := pb.keeps st₃ heq
        exact ⟨by omega, hk₂.trans hk₃, by omega⟩
      · intro hc hn
        obtain ⟨x, hx, hsp₁, -, hne, -, hcb, hnb⟩ := hleft hc hn
        rw [hvalue, hx, Option.bind_some, if_neg hne]
        exact (pb.complete hcb (by omega)).of_sp_eq (by omega)
      · intro st₃ heq hsp₃
        have hlt₃ := (pb.keeps st₃ heq).2.2
        obtain ⟨hca, hna, hrighta⟩ := pa.exact st₁ rfl (by omega)
        obtain ⟨hcb, hnb, hrightb⟩ := pb.exact st₃ heq (by omega)
        obtain ⟨x, hx, hsp₁, htop⟩ := hrighta.of_ok
        have hne : x ≠ stop := by
          rw [← htruth x htop]
          exact htaken
        refine ⟨hclean.mpr ⟨hca, ?_⟩, ?_, ?_⟩
        · intro x' hx'
          obtain rfl := Option.some.inj (hx.symm.trans hx')
          exact ⟨hne, hcb⟩
        · rw [hneed, hx, Option.isSome_some, if_pos rfl]
          exact max_le (max_le hna (by omega)) (by omega)
        · rw [hvalue, hx, Option.bind_some, if_neg hne]
          exact hrightb.of_sp_eq (by omega)

end

/-! ## Operators -/

section

variable {H : Type} {host : Host H} {code : List Instr} {env : Env}

theorem keeps_replaceTop {st : VmState H} {w : Word} :
    Keeps (st.drop 2) (replaceTop 1 w st).next where
  sp_le := show st.sp + 1 ≤ st.sp + 2 by omega
  stack_eq a ha := Function.update_of_ne (show a ≠ st.sp + 1 by
    have : st.sp + 2 ≤ a := ha
    omega) _ _
  statics_eq := rfl
  fp_eq := rfl

/-- An instruction on two operands computes what it combines. -/
theorem tailSpec_instr {i : Instr} {f : Word → Word → Except Fault Word} {t t' : Ty}
    {combine : t.Value → t.Value → Option t'.Value} {defined : t.Value → t.Value → Prop}
    (hexec : ∀ st : VmState H, execInstr host i st = requireValues 2 st
      (match f (st.peek 1) (st.peek 0) with
        | .ok w => .ok (replaceTop 1 w st).next
        | .error e => .halt e))
    (hf : ∀ x y, defined x y → f (encode t x) (encode t y) =
      match combine x y with
      | some v => .ok (encode t' v)
      | none => .error divisionByZero)
    (hdef : ∀ x y w, f (encode t x) (encode t y) = .ok w → defined x y) :
    TailSpec host [i] t t' combine defined := by
  intro code st hcode hsp
  have hin : InBlock st.pc (st.pc + [i].length) st := ⟨le_rfl, Nat.lt_succ_self _⟩
  have hstep : step host code st = match f (st.peek 1) (st.peek 0) with
      | .ok w => .ok (replaceTop 1 w st).next
      | .error e => .halt e := by
    simp only [step, hcode.head, hexec, requireValues, if_pos hsp]
  cases hres : f (st.peek 1) (st.peek 0) with
  | ok w =>
    rw [hres] at hstep
    refine ⟨_, .step hin hstep (runs_leave rfl), ?_, ?_⟩
    · intro st' heq
      obtain rfl := Next.ok.inj heq
      exact ⟨rfl, keeps_replaceTop, rfl⟩
    · intro x y hx hy
      rw [hx, hy] at hres
      have hd := hdef x y w hres
      refine ⟨fun _ => ?_, fun _ _ => hd⟩
      have hfxy := hf x y hd
      rw [hres] at hfxy
      cases hc : combine x y with
      | none => rw [hc] at hfxy; cases hfxy
      | some v =>
        rw [hc] at hfxy
        refine ⟨rfl, ?_⟩
        show Function.update st.stack (st.sp + 1) w (st.sp + 1) = _
        rw [Function.update_self, Except.ok.inj hfxy]
  | error e =>
    rw [hres] at hstep
    refine ⟨_, .halt hin hstep, nofun, ?_⟩
    intro x y hx hy
    rw [hx, hy] at hres
    refine ⟨fun hd => ?_, nofun⟩
    have hfxy := hf x y hd
    rw [hres] at hfxy
    cases hc : combine x y with
    | none => rw [hc] at hfxy; exact Except.error.inj hfxy
    | some v => rw [hc] at hfxy; cases hfxy

/-- A negation behind it computes the opposite. -/
theorem TailSpec.not {tail : List Instr} {t : Ty} {p q : t.Value → t.Value → Bool}
    (h : TailSpec host tail t .bool (fun x y => some (p x y)) fun _ _ => True)
    (hpq : ∀ x y, q x y = !p x y) :
    TailSpec host (tail ++ [.not]) t .bool (fun x y => some (q x y)) fun _ _ => True := by
  intro code st hcode hsp
  obtain ⟨r, hr, hkeep, hval⟩ := h code st hcode.left hsp
  have hlen : (tail ++ [Instr.not]).length = tail.length + 1 := by simp
  have hpart := InBlock.mono (H := H) (le_refl st.pc)
    (show st.pc + tail.length ≤ st.pc + (tail ++ [Instr.not]).length by omega)
  cases r with
  | halt f =>
    refine ⟨.halt f, hr.halt_mono hpart, nofun, ?_⟩
    intro x y hx hy
    exact ⟨fun _ => absurd ((hval x y hx hy).1 trivial) id, fun _ _ => trivial⟩
  | ok st₁ =>
    obtain ⟨hpc₁, hk₁, hsp₁⟩ := hkeep st₁ rfl
    have hv : st₁.sp + 1 ≤ stackSize := by omega
    have hfetch : code[st₁.pc]? = some .not := by
      rw [hpc₁]
      exact hcode.right.head
    have hstep : step host code st₁ = .ok (replaceTop 0 (ofBool (st₁.peek 0 == 0)) st₁).next := by
      simp only [step, hfetch, execInstr, requireValues, if_pos hv]
    have hin : InBlock st.pc (st.pc + (tail ++ [Instr.not]).length) st₁ := ⟨by omega, by omega⟩
    refine ⟨_, hr.seq hpart (.step hin hstep (runs_leave ?_)), ?_, ?_⟩
    · show st₁.pc + 1 = _
      omega
    · intro st' heq
      obtain rfl := Next.ok.inj heq
      refine ⟨show st₁.pc + 1 = _ by omega, ⟨show st₁.sp + 0 ≤ _ from hk₁.sp_le, ?_,
        hk₁.statics_eq, hk₁.fp_eq⟩, hsp₁⟩
      intro a ha
      have ha' : st.sp + 2 ≤ a := ha
      rw [← hk₁.stack_eq a ha]
      exact Function.update_of_ne (show a ≠ st₁.sp + 0 by omega) _ _
    · intro x y hx hy
      obtain ⟨hsp', htop⟩ := (hval x y hx hy).1 trivial
      refine ⟨fun _ => ⟨hsp', ?_⟩, fun _ _ => trivial⟩
      show Function.update st₁.stack (st₁.sp + 0) _ (st₁.sp + 0) = _
      rw [Function.update_self, VmState.peek, Nat.add_zero, htop, hpq]
      cases p x y <;> rfl

/-- **Arithmetic** is that of 64 bits. -/
theorem tailSpec_arith (op : IntOp) (boxed : Bool) :
    TailSpec host (genBinaryOp op.operator (Ty.int.builtin boxed)) .int .int (evalArith op)
      (Defined op) := by
  have hinstr : ∃ aop, genBinaryOp op.operator (Ty.int.builtin boxed) = [.arith aop] ∧
      ∀ x y : Word, (Defined op x y → arithWord aop x y =
        match evalArith op x y with
        | some v => .ok (encode .int v)
        | none => .error divisionByZero) ∧ ∀ w, arithWord aop x y = .ok w → Defined op x y := by
    cases op
    case minus =>
      refine ⟨.sub, by cases boxed <;> rfl, fun x y => ⟨?_, ?_⟩⟩
      · intro hd
        have hd : x.ssubOverflow y = false := hd
        simp [arithWord, evalArith, hd, encode]
      · intro w hw
        show x.ssubOverflow y = false
        by_contra hd
        rw [arithWord, if_pos (by simpa using hd)] at hw
        cases hw
    case div =>
      refine ⟨.div, by cases boxed <;> rfl, fun x y => ⟨?_, ?_⟩⟩
      · intro hd
        have hd : ¬ (x = intMin ∧ y = -1) := hd
        by_cases hy : y = 0
        · simp [arithWord, evalArith, hy, divisionByZero]
        · simp only [arithWord, evalArith, if_neg hy, if_neg hd, encode]
      · intro w hw hd
        simp [arithWord, hd.1, hd.2] at hw
    case shl =>
      refine ⟨.shl, by cases boxed <;> rfl, fun x y => ⟨?_, ?_⟩⟩
      · intro hd
        simp only [arithWord, evalArith, if_pos (show y.toNat < 64 from hd), encode]
      · intro w hw
        show y.toNat < 64
        by_contra hd
        simp [arithWord, hd] at hw
    case shr =>
      refine ⟨.shr, by cases boxed <;> rfl, fun x y => ⟨?_, ?_⟩⟩
      · intro hd
        simp only [arithWord, evalArith, if_pos (show y.toNat < 64 from hd), encode]
      · intro w hw
        show y.toNat < 64
        by_contra hd
        simp [arithWord, hd] at hw
    case plus => exact ⟨.add, by cases boxed <;> rfl, fun x y => ⟨fun _ => rfl, fun _ _ => trivial⟩⟩
    case mul => exact ⟨.mul, by cases boxed <;> rfl, fun x y => ⟨fun _ => rfl, fun _ _ => trivial⟩⟩
    case bitand =>
      exact ⟨.band, by cases boxed <;> rfl, fun x y => ⟨fun _ => rfl, fun _ _ => trivial⟩⟩
    case bitor =>
      exact ⟨.bor, by cases boxed <;> rfl, fun x y => ⟨fun _ => rfl, fun _ _ => trivial⟩⟩
    case bitxor =>
      exact ⟨.bxor, by cases boxed <;> rfl, fun x y => ⟨fun _ => rfl, fun _ _ => trivial⟩⟩
  obtain ⟨aop, heq, hf⟩ := hinstr
  rw [heq]
  refine tailSpec_instr (f := arithWord aop) (fun _ => rfl) ?_ (fun x y => (hf x y).2)
  intro x y hd
  exact ((hf x y).1 hd).trans (by cases evalArith op x y <;> rfl)

end

section

variable {H : Type} {host : Host H} {code : List Instr} {env : Env}

theorem tailSpec_truth {i : Instr} {t : Ty} {f : Word → Word → Bool}
    {p : t.Value → t.Value → Bool}
    (hexec : ∀ st : VmState H, execInstr host i st = requireValues 2 st
      (.ok (replaceTop 1 (ofBool (f (st.peek 1) (st.peek 0))) st).next))
    (hf : ∀ x y, f (encode t x) (encode t y) = p x y) :
    TailSpec host [i] t .bool (fun x y => some (p x y)) fun _ _ => True := by
  refine tailSpec_instr (f := fun a b => .ok (ofBool (f a b))) hexec ?_ fun _ _ _ _ => trivial
  intro x y _
  rw [hf]
  rfl

theorem tailSpec_tcall (fn : TypeFn) {f : Word → Word → Bool} {p : Bool → Bool → Bool}
    (hops : fn.operands = 2) (hres : fn.results = 1)
    (hraw : ∀ a b, rawTypeFn fn a b = some (f a b))
    (hf : ∀ x y, f (ofBool x) (ofBool y) = p x y) :
    TailSpec host [.tcall fn (some .bool)] .bool .bool (fun x y => some (p x y))
      fun _ _ => True := by
  refine tailSpec_truth (f := f) ?_ hf
  intro st
  simp only [execInstr, hops, hres, hraw, if_true, requireSlots,
    show 1 - 2 ≤ st.sp by omega]

/-- Comparisons of integers. -/
theorem tailSpec_relInt (op : Rel) (boxed : Bool) :
    TailSpec host (genBinaryOp op.operator (Ty.int.builtin boxed)) .int .bool
      (fun x y => some (evalRel op (order .int x) (order .int y))) fun _ _ => True := by
  have hinstr : ∃ cop, genBinaryOp op.operator (Ty.int.builtin boxed) = [.compare cop] ∧
      ∀ x y : Word, compareWord cop x y = evalRel op x.toInt y.toInt := by
    cases op
    case eq =>
      refine ⟨.cmp, by cases boxed <;> rfl, fun x y => ?_⟩
      rw [compareWord, evalRel, Bool.eq_iff_iff]
      simp [BitVec.toInt_inj]
    case neq =>
      refine ⟨.neq, by cases boxed <;> rfl, fun x y => ?_⟩
      rw [compareWord, evalRel, Bool.eq_iff_iff]
      simp [BitVec.toInt_inj]
    case lt => exact ⟨.lt, by cases boxed <;> rfl, fun x y => rfl⟩
    case lte => exact ⟨.lte, by cases boxed <;> rfl, fun x y => rfl⟩
    case gt => exact ⟨.gt, by cases boxed <;> rfl, fun x y => rfl⟩
    case gte => exact ⟨.gte, by cases boxed <;> rfl, fun x y => rfl⟩
  obtain ⟨cop, heq, hf⟩ := hinstr
  rw [heq]
  exact tailSpec_truth (f := compareWord cop) (fun _ => rfl) hf

/-- Comparisons of booleans. -/
theorem tailSpec_relBool (op : Rel) (boxed : Bool) :
    TailSpec host (genBinaryOp op.operator (Ty.bool.builtin boxed)) .bool .bool
      (fun x y => some (evalRel op (order .bool x) (order .bool y))) fun _ _ => True := by
  cases boxed with
  | true =>
    have hinstr : ∃ cop, genBinaryOp op.operator (Ty.bool.builtin true) = [.compare cop] ∧
        ∀ x y : Bool, compareWord cop (ofBool x) (ofBool y) =
          evalRel op (order .bool x) (order .bool y) := by
      cases op
      case eq => exact ⟨.cmp, rfl, by decide⟩
      case neq => exact ⟨.neq, rfl, by decide⟩
      case lt => exact ⟨.ult, rfl, by decide⟩
      case lte => exact ⟨.ulte, rfl, by decide⟩
      case gt => exact ⟨.ugt, rfl, by decide⟩
      case gte => exact ⟨.ugte, rfl, by decide⟩
    obtain ⟨cop, heq, hf⟩ := hinstr
    rw [heq]
    exact tailSpec_truth (f := compareWord cop) (fun _ => rfl) hf
  | false =>
    cases op
    case eq =>
      exact tailSpec_tcall .eq rfl rfl (fun _ _ => rfl) (by decide)
    case lt =>
      exact tailSpec_tcall .lt rfl rfl (fun _ _ => rfl) (by decide)
    case gt =>
      exact tailSpec_tcall .gt rfl rfl (fun _ _ => rfl) (by decide)
    case neq =>
      exact (tailSpec_tcall .eq (p := fun x y => x == y) rfl rfl (fun _ _ => rfl)
        (by decide)).not (by decide)
    case lte =>
      exact (tailSpec_tcall .gt (p := fun x y => x && !y) rfl rfl (fun _ _ => rfl)
        (by decide)).not (by decide)
    case gte =>
      exact (tailSpec_tcall .lt (p := fun x y => !x && y) rfl rfl (fun _ _ => rfl)
        (by decide)).not (by decide)

/-! ## All expressions -/

theorem spec_intLit (v : Word) : Spec host env (.intLit v) := fun _ _ hcode _ _ =>
  pushes_one (t := .int) (v := v) hcode.head rfl

theorem spec_boolLit (b : Bool) : Spec host env (.boolLit b) := fun _ _ hcode _ _ =>
  pushes_one (t := .bool) (v := b) hcode.head rfl

/-- A variable is loaded. -/
theorem spec_var (t : Ty) (x : Var) : Spec host env (.var t x) := by
  intro code st hcode _ hh
  refine pushes_one (t := t) (v := env t x) hcode.head ?_
  rw [← hh.2]
  cases x <;> rfl

/-- A negation. -/
theorem spec_not {a : Expr .bool} (ha : Spec host env a) : Spec host env (.not a) := by
  intro code st hcode hsp hh
  have hsize : (Expr.not a).node.size = a.node.size + a.node.size + 1 := rfl
  have hcode : BlockAt code st.pc
    (a.node.code st.pc ++ (a.node.code (st.pc + a.node.size) ++ [.not])) := hcode
  obtain ⟨ra, hra, pa⟩ := ha code st hcode.left hsp hh
  have hcode₁ := hcode.right
  rw [Node.length_code] at hcode₁
  have hpart := InBlock.mono (H := H) (le_refl st.pc)
    (show st.pc + a.node.size ≤ st.pc + (Expr.not a).node.size by omega)
  cases ra with
  | halt f =>
    refine ⟨.halt f, hra.halt_mono hpart, ⟨nofun, ?_, nofun⟩⟩
    intro hc hn
    obtain ⟨hnone, hf⟩ := (pa.complete hc.1 hn).of_halt
    simp only [eval, hnone, Option.map_none]
    exact hf
  | ok st₁ =>
    obtain ⟨hpc₁, hk₁, hlt₁⟩ := pa.keeps st₁ rfl
    have hcomplete : ∀ r, Clean env (.not a) → slots env (.not a) ≤ st.sp →
        Right (eval env (.not a)) st r := by
      intro r hc hn
      have hright := pa.complete hc.1 hn
      rw [hc.2] at hright
      exact absurd hright id
    rw [← hpc₁] at hcode₁
    obtain ⟨rb, hrb, pb⟩ := ha code st₁ hcode₁.left (by omega) (Holds.keeps hk₁ (e := a) hh)
    have hpart₁ := InBlock.mono (H := H) (show st.pc ≤ st₁.pc by omega)
      (show st₁.pc + a.node.size ≤ st.pc + (Expr.not a).node.size by omega)
    cases rb with
    | halt f =>
      exact ⟨.halt f, hra.seq hpart (hrb.halt_mono hpart₁), ⟨nofun, hcomplete _, nofun⟩⟩
    | ok st₂ =>
      obtain ⟨hpc₂, hk₂, hlt₂⟩ := pb.keeps st₂ rfl
      have hcode₂ := hcode₁.right
      rw [Node.length_code, ← hpc₂] at hcode₂
      let st₃ : VmState H := (replaceTop 0 (ofBool (st₂.peek 0 == 0)) st₂).next
      have hstep : step host code st₂ = .ok st₃ := by
        have hv : st₂.sp + 1 ≤ stackSize := by omega
        simp only [step, hcode₂.head, execInstr, requireValues, if_pos hv, st₃]
      have hin : InBlock st.pc (st.pc + (Expr.not a).node.size) st₂ := ⟨by omega, by omega⟩
      have hsp₃ : st₃.sp = st₂.sp := rfl
      have hk₃ : Keeps st st₃ := by
        have hk := hk₁.trans hk₂
        refine ⟨hk.sp_le, ?_, hk.statics_eq, hk.fp_eq⟩
        intro addr haddr
        rw [← hk.stack_eq addr haddr]
        exact Function.update_of_ne (show addr ≠ st₂.sp + 0 by omega) _ _
      have hpc₃ : st₃.pc = st.pc + (Expr.not a).node.size := by
        show st₂.pc + 1 = _
        omega
      refine ⟨.ok st₃, hra.seq hpart (hrb.seq hpart₁ (.step hin hstep (runs_leave hpc₃))),
        ⟨?_, hcomplete _, ?_⟩⟩
      · intro st' heq
        obtain rfl := Next.ok.inj heq
        exact ⟨hpc₃, hk₃, by omega⟩
      · intro st' heq hsp'
        obtain rfl := Next.ok.inj heq
        omega

/-- **Every expression** pushes its value, by induction on it. -/
theorem expr_spec : ∀ {t : Ty} (e : Expr t), Spec host env e
  | _, .intLit v => spec_intLit v
  | _, .boolLit b => spec_boolLit b
  | _, .var t x => spec_var t x
  | _, .arith op boxed a b => fun code st hcode hsp hh =>
    pushes_binary (expr_spec a) (expr_spec b) (tailSpec_arith op boxed) rfl Iff.rfl rfl hcode hsp
      hh.1 hh.2
  | _, .neg a => by
    -- The code is that of the product with the literal `-1`.
    intro code st hcode hsp hh
    have hmul : ∀ x : Word, x * -1 = -x := fun x => by
      rw [BitVec.mul_neg]
      simp
    refine pushes_binary (expr_spec a) (spec_intLit (-1)) (tailSpec_arith .mul false) ?_ ?_ rfl
      hcode hsp hh (by rw [Holds]; trivial)
    · show (eval env a).map _ = (eval env a).bind fun x => some (x * -1)
      simp only [hmul]
      cases eval env a <;> rfl
    · simp [Clean, Defined]
  | _, .rel t op boxed a b => by
    intro code st hcode hsp hh
    have htail : TailSpec host (genBinaryOp op.operator (t.builtin boxed)) t .bool
        (fun x y => some (evalRel op (order t x) (order t y))) fun _ _ => True := by
      cases t
      · exact tailSpec_relInt op boxed
      · exact tailSpec_relBool op boxed
    refine pushes_binary (expr_spec a) (expr_spec b) htail rfl ?_ rfl hcode hsp hh.1 hh.2
    simp [Clean]
  | _, .not a => spec_not (expr_spec a)
  | _, .and a b => by
    intro code st hcode hsp hh
    have hvalue : (fun x : Bool => if x then eval env b else some false) =
        fun x => if x = false then some false else eval env b := by
      funext x
      cases x <;> rfl
    refine pushes_shortCircuit jumpsOn_jz (expr_spec a) (expr_spec b) ?_ ?_ rfl hcode hsp
      hh.1 hh.2
    · rw [← hvalue]
      rfl
    · simp [Clean]
  | _, .or a b => by
    intro code st hcode hsp hh
    have hvalue : (fun x : Bool => if x then some true else eval env b) =
        fun x => if x = true then some true else eval env b := by
      funext x
      cases x <;> rfl
    refine pushes_shortCircuit jumpsOn_jnz (expr_spec a) (expr_spec b) ?_ ?_ rfl hcode hsp
      hh.1 hh.2
    · rw [← hvalue]
      rfl
    · simp [Clean]

end

/-! ## The emitted code -/

section

variable {H : Type} (host : Host H) {env : Env}

/-- The run of the code at `st.pc` raises because of a division by zero that the evaluation comes
to, or falls through with the value of the expression pushed and everything else as it was. -/
def PushesValue (code : List Instr) (env : Env) {t : Ty} (e : Expr t) (st : VmState H) : Prop :=
  ∃ r, Runs host code st.pc (st.pc + e.node.size) st r ∧
    match r with
    | .halt f => f = divisionByZero ∧ eval env e = none
    | .ok st' => st'.pc = st.pc + e.node.size ∧ st'.sp + 1 = st.sp ∧
      (∃ v, eval env e = some v ∧ st'.stack st'.sp = encode t v) ∧
      (∀ a, st.sp ≤ a → st'.stack a = st.stack a) ∧ st'.statics = st.statics ∧ st'.fp = st.fp

/-- The code that is generated is that of the node. -/
theorem blockAt_gen (n : Node) (ctx : GenCtx) (after : List Instr) :
    BlockAt ((gen n ctx).instructions ++ after) ctx.counter (n.code ctx.counter) := by
  refine ⟨ctx.instructions, after, ?_, rfl⟩
  rw [gen_appends n ctx, List.append_assoc]

/-- Where nothing is left on the stack the value is pushed. -/
theorem pushesValue_of_clean {t : Ty} {e : Expr t} {code : List Instr} {st : VmState H}
    (hcode : BlockAt code st.pc (e.node.code st.pc)) (hsp : st.sp ≤ stackSize)
    (hh : Holds env st e) (hclean : Clean env e) (hroom : slots env e ≤ st.sp) :
    PushesValue host code env e st := by
  obtain ⟨r, hr, hp⟩ := expr_spec e code st hcode hsp hh
  have hright := hp.complete hclean hroom
  refine ⟨r, hr, ?_⟩
  cases r with
  | halt f => exact ⟨hright.of_halt.2, hright.of_halt.1⟩
  | ok st' =>
    obtain ⟨hpc, hk, -⟩ := hp.keeps st' rfl
    obtain ⟨v, hv, hsp', htop⟩ := hright.of_ok
    exact ⟨hpc, hsp', ⟨v, hv, htop⟩, hk.stack_eq, hk.statics_eq, hk.fp_eq⟩

/-- Where the value is pushed nothing was left, if nothing divides by zero. -/
theorem clean_of_pushesValue {t : Ty} {e : Expr t} {code : List Instr} {st : VmState H}
    (hcode : BlockAt code st.pc (e.node.code st.pc)) (hsp : st.sp ≤ stackSize)
    (hh : Holds env st e) (hvalue : (eval env e).isSome) (h : PushesValue host code env e st) :
    Clean env e ∧ slots env e ≤ st.sp := by
  obtain ⟨r, hr, hp⟩ := expr_spec e code st hcode hsp hh
  obtain ⟨r', hr', h⟩ := h
  obtain rfl := hr.unique hr'
  cases r with
  | halt f =>
    rw [h.2] at hvalue
    cases hvalue
  | ok st' =>
    obtain ⟨hclean, hroom, -⟩ := hp.exact st' rfl h.2.1
    exact ⟨hclean, hroom⟩

/-- **The code that `gen_one_node` emits for an expression pushes its value**, wherever it is
emitted, if the evaluation is clean and has the room it needs; and when the evaluation does not
divide by zero, only then. -/
theorem gen_pushesValue (ctx : GenCtx) (after : List Instr) {t : Ty} (e : Expr t)
    (st : VmState H) (hpc : st.pc = ctx.counter) (hsp : st.sp ≤ stackSize)
    (hh : Holds env st e) :
    (Clean env e ∧ slots env e ≤ st.sp →
      PushesValue host ((gen e.node ctx).instructions ++ after) env e st) ∧
    ((eval env e).isSome →
      PushesValue host ((gen e.node ctx).instructions ++ after) env e st →
      Clean env e ∧ slots env e ≤ st.sp) := by
  have hcode := blockAt_gen e.node ctx after
  rw [← hpc] at hcode
  constructor
  · rintro ⟨hclean, hroom⟩
    exact pushesValue_of_clean host hcode hsp hh hclean hroom
  · intro hvalue h
    exact clean_of_pushesValue host hcode hsp hh hvalue h

end

/-! ## `x / 2 < 4 and true`, and `false and true` -/

def sampleEnv : Env
  | .int, _ => 7
  | .bool, _ => true

/-- `x / 2 < 4 and true` -/
def sampleExpr : Expr .bool :=
  .and (.rel .int .lt false (.arith .div false (.var .int (.module 0 0)) (.intLit 2)) (.intLit 4))
    (.boolLit true)

theorem sampleExpr_clean : Clean sampleEnv sampleExpr := by
  have hx : eval sampleEnv (.rel .int .lt false
      (.arith .div false (.var .int (.module 0 0)) (.intLit 2)) (.intLit 4)) = some true := by
    decide
  refine ⟨⟨⟨trivial, fun x hx' => ⟨trivial, fun y hy' => ?_⟩⟩, fun _ _ => trivial⟩, ?_⟩
  · obtain rfl := Option.some.inj hx'
    obtain rfl := Option.some.inj hy'
    show ¬ (sampleEnv .int (.module 0 0) = intMin ∧ (2 : Word) = -1)
    decide
  · intro x hx'
    exact ⟨Option.some.inj (hx'.symm.trans hx), trivial⟩

theorem gen_pushesValue_sample :
    PushesValue noHost ((gen sampleExpr.node {}).instructions ++ []) sampleEnv sampleExpr
      sampleState :=
  (gen_pushesValue noHost {} [] sampleExpr sampleState rfl (by decide)
    ⟨⟨⟨⟨trivial, rfl⟩, trivial⟩, trivial⟩, trivial⟩).1 ⟨sampleExpr_clean, by decide⟩

/-- The code of `false and true` does not: it leaves `false` twice. -/
theorem not_pushesValue_false_and_true :
    ¬ PushesValue noHost
      ((gen (Expr.and (.boolLit false) (.boolLit true)).node {}).instructions ++ []) sampleEnv
      (.and (.boolLit false) (.boolLit true)) sampleState := by
  intro h
  have hcode := blockAt_gen (Expr.and (.boolLit false) (.boolLit true)).node {} []
  have hh : Holds sampleEnv sampleState (.and (.boolLit false) (.boolLit true)) :=
    ⟨trivial, trivial⟩
  obtain ⟨⟨-, hshort⟩, -⟩ := clean_of_pushesValue noHost hcode (by decide) hh (by decide) h
  exact absurd (hshort false rfl).1 (by decide)

end N00b.Codegen
