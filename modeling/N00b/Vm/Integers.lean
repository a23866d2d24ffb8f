import N00b.Vm.Block

/-!
# The instructions on signed and unsigned integers

`gen_int_binary_op` picks an instruction by the sign of the static type. What the instruction then
computes is in the hands of the run loop, where each one has its own mixture of signed and unsigned
views of the same slot.

* The unsigned comparisons copy their operands to signed variables.
* `ZMod` divides the unsigned views.
* Only `ZDiv` looks at its divisor, and only for zero.

## Main results

* `computes_iff`: the operands on which an instruction computes what its type says.
-/

namespace N00b.Vm

open N00b.Lib

variable {H : Type}

/-! ## What the types say -/

/-- The instructions that `gen_int_binary_op` picks for orders, quotients, remainders and shifts. -/
inductive IntOp where
  | ult | ulte | ugt | ugte | lt | lte | gt | gte
  | udiv | umod | div | mod | shl | shr
  deriving DecidableEq, Repr

def IntOp.instr : IntOp → Instr
  | ult => .compare .ult
  | ulte => .compare .ulte
  | ugt => .compare .ugt
  | ugte => .compare .ugte
  | lt => .compare .lt
  | lte => .compare .lte
  | gt => .compare .gt
  | gte => .compare .gte
  | udiv => .arith .udiv
  | umod => .arith .umod
  | div => .arith .div
  | mod => .arith .mod
  | shl => .arith .shl
  | shr => .arith .shr

section

variable (host : Host H)

/-- The instruction puts a word with `p` in place of its operands. -/
def Yields (op : IntOp) (st : VmState H) (p : Word → Prop) : Prop :=
  ∃ w, execInstr host op.instr st = .ok (replaceTop 1 w st).next ∧ p w

def Raises (op : IntOp) (st : VmState H) : Prop :=
  ∃ message, execInstr host op.instr st = .halt (.raise message)

/-- The quotient of the operands as signed integers is undefined. -/
def Undivided (a b : Word) : Prop := b = 0 ∨ a = intMin ∧ b = -1

/-- The instruction computes what its type says of the left operand under the top and the right
operand on top: orders and quotients of unsigned or of signed integers. A shift by 64 or more may do
anything. -/
def Computes (op : IntOp) (st : VmState H) : Prop :=
  let a := st.peek 1
  let b := st.peek 0
  match op with
  | .ult => Yields host op st fun w => w = ofBool (decide (a.toNat < b.toNat))
  | .ulte => Yields host op st fun w => w = ofBool (decide (a.toNat ≤ b.toNat))
  | .ugt => Yields host op st fun w => w = ofBool (decide (b.toNat < a.toNat))
  | .ugte => Yields host op st fun w => w = ofBool (decide (b.toNat ≤ a.toNat))
  | .lt => Yields host op st fun w => w = ofBool (decide (a.toInt < b.toInt))
  | .lte => Yields host op st fun w => w = ofBool (decide (a.toInt ≤ b.toInt))
  | .gt => Yields host op st fun w => w = ofBool (decide (b.toInt < a.toInt))
  | .gte => Yields host op st fun w => w = ofBool (decide (b.toInt ≤ a.toInt))
  | .udiv =>
    (b = 0 → Raises host op st) ∧
      (b ≠ 0 → Yields host op st fun w => w.toNat = a.toNat / b.toNat)
  | .umod =>
    (b = 0 → Raises host op st) ∧
      (b ≠ 0 → Yields host op st fun w => w.toNat = a.toNat % b.toNat)
  | .div =>
    (Undivided a b → Raises host op st) ∧
      (¬ Undivided a b → Yields host op st fun w => w.toInt = a.toInt.tdiv b.toInt)
  | .mod =>
    (Undivided a b → Raises host op st) ∧
      (¬ Undivided a b → Yields host op st fun w =>
        w.toInt = a.toInt.tmod b.toInt ∧ a.toInt = a.toInt.tdiv b.toInt * b.toInt + w.toInt)
  | .shl => b.toNat < 64 → Yields host op st fun w => w.toNat = a.toNat * 2 ^ b.toNat % 2 ^ 64
  | .shr => b.toNat < 64 → Yields host op st fun w => w.toNat = a.toNat / 2 ^ b.toNat

end

/-! ## Where they are right -/

/-- The operands whose remainder is the same for signed and for unsigned integers. -/
def RemainderAgrees (a b : Word) : Prop :=
  (0 ≤ a.toInt ∧ 0 < b.toInt) ∨ (0 ≤ a.toInt ∧ a.toInt < -b.toInt) ∨
    (a.toInt < 0 ∧ 0 < b.toInt ∧ b.toInt ∣ a.toInt ∧ b.toInt ∣ 2 ^ 64) ∨ (a.toInt < 0 ∧ a = b)

def IntOp.RightOn (op : IntOp) (a b : Word) : Prop :=
  match op with
  | .ult | .ulte | .ugt | .ugte => a.msb = b.msb
  | .lt | .lte | .gt | .gte | .shl | .shr => True
  | .udiv | .umod => b ≠ 0
  | .div => ¬ (a = intMin ∧ b = -1)
  | .mod => RemainderAgrees a b

instance (a b : Word) : Decidable (RemainderAgrees a b) :=
  inferInstanceAs (Decidable (_ ∨ _ ∨ _ ∨ _))

instance (op : IntOp) (a b : Word) : Decidable (op.RightOn a b) := by
  cases op <;> unfold IntOp.RightOn <;> infer_instance

/-! ## Signed and unsigned views -/

/-- A word below 2^63 is the same signed and unsigned. -/
theorem toInt_of_lt {a : Word} (h : a.toNat < 2 ^ 63) : a.toInt = a.toNat := by
  rw [BitVec.toInt_eq_toNat_cond, if_pos (by omega)]

/-- A word from 2^63 on is negative when signed. -/
theorem toInt_of_ge {a : Word} (h : 2 ^ 63 ≤ a.toNat) :
    a.toInt = -((2 ^ 64 - a.toNat : Nat) : Int) := by
  have hlt := a.isLt
  rw [BitVec.toInt_eq_toNat_cond, if_neg (by omega)]
  omega

theorem toNat_umod_eq (a b : Word) : (a.umod b).toNat = a.toNat % b.toNat := rfl

theorem toNat_udiv_eq (a b : Word) : (a.udiv b).toNat = a.toNat / b.toNat := BitVec.toNat_udiv

/-- The two orders agree on two words iff their signs do. -/
theorem slt_eq_ult_iff (a b : Word) :
    decide (a.toInt < b.toInt) = decide (a.toNat < b.toNat) ↔ a.msb = b.msb := by
  rw [← BitVec.slt_eq_decide, ← BitVec.ult_eq_decide, BitVec.slt_eq_ult]
  cases a.msb <;> cases b.msb <;> simp

/-- The two weak orders agree on two words iff their signs do. -/
theorem sle_eq_ule_iff (a b : Word) :
    decide (a.toInt ≤ b.toInt) = decide (a.toNat ≤ b.toNat) ↔ a.msb = b.msb := by
  rw [← BitVec.sle_eq_decide, ← BitVec.ule_eq_decide, BitVec.sle_eq_ule]
  cases a.msb <;> cases b.msb <;> simp

theorem ofBool_inj {p q : Bool} : ofBool p = ofBool q ↔ p = q := by
  cases p <;> cases q <;> decide

/-- The unsigned remainder is the signed one exactly where `RemainderAgrees` says so. -/
theorem umod_eq_tmod_iff {a b : Word} (hb : b ≠ 0) :
    (a.umod b).toInt = a.toInt.tmod b.toInt ↔ RemainderAgrees a b := by
  have hpos : 0 < b.toNat := by
    rw [Nat.pos_iff_ne_zero]
    exact fun h => hb (BitVec.eq_of_toNat_eq h)
  have ha64 := a.isLt
  have hb64 := b.isLt
  by_cases ha : a.toNat < 2 ^ 63
  case pos =>
    have hmod : (a.umod b).toNat < 2 ^ 63 := (Nat.mod_le _ _).trans_lt ha
    rw [toInt_of_lt hmod, toNat_umod_eq, toInt_of_lt ha]
    by_cases hb63 : b.toNat < 2 ^ 63
    case pos =>
      rw [toInt_of_lt hb63, ← Int.ofNat_tmod]
      refine iff_of_true rfl (Or.inl ?_)
      rw [toInt_of_lt ha, toInt_of_lt hb63]
      omega
    case neg =>
      -- The divisor is larger than the dividend in the unsigned view.
      rw [toInt_of_ge (by omega), Int.tmod_neg, ← Int.ofNat_tmod,
        Nat.mod_eq_of_lt (show a.toNat < b.toNat by omega), Nat.cast_inj, eq_comm,
        Nat.mod_eq_iff_lt (by omega)]
      unfold RemainderAgrees
      rw [toInt_of_lt ha, toInt_of_ge (by omega)]
      omega
  case neg =>
    rw [toInt_of_ge (a := a) (by omega), Int.neg_tmod]
    by_cases hb63 : b.toNat < 2 ^ 63
    case pos =>
      -- One remainder is never negative, the other never positive.
      have hlt : a.toNat % b.toNat < b.toNat := Nat.mod_lt _ hpos
      have hsum : a.toNat + (2 ^ 64 - a.toNat) = 2 ^ 64 := by omega
      have hmod : (a.umod b).toNat < 2 ^ 63 := by
        rw [toNat_umod_eq]
        omega
      have hzero : (a.umod b).toInt = -((2 ^ 64 - a.toNat : Nat) : Int).tmod b.toInt ↔
          b.toNat ∣ a.toNat ∧ b.toNat ∣ 2 ^ 64 - a.toNat := by
        rw [toInt_of_lt hmod, toNat_umod_eq, toInt_of_lt hb63, ← Int.ofNat_tmod,
          Nat.dvd_iff_mod_eq_zero, Nat.dvd_iff_mod_eq_zero]
        omega
      rw [hzero]
      unfold RemainderAgrees
      rw [toInt_of_ge (a := a) (by omega), toInt_of_lt hb63, Int.dvd_neg, Int.natCast_dvd_natCast,
        show ((2 : Int) ^ 64) = ((2 ^ 64 : Nat) : Int) from rfl, Int.natCast_dvd_natCast]
      constructor
      · rintro ⟨h, h'⟩
        have hall : b.toNat ∣ 2 ^ 64 := hsum ▸ Nat.dvd_add h h'
        exact Or.inr (Or.inr (Or.inl ⟨by omega, by omega, h', hall⟩))
      · rintro (⟨h, -⟩ | ⟨h, -⟩ | ⟨-, -, h', hall⟩ | ⟨-, h⟩)
        · omega
        · omega
        · exact ⟨(Nat.dvd_add_left h').mp (hsum.symm ▸ hall), h'⟩
        · rw [h] at ha
          exact absurd hb63 ha
    case neg =>
      have hright : RemainderAgrees a b ↔ a.toNat = b.toNat := by
        unfold RemainderAgrees
        rw [toInt_of_ge (a := a) (by omega), toInt_of_ge (a := b) (by omega), ← BitVec.toNat_inj]
        omega
      rw [hright, toInt_of_ge (a := b) (by omega), Int.tmod_neg, ← Int.ofNat_tmod]
      by_cases hlt : a.toNat < b.toNat
      case pos =>
        have hmod : (a.umod b).toNat = a.toNat := by
          rw [toNat_umod_eq, Nat.mod_eq_of_lt hlt]
        have hrem : (2 ^ 64 - a.toNat) % (2 ^ 64 - b.toNat) < 2 ^ 64 - b.toNat :=
          Nat.mod_lt _ (by omega)
        rw [toInt_of_ge (by omega), hmod]
        omega
      case neg =>
        have hmod : (a.umod b).toNat = a.toNat - b.toNat := by
          rw [toNat_umod_eq, Nat.mod_eq_sub_mod (by omega), Nat.mod_eq_of_lt (by omega)]
        rw [toInt_of_lt (by omega), hmod]
        by_cases heq : a.toNat = b.toNat
        · rw [heq, Nat.mod_self]
          simp
        · rw [Nat.mod_eq_of_lt (by omega)]
          omega

/-! ## One instruction -/

section

variable {host : Host H} {op : IntOp} {st : VmState H}

/-- A comparison yields a truth value iff the machine's comparison is it. -/
theorem yields_compare {c : CmpOp} (hop : op.instr = .compare c) (hv : st.sp + 2 ≤ stackSize)
    {q : Bool} :
    (Yields host op st fun w => w = ofBool q) ↔ compareWord c (st.peek 1) (st.peek 0) = q := by
  have hexec : execInstr host op.instr st =
      .ok (replaceTop 1 (ofBool (compareWord c (st.peek 1) (st.peek 0))) st).next := by
    rw [hop, execInstr, requireValues, if_pos hv]
  unfold Yields
  rw [hexec]
  constructor
  · rintro ⟨w, hw, rfl⟩
    have htop := congrArg (fun s => s.stack (st.sp + 1)) (Next.ok.inj hw)
    simp only [replaceTop, VmState.next, VmState.poke, Function.update_self] at htop
    exact ofBool_inj.mp htop
  · rintro rfl
    exact ⟨_, rfl, rfl⟩

variable {o : ArithOp}

/-- An arithmetic instruction replaces its operands by its result or stops with its fault. -/
theorem execInstr_arith (host : Host H) (hop : op.instr = .arith o) (hv : st.sp + 2 ≤ stackSize) :
    (∀ w, arithWord o (st.peek 1) (st.peek 0) = .ok w →
      execInstr host op.instr st = .ok (replaceTop 1 w st).next) ∧
    ∀ f, arithWord o (st.peek 1) (st.peek 0) = .error f → execInstr host op.instr st = .halt f := by
  rw [hop, execInstr, requireValues, if_pos hv]
  constructor
  · intro w hw
    rw [hw]
  · intro f hf
    rw [hf]

variable {p : Word → Prop}

/-- An arithmetic instruction yields a word iff its operation does. -/
theorem yields_arith (hop : op.instr = .arith o) (hv : st.sp + 2 ≤ stackSize)
    :
    Yields host op st p ↔ ∃ w, arithWord o (st.peek 1) (st.peek 0) = .ok w ∧ p w := by
  obtain ⟨hok, herror⟩ := execInstr_arith host hop hv
  constructor
  · rintro ⟨w, hw, hp⟩
    cases hval : arithWord o (st.peek 1) (st.peek 0) with
    | error f =>
      rw [herror f hval] at hw
      cases hw
    | ok v =>
      rw [hok v hval] at hw
      have htop := congrArg (fun s => s.stack (st.sp + 1)) (Next.ok.inj hw)
      simp only [replaceTop, VmState.next, VmState.poke, Function.update_self] at htop
      exact ⟨v, rfl, htop ▸ hp⟩
  · rintro ⟨w, hw, hp⟩
    exact ⟨w, hok w hw, hp⟩

/-- An arithmetic instruction that raises does so in its operation. -/
theorem raises_arith (hop : op.instr = .arith o) (hv : st.sp + 2 ≤ stackSize)
    (h : Raises host op st) :
    ∃ message, arithWord o (st.peek 1) (st.peek 0) = .error (.raise message) := by
  obtain ⟨hok, herror⟩ := execInstr_arith host hop hv
  obtain ⟨message, hm⟩ := h
  cases hval : arithWord o (st.peek 1) (st.peek 0) with
  | error f =>
    rw [herror f hval] at hm
    exact ⟨message, congrArg _ (Next.halt.inj hm)⟩
  | ok v =>
    rw [hok v hval] at hm
    cases hm

/-- A division that is undefined and does not raise breaks its meaning. -/
theorem quotient_undefined (hop : op.instr = .arith o) (hv : st.sp + 2 ≤ stackSize)
    {undefined : Prop} (hundef : undefined)
    (hval : ∀ message, arithWord o (st.peek 1) (st.peek 0) ≠ .error (.raise message)) :
    ¬ ((undefined → Raises host op st) ∧ (¬ undefined → Yields host op st p)) := by
  rintro ⟨hraises, -⟩
  obtain ⟨message, hm⟩ := raises_arith hop hv (hraises hundef)
  exact hval message hm

/-- A division that is defined meets its meaning iff its word is the quotient. -/
theorem quotient_defined (hop : op.instr = .arith o) (hv : st.sp + 2 ≤ stackSize)
    {undefined : Prop} (hdef : ¬ undefined) {w : Word}
    (hval : arithWord o (st.peek 1) (st.peek 0) = .ok w) :
    ((undefined → Raises host op st) ∧ (¬ undefined → Yields host op st p)) ↔ p w := by
  rw [yields_arith hop hv]
  constructor
  · rintro ⟨-, hyields⟩
    obtain ⟨w', hw, hp⟩ := hyields hdef
    rw [hval] at hw
    cases hw
    exact hp
  · intro hp
    exact ⟨fun h => absurd h hdef, fun _ => ⟨w, hval, hp⟩⟩

/-- Unsigned division is right iff the divisor is not zero. -/
theorem computes_udiv (hv : st.sp + 2 ≤ stackSize) :
    Computes host .udiv st ↔ st.peek 0 ≠ 0 := by
  by_cases hb : st.peek 0 = 0
  · refine iff_of_false (quotient_undefined (o := .udiv) rfl hv hb fun message => ?_)
      (not_not.mpr hb)
    rw [arithWord, if_pos hb]
    exact fun h => nomatch h
  · have hval : arithWord .udiv (st.peek 1) (st.peek 0) = .ok ((st.peek 1).udiv (st.peek 0)) :=
      if_neg hb
    exact iff_of_true ((quotient_defined rfl hv hb hval).mpr (toNat_udiv_eq _ _)) hb

/-- Unsigned remainder is right iff the divisor is not zero. -/
theorem computes_umod (hv : st.sp + 2 ≤ stackSize) :
    Computes host .umod st ↔ st.peek 0 ≠ 0 := by
  by_cases hb : st.peek 0 = 0
  · refine iff_of_false (quotient_undefined (o := .umod) rfl hv hb fun message => ?_)
      (not_not.mpr hb)
    rw [arithWord, if_pos hb]
    exact fun h => nomatch h
  · have hval : arithWord .umod (st.peek 1) (st.peek 0) = .ok ((st.peek 1).umod (st.peek 0)) :=
      if_neg hb
    exact iff_of_true ((quotient_defined rfl hv hb hval).mpr (toNat_umod_eq _ _)) hb

/-- Signed division is right but for the smallest integer by -1. -/
theorem computes_div (hv : st.sp + 2 ≤ stackSize) :
    Computes host .div st ↔ ¬ (st.peek 1 = intMin ∧ st.peek 0 = -1) := by
  by_cases hb : st.peek 0 = 0
  case pos =>
    have hval : arithWord .div (st.peek 1) (st.peek 0) =
        .error (.raise "Division by zero error.") := if_pos hb
    refine iff_of_true ⟨fun _ => ?_, fun h => absurd (Or.inl hb) h⟩ ?_
    · exact ⟨_, (execInstr_arith host (rfl : IntOp.div.instr = _) hv).2 _ hval⟩
    · rintro ⟨-, h⟩
      rw [hb] at h
      exact absurd h (by decide)
  case neg =>
    by_cases hmin : st.peek 1 = intMin ∧ st.peek 0 = -1
    · refine iff_of_false (quotient_undefined (o := .div) rfl hv (Or.inr hmin) fun message => ?_)
        (not_not.mpr hmin)
      rw [arithWord, if_neg hb, if_pos hmin]
      exact fun h => nomatch h
    · have hval : arithWord .div (st.peek 1) (st.peek 0) = .ok ((st.peek 1).sdiv (st.peek 0)) := by
        rw [arithWord, if_neg hb, if_neg hmin]
      have hdef : ¬ Undivided (st.peek 1) (st.peek 0) := not_or.mpr ⟨hb, hmin⟩
      refine iff_of_true ((quotient_defined rfl hv hdef hval).mpr ?_) hmin
      exact BitVec.toInt_sdiv_of_ne_or_ne _ _ (not_and_or.mp hmin)

/-- Where the division is undefined the remainders do not agree. -/
theorem not_remainderAgrees_of_undivided {a b : Word} (h : Undivided a b) :
    ¬ RemainderAgrees a b := by
  rcases h with rfl | ⟨rfl, rfl⟩
  · have hzero : (0 : Word).toInt = 0 := by decide
    rintro (⟨-, h⟩ | ⟨h, h'⟩ | ⟨-, h, -⟩ | ⟨h, rfl⟩)
    · omega
    · omega
    · omega
    · omega
  · decide

/-- Signed remainder is right iff the unsigned one agrees with it. -/
theorem computes_mod (hv : st.sp + 2 ≤ stackSize) :
    Computes host .mod st ↔ RemainderAgrees (st.peek 1) (st.peek 0) := by
  by_cases hundef : Undivided (st.peek 1) (st.peek 0)
  case pos =>
    refine iff_of_false (quotient_undefined (o := .mod) rfl hv hundef fun message => ?_)
      (not_remainderAgrees_of_undivided hundef)
    rw [arithWord]
    split
    · exact fun h => nomatch h
    · exact fun h => nomatch h
  case neg =>
    have hb : st.peek 0 ≠ 0 := fun h => hundef (Or.inl h)
    have hval : arithWord .mod (st.peek 1) (st.peek 0) = .ok ((st.peek 1).umod (st.peek 0)) :=
      if_neg hb
    rw [← umod_eq_tmod_iff hb]
    refine (quotient_defined rfl hv hundef hval).trans ?_
    constructor
    · exact fun h => h.1
    · intro h
      refine ⟨h, ?_⟩
      rw [h, Int.mul_comm]
      exact (Int.mul_tdiv_add_tmod _ _).symm

/-- The shifts are right. -/
theorem computes_shift (hv : st.sp + 2 ≤ stackSize) :
    Computes host .shl st ∧ Computes host .shr st := by
  unfold Computes
  simp only [yields_arith (rfl : IntOp.shl.instr = _) hv, yields_arith (rfl : IntOp.shr.instr = _) hv, arithWord]
  constructor
  · intro h
    exact ⟨_, if_pos h, by rw [BitVec.toNat_shiftLeft, Nat.shiftLeft_eq]⟩
  · intro h
    exact ⟨_, if_pos h, by rw [BitVec.toNat_ushiftRight, Nat.shiftRight_eq_div_pow]⟩

/-- Every integer instruction is right exactly on the operands its condition names. -/
theorem computes_iff (op : IntOp) (hv : st.sp + 2 ≤ stackSize) :
    Computes host op st ↔ op.RightOn (st.peek 1) (st.peek 0) := by
  cases op with
  | ult =>
    unfold Computes
    simp only [yields_compare (rfl : IntOp.ult.instr = _) hv]
    exact slt_eq_ult_iff _ _
  | ulte =>
    unfold Computes
    simp only [yields_compare (rfl : IntOp.ulte.instr = _) hv]
    exact sle_eq_ule_iff _ _
  | ugt =>
    unfold Computes
    simp only [yields_compare (rfl : IntOp.ugt.instr = _) hv]
    exact (slt_eq_ult_iff _ _).trans eq_comm
  | ugte =>
    unfold Computes
    simp only [yields_compare (rfl : IntOp.ugte.instr = _) hv]
    exact (sle_eq_ule_iff _ _).trans eq_comm
  | lt => exact iff_of_true ((yields_compare rfl hv).mpr rfl) trivial
  | lte => exact iff_of_true ((yields_compare rfl hv).mpr rfl) trivial
  | gt => exact iff_of_true ((yields_compare rfl hv).mpr rfl) trivial
  | gte => exact iff_of_true ((yields_compare rfl hv).mpr rfl) trivial
  | udiv => exact computes_udiv hv
  | umod => exact computes_umod hv
  | div => exact computes_div hv
  | mod => exact computes_mod hv
  | shl => exact iff_of_true (computes_shift hv).1 trivial
  | shr => exact iff_of_true (computes_shift hv).2 trivial

end

/-! ## `2 ^ 63 < 0` and `-7 % 3` -/

/-- The operands `a` and `b`, with `b` on top. -/
def operandState (a b : Word) : VmState Unit :=
  { sampleState with stack := fun addr => if addr = 10 then b else a }

theorem computes_five_ult_six : Computes noHost .ult (operandState 5 6) :=
  (computes_iff .ult (by decide)).mpr (by decide)

/-- `2 ^ 63` counts as below zero for the unsigned order, and the remainder of `-7` by `3` is
not `-1`. -/
theorem not_computes_ult_mod :
    ¬ Computes noHost .ult (operandState intMin 0) ∧
      ¬ Computes noHost .mod (operandState (-7) 3) := by
  constructor
  · have hv : (operandState intMin 0).sp + 2 ≤ stackSize := by decide
    unfold Computes
    simp only [yields_compare (rfl : IntOp.ult.instr = _) hv]
    decide
  · exact fun h => absurd ((computes_mod (by decide)).mp h) (by decide)

end N00b.Vm
