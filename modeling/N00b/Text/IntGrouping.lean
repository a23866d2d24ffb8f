import N00b.Text.IntFormats

/-!
# Printing integers with commas

fmt_numbers.nc: the branches of `n00b_fmt_int` and of `n00b_fmt_uint` for `commas`.

## Representation

* What is left of the local buffer is counted, as in `fmtLoop`. A character that finds no room has
  no result.
* `digits` is a constant, since no branch counts it up.
-/

namespace N00b.Text

open N00b.Adts

/-! ## The printers -/

/-- `repr[--n] = c`, with so many bytes of the buffer left. -/
def put (c : UInt8) : ℕ × List UInt8 → Option (ℕ × List UInt8)
  | (0, _) => none
  | (n + 1, repr) => some (n, c :: repr)

/-- The loop with commas. A pass takes a byte of the buffer, so there are no more passes than
bytes. -/
def commaLoop (digits : ℕ) : ℕ → ℕ → ℕ × List UInt8 → Option (ℕ × List UInt8)
  | 0, value, repr => if value = 0 then some repr else none
  | passes + 1, value, repr =>
    if value = 0 then some repr
    else do
      let repr ← if digits ≠ 0 ∧ digits % 3 = 0 then put 44 repr else some repr
      let repr ← put (UInt8.ofNat (value % 10 + 48)) repr
      commaLoop digits passes (value / 10) repr

/-- `n00b_fmt_int`, with `commas`. -/
def fmtIntWith (value : ℤ) (commas : Bool) : Option (List UInt8) :=
  if value = 0 then some [48]
  else if commas then (commaLoop 0 99 value.natAbs (99, [])).bind (withSign (value < 0))
  else fmtInt value

/-- `n00b_fmt_uint`, with `commas`. -/
def fmtUintWith (value : ℕ) (commas : Bool) : Option (List UInt8) :=
  if value = 0 then some [48]
  else if commas then (commaLoop 0 99 value (99, [])).bind (withSign false)
  else fmtUint value

/-! ## Grouping -/

/-- Digits with a comma before every third one from the right, but for the first. -/
def grouped : List UInt8 → List UInt8
  | [] => []
  | d :: digits =>
    if digits ≠ [] ∧ digits.length % 3 = 0 then d :: 44 :: grouped digits else d :: grouped digits

/-- A text is another one, with its digits grouped. -/
def Groups (neg : Bool) (plain text : Option (List UInt8)) : Prop :=
  ∃ digits, (∀ c ∈ digits, IsDigit c) ∧ plain = some (decimalText neg digits) ∧
    text = some (decimalText neg (grouped digits))

variable {digits : List UInt8}

/-- Without its commas a grouped number is its digits. -/
theorem filter_grouped (hdigits : ∀ c ∈ digits, IsDigit c) :
    (grouped digits).filter (· ≠ 44) = digits := by
  induction digits with
  | nil => rfl
  | cons d digits ih =>
    obtain ⟨⟨hlow, -⟩, hrest⟩ := List.forall_mem_cons.mp hdigits
    have hd : d ≠ 44 := by
      rintro rfl
      simp at hlow
    rw [grouped]
    split <;> simpa [hd] using ih hrest

variable {neg : Bool}

/-- Without its commas a grouped text is the plain one. -/
theorem Groups.filter {plain text : Option (List UInt8)} (h : Groups neg plain text) :
    text.map (List.filter (· ≠ 44)) = plain := by
  obtain ⟨digits, hdigits, rfl, rfl⟩ := h
  have hfilter := filter_grouped hdigits
  cases neg <;> simpa [decimalText] using hfilter

/-- A number has one comma for every three digits but the first. -/
theorem length_grouped (digits : List UInt8) :
    (grouped digits).length = digits.length + (digits.length - 1) / 3 := by
  induction digits with
  | nil => rfl
  | cons d digits ih =>
    rw [grouped]
    split
    next h =>
      have hpos := List.length_pos_iff.mpr h.1
      simp only [List.length_cons, ih]
      omega
    next h =>
      simp only [List.length_cons, ih]
      rcases digits with _ | ⟨d', digits⟩
      · rfl
      · -- the digits behind `d` are not a number of threes
        simp only [ne_eq, reduceCtorEq, not_false_eq_true, true_and, List.length_cons] at h ⊢
        omega

/-- A number has no comma iff it has at most three digits. -/
theorem grouped_eq_iff (digits : List UInt8) : grouped digits = digits ↔ digits.length ≤ 3 := by
  constructor
  · intro h
    have hlen := length_grouped digits
    rw [h] at hlen
    omega
  · intro h
    rcases digits with _ | ⟨a, _ | ⟨b, _ | ⟨c, _ | ⟨d, digits⟩⟩⟩⟩
    · rfl
    · rfl
    · rfl
    · rfl
    · simp only [List.length_cons] at h
      omega

/-! ## What is printed with commas -/

/-- The loop with commas never puts one and is the plain loop. -/
theorem commaLoop_zero (n value : ℕ) (repr : List UInt8) :
    commaLoop 0 n value (n, repr) = fmtLoop n value repr := by
  induction n generalizing value repr with
  | zero => rfl
  | succ n ih =>
    rw [commaLoop, fmtLoop]
    split
    · rfl
    · simpa [put] using ih (value / 10) (UInt8.ofNat (value % 10 + 48) :: repr)

/-- Signed numbers are printed without commas either way. -/
theorem fmtIntWith_eq (value : ℤ) (commas : Bool) : fmtIntWith value commas = fmtInt value := by
  rw [fmtIntWith, commaLoop_zero, fmtInt]
  split <;> simp

/-- Unsigned numbers are printed without commas either way. -/
theorem fmtUintWith_eq (value : ℕ) (commas : Bool) : fmtUintWith value commas = fmtUint value := by
  rw [fmtUintWith, commaLoop_zero, fmtUint]
  split <;> simp

/-- A number is below the power of ten of its digits. -/
theorem decimalFrom_lt (hdigits : ∀ c ∈ digits, IsDigit c) (n : ℕ) :
    decimalFrom n digits < (n + 1) * 10 ^ digits.length := by
  induction digits generalizing n with
  | nil => simp [decimalFrom]
  | cons d digits ih =>
    obtain ⟨⟨hlow, hhigh⟩, hrest⟩ := List.forall_mem_cons.mp hdigits
    calc decimalFrom n (d :: digits)
        = decimalFrom (10 * n + (d.toNat - 48)) digits := rfl
      _ < (10 * n + (d.toNat - 48) + 1) * 10 ^ digits.length := ih hrest _
      _ ≤ (10 * (n + 1)) * 10 ^ digits.length := Nat.mul_le_mul_right _ (by omega)
      _ = (n + 1) * 10 ^ (digits.length + 1) := by ring

/-- The loop uses one slot of its array for each digit. -/
theorem fmtLoop_length {n value k : ℕ} {repr text : List UInt8}
    (h : fmtLoop n value repr = some (k, text)) : k + text.length = n + repr.length := by
  induction n generalizing value repr with
  | zero =>
    rw [fmtLoop] at h
    split at h
    · cases h
      rfl
    · cases h
  | succ n ih =>
    rw [fmtLoop] at h
    split at h
    · cases h
      rfl
    · have hlen := ih h
      simp only [List.length_cons] at hlen
      omega

/-- A number below 1000 is printed with at most three digits. -/
theorem fmtLoop_short {value : ℕ} (h : value < 1000) :
    ∃ k digits, fmtLoop 99 value [] = some (k + 1, digits) ∧ (∀ c ∈ digits, IsDigit c) ∧
      digits.length ≤ 3 := by
  obtain ⟨k, digits, hloop, hk, hdigits, -⟩ := fmtLoop_spec (show 3 ≤ 99 by decide) h []
  rw [List.append_nil] at hloop
  have hlen := fmtLoop_length hloop
  simp only [List.length_nil] at hlen
  obtain ⟨k, rfl⟩ := Nat.exists_eq_succ_of_ne_zero (show k ≠ 0 by omega)
  exact ⟨k, digits, hloop, hdigits, by omega⟩

/-! ## Which integers are grouped -/

/-- Two texts with one sign are equal iff their digits are. -/
theorem decimalText_inj {digits digits' : List UInt8} :
    decimalText neg digits = decimalText neg digits' ↔ digits = digits' := by
  cases neg <;> simp [decimalText]

/-- A plain text is grouped iff it has at most three digits. -/
theorem groups_self (hdigits : ∀ c ∈ digits, IsDigit c) :
    Groups neg (some (decimalText neg digits)) (some (decimalText neg digits)) ↔
      digits.length ≤ 3 := by
  rw [← grouped_eq_iff]
  constructor
  · rintro ⟨digits', -, hplain, htext⟩
    obtain rfl := decimalText_inj.mp (Option.some.inj hplain)
    exact (decimalText_inj.mp (Option.some.inj htext)).symm
  · intro h
    exact ⟨digits, hdigits, rfl, by rw [h]⟩

/-- A signed number is printed grouped iff it is below 1000 in size. -/
theorem groups_fmtInt {v : ℤ} (hv : v.natAbs < 10 ^ 20) :
    Groups (v < 0) (fmtInt v) (fmtInt v) ↔ v.natAbs < 1000 := by
  obtain ⟨digits, hfmt, hdigits, hval⟩ := fmtInt_spec hv
  rw [hfmt, groups_self hdigits]
  constructor
  · intro hlen
    have hlt := decimalFrom_lt hdigits 0
    have hpow : 10 ^ digits.length ≤ 10 ^ 3 := Nat.pow_le_pow_right (by decide) hlen
    omega
  · intro hsmall
    rw [fmtInt] at hfmt
    split at hfmt
    next hzero =>
      subst hzero
      obtain rfl : digits = [48] := (Option.some.inj hfmt).symm
      decide
    next =>
      obtain ⟨k, digits', hloop, -, hlen⟩ := fmtLoop_short hsmall
      rw [hloop] at hfmt
      obtain rfl := decimalText_inj.mp (Option.some.inj hfmt)
      exact hlen

/-- An unsigned number is printed grouped iff it is below 1000. -/
theorem groups_fmtUint {u : ℕ} (hu : u < 10 ^ 20) :
    Groups false (fmtUint u) (fmtUint u) ↔ u < 1000 := by
  simpa [fmtInt_natCast, natCast_not_neg] using @groups_fmtInt u hu

/-- **Which integers are grouped**: those that need no comma. -/
theorem groups_iff {v : ℤ} {u : ℕ} (hlow : -2 ^ 63 ≤ v) (hhigh : v < 2 ^ 63) (hu : u < 2 ^ 64) :
    (Groups (v < 0) (fmtIntWith v false) (fmtIntWith v true) ↔ v.natAbs < 1000) ∧
      (Groups false (fmtUintWith u false) (fmtUintWith u true) ↔ u < 1000) := by
  rw [fmtIntWith_eq, fmtIntWith_eq, fmtUintWith_eq, fmtUintWith_eq]
  exact ⟨groups_fmtInt (by omega), groups_fmtUint (by omega)⟩

theorem groups_iff_999 :
    (Groups ((-999 : ℤ) < 0) (fmtIntWith (-999) false) (fmtIntWith (-999) true) ↔
        (-999 : ℤ).natAbs < 1000) ∧
      (Groups false (fmtUintWith 999 false) (fmtUintWith 999 true) ↔ 999 < 1000) :=
  groups_iff (by decide) (by decide) (by decide)

/-- **A thousand is printed without its comma.** -/
theorem not_groups :
    ¬ ((∀ v : ℤ, -2 ^ 63 ≤ v → v < 2 ^ 63 →
        Groups (v < 0) (fmtIntWith v false) (fmtIntWith v true)) ∧
      ∀ u : ℕ, u < 2 ^ 64 → Groups false (fmtUintWith u false) (fmtUintWith u true)) := by
  rintro ⟨-, hall⟩
  have hthousand := hall 1000 (by decide)
  rw [fmtUintWith_eq, fmtUintWith_eq, groups_fmtUint (by decide)] at hthousand
  exact absurd hthousand (by decide)

end N00b.Text
