import N00b.Adts.IntLiterals
import N00b.Lib.Runs

/-!
# Size literals

size.nc: `parse_size_lit`.

## Representation

* A text is its bytes. What `n00b_string_lower` makes of it is a parameter, and is followed by a 0.
* `multiplier` is not initialized, so what it holds at first is a parameter as well.
* An accumulator of 128 bits wraps around.
-/

namespace N00b.Adts

open N00b.Lib

/-! ## The parser -/

/-- Why a literal is refused. `overflow` is told by `oflow`. -/
inductive SizeError where
  | invalid | overflow
deriving DecidableEq, Repr

/-- `N00B_MAX_UINT`. -/
def maxUint : ℤ := 2 ^ 64 - 1

/-- What a signed integer of 128 bits holds after a store. -/
def int128 (x : ℤ) : ℤ := x.bmod (2 ^ 128)

/-- `isdigit`. -/
def isDigitByte (c : UInt8) : Bool := 48 ≤ c.toNat && c.toNat ≤ 57

/-- What may stand between a number, a unit and the next number. -/
def isSizeSep (c : UInt8) : Bool := c = 32 || c = 44

def sizeDigits : List UInt8 → ℕ → Except SizeError (ℕ × List UInt8)
  | [], cur => .ok (cur, [])
  | c :: p, cur =>
    if isDigitByte c then
      if maxUint < (cur * 10 + (c.toNat - 48) : ℕ) then .error .overflow
      else sizeDigits p (cur * 10 + (c.toNat - 48))
    else .ok (cur, c :: p)

/-- The nested tests behind a `b`, for these letters. -/
def byteTail : List UInt8 → List UInt8 → List UInt8
  | x :: letters, c :: p => if c = x then byteTail letters p else c :: p
  | _, p => p

/-- The tests behind a `k`, `m`, `g` or `t`. At the end of the string, `multiplier` is what it was
before. -/
def scaledUnit (decimal binary multiplier : UInt64) : List UInt8 → UInt64 × List UInt8
  | [] => (multiplier, [])
  | c :: p =>
    let (multiplier, p) := if c = 105 then (binary, p) else (decimal, c :: p)
    (multiplier, if p.head? = some 98 then p.tail else p)

/-- The `switch` over the first letter of a unit. -/
def sizeUnit (multiplier : UInt64) : List UInt8 → Option (UInt64 × List UInt8)
  | [] => none
  | c :: p =>
    if c = 98 then some (1, byteTail [121, 116, 101, 115] p)
    else if c = 107 then some (scaledUnit 1000 1024 multiplier p)
    else if c = 109 then some (scaledUnit 1000000 1048576 multiplier p)
    else if c = 103 then some (scaledUnit 1000000000 1073741824 multiplier p)
    else if c = 116 then some (scaledUnit 1000000000000 1099511627776 multiplier p)
    else none

/-- The loop of `parse_size_lit`. Every pass reads a digit, so there are no more passes than
bytes. -/
def sizeLoop : ℕ → List UInt8 → ℤ → UInt64 → Except SizeError ℤ
  | _, [], nBytes, _ => .ok nBytes
  | 0, _ :: _, _, _ => .error .invalid
  | passes + 1, c :: p, nBytes, multiplier =>
    if !isDigitByte c then .error .invalid
    else do
      let (cur, p) ← sizeDigits (c :: p) 0
      match sizeUnit multiplier (p.dropWhile isSizeSep) with
      | none => .error .invalid
      | some (multiplier, p) =>
        let nBytes := int128 (nBytes + multiplier.toNat * cur)
        if maxUint < nBytes then .error .overflow
        else sizeLoop passes (p.dropWhile isSizeSep) nBytes multiplier

/-- `parse_size_lit`. -/
def parseSizeLit (lower : List UInt8 → List UInt8) (multiplier : UInt64) (toParse : List UInt8) :
    Except SizeError ℕ :=
  if lower toParse = [] then .error .invalid
  else (sizeLoop (lower toParse).length (lower toParse) 0 multiplier).map fun nBytes =>
    (nBytes % 2 ^ 64).toNat

/-! ## What a literal says -/

inductive SizeScale where
  | k | m | g | t
deriving DecidableEq, Repr

/-- A unit: `b` and some of the letters of `ytes`, or a scaled one with or without an `i` and a
`b`. -/
inductive SizeUnit where
  | bytes (letters : Fin 5)
  | scaled (scale : SizeScale) (i b : Bool)
deriving DecidableEq, Repr

namespace SizeScale

def letter : SizeScale → UInt8
  | k => 107
  | m => 109
  | g => 103
  | t => 116

/-- Without an `i`. -/
def decimal : SizeScale → UInt64
  | k => 1000
  | m => 1000000
  | g => 1000000000
  | t => 1000000000000

/-- With an `i`. -/
def binary : SizeScale → UInt64
  | k => 1024
  | m => 1048576
  | g => 1073741824
  | t => 1099511627776

end SizeScale

namespace SizeUnit

def text : SizeUnit → List UInt8
  | bytes letters => 98 :: [121, 116, 101, 115].take letters
  | scaled scale i b => scale.letter :: ((if i then [105] else []) ++ if b then [98] else [])

def multiplier : SizeUnit → UInt64
  | bytes _ => 1
  | scaled scale i _ => if i then scale.binary else scale.decimal

def bare : SizeUnit → Bool
  | scaled _ false false => true
  | _ => false

end SizeUnit

/-- A number and a unit, and what stands between and behind. -/
@[ext]
structure SizeTerm where
  digits : List UInt8
  gap : List UInt8
  unit : SizeUnit
  sep : List UInt8
  digits_ne_nil : digits ≠ []
  isDigit : ∀ c ∈ digits, isDigitByte c = true
  isSep_gap : ∀ c ∈ gap, isSizeSep c = true
  isSep_sep : ∀ c ∈ sep, isSizeSep c = true

namespace SizeTerm

def text (t : SizeTerm) : List UInt8 := t.digits ++ (t.gap ++ (t.unit.text ++ t.sep))

def number (t : SizeTerm) : ℕ := decimalFrom 0 t.digits

def value (t : SizeTerm) : ℕ := t.unit.multiplier.toNat * t.number

end SizeTerm

def sizeText (terms : List SizeTerm) : List UInt8 := terms.flatMap SizeTerm.text

def sizeSum (terms : List SizeTerm) : ℕ := (terms.map SizeTerm.value).sum

def SizeDenotes (text : List UInt8) (size : ℕ) : Prop :=
  ∃ terms ≠ [], text = sizeText terms ∧ size = sizeSum terms

/-- No letter alone ends the text, or the multiplier that is left over does for it: what
`multiplier` held at first, or that of the term before. -/
def SizeKept : UInt64 → List SizeTerm → Prop
  | _, [] => True
  | left, [t] => t.unit.bare = true → t.sep = [] → t.number = 0 ∨ left = t.unit.multiplier
  | _, t :: t' :: terms => SizeKept t.unit.multiplier (t' :: terms)

/-! ## One number -/

variable {c : UInt8}

theorem isDigitByte_iff : isDigitByte c = true ↔ IsDigit c := by
  simp [isDigitByte, IsDigit]

/-- The digits of a number are read, up to `UINT64_MAX`. -/
theorem sizeDigits_run {digits rest : List UInt8} (hdigits : ∀ c ∈ digits, isDigitByte c = true)
    (hrest : Stops isDigitByte rest) {cur : ℕ} (hcur : (cur : ℤ) ≤ maxUint) :
    sizeDigits (digits ++ rest) cur =
      if maxUint < decimalFrom cur digits then .error .overflow
      else .ok (decimalFrom cur digits, rest) := by
  induction digits generalizing cur with
  | nil =>
    have hvalue : decimalFrom cur [] = cur := rfl
    rw [List.nil_append, hvalue, if_neg (by omega)]
    cases rest with
    | nil => rfl
    | cons c rest => simp [sizeDigits, stops_cons.mp hrest]
  | cons c digits ih =>
    obtain ⟨hc, hdigits⟩ := List.forall_mem_cons.mp hdigits
    have hvalue : decimalFrom cur (c :: digits) =
        decimalFrom (cur * 10 + (c.toNat - 48)) digits := by
      rw [decimalFrom, List.foldl_cons, Nat.mul_comm 10 cur]
      rfl
    rw [List.cons_append, sizeDigits, if_pos hc, hvalue]
    split
    next hover =>
      -- what does not fit now does not fit with more digits
      have hle := le_decimalFrom (cur * 10 + (c.toNat - 48)) digits
      rw [if_pos (by omega)]
    next hover => exact ih hdigits (by omega)

/-- What is read as a number is digits. -/
theorem sizeDigits_ok {p p' : List UInt8} {cur value : ℕ}
    (h : sizeDigits p cur = .ok (value, p')) :
    ∃ digits, p = digits ++ p' ∧ (∀ c ∈ digits, isDigitByte c = true) ∧
      Stops isDigitByte p' := by
  induction p generalizing cur with
  | nil =>
    cases h
    exact ⟨[], rfl, nofun, stops_nil⟩
  | cons c p ih =>
    rw [sizeDigits] at h
    split at h
    next hc =>
      split at h
      · cases h
      · obtain ⟨digits, rfl, hdigits, hstop⟩ := ih h
        exact ⟨c :: digits, rfl, List.forall_mem_cons.mpr ⟨hc, hdigits⟩, hstop⟩
    next hc =>
      cases h
      exact ⟨[], rfl, nofun, by simpa using hc⟩

/-! ## One unit -/

def isSmall (c : UInt8) : Bool := 97 ≤ c.toNat && c.toNat ≤ 122

theorem SizeUnit.isSmall (u : SizeUnit) : ∀ c ∈ u.text, isSmall c = true := by
  cases u with
  | bytes letters => fin_cases letters <;> simp [SizeUnit.text, N00b.Adts.isSmall]
  | scaled scale i b =>
    cases scale <;> cases i <;> cases b <;>
      simp [SizeUnit.text, SizeScale.letter, N00b.Adts.isSmall]

theorem SizeUnit.text_ne_nil (u : SizeUnit) : u.text ≠ [] := by
  cases u <;> exact List.cons_ne_nil _ _

/-- A unit is known by its letters. -/
theorem SizeUnit.text_injective {u u' : SizeUnit} (h : u.text = u'.text) : u = u' := by
  cases u with
  | bytes letters =>
    cases u' with
    | bytes letters' =>
      have hlen := congrArg List.length h
      simp only [SizeUnit.text, List.length_cons, List.length_take, List.length_nil] at hlen
      exact congrArg SizeUnit.bytes (Fin.ext (by omega))
    | scaled scale i b =>
      have hhead := List.head_eq_of_cons_eq h
      cases scale <;> exact absurd hhead (by decide)
  | scaled scale i b =>
    cases u' with
    | bytes letters =>
      have hhead := List.head_eq_of_cons_eq h
      cases scale <;> exact absurd hhead (by decide)
    | scaled scale' i' b' =>
      have hhead : scale.letter = scale'.letter := List.head_eq_of_cons_eq h
      have htail := List.tail_eq_of_cons_eq h
      obtain rfl : scale = scale' := by
        cases scale <;> cases scale' <;> first | rfl | exact absurd hhead (by decide)
      cases i <;> cases b <;> cases i' <;> cases b' <;>
        first | rfl | exact absurd htail (by decide)

/-- The letters behind a unit are passed as far as they are those of "bytes". -/
theorem byteTail_run {letters rest : List UInt8} (hrest : Stops isSmall rest)
    (hsmall : ∀ c ∈ letters, isSmall c = true) (k : ℕ) :
    byteTail letters (letters.take k ++ rest) = rest := by
  induction letters generalizing k with
  | nil => cases rest <;> simp [byteTail]
  | cons x letters ih =>
    obtain ⟨hx, hsmall⟩ := List.forall_mem_cons.mp hsmall
    cases k with
    | zero =>
      cases rest with
      | nil => rfl
      | cons c rest =>
        have hne : c ≠ x := by
          rintro rfl
          exact absurd (hx.symm.trans (stops_cons.mp hrest)) Bool.noConfusion
        simp [byteTail, hne]
    | succ k => simpa [byteTail] using ih hsmall k

theorem byteTail_ok (letters p : List UInt8) :
    ∃ k ≤ letters.length, p = letters.take k ++ byteTail letters p := by
  induction letters generalizing p with
  | nil => exact ⟨0, le_rfl, by cases p <;> rfl⟩
  | cons x letters ih =>
    cases p with
    | nil => exact ⟨0, Nat.zero_le _, rfl⟩
    | cons c p =>
      rw [byteTail]
      split
      next hc =>
        obtain ⟨k, hk, hp⟩ := ih p
        refine ⟨k + 1, Nat.succ_le_succ hk, ?_⟩
        rw [hc, List.take_succ_cons, List.cons_append, ← hp]
      next => exact ⟨0, Nat.zero_le _, rfl⟩

/-- The letters of a scale give its multiplier. -/
theorem scaledUnit_run (scale : SizeScale) (left : UInt64) (i b : Bool) {rest : List UInt8}
    (hrest : Stops isSmall rest) :
    scaledUnit scale.decimal scale.binary left
        (((if i then [105] else []) ++ if b then [98] else []) ++ rest) =
      (if (SizeUnit.scaled scale i b).bare = true ∧ rest = [] then left
        else (SizeUnit.scaled scale i b).multiplier, rest) := by
  cases rest with
  | nil => cases i <;> cases b <;> simp [scaledUnit, SizeUnit.bare, SizeUnit.multiplier]
  | cons c rest =>
    have hsmall := stops_cons.mp hrest
    have hi : c ≠ 105 := by
      rintro rfl
      exact absurd hsmall (by decide)
    have hb : c ≠ 98 := by
      rintro rfl
      exact absurd hsmall (by decide)
    cases i <;> cases b <;> simp [scaledUnit, SizeUnit.multiplier, hi, hb]

/-- What is passed as a unit is a scale with its letters. -/
theorem scaledUnit_ok (scale : SizeScale) (left : UInt64) (p : List UInt8) :
    ∃ i b : Bool, p = ((if i then [105] else []) ++ if b then [98] else []) ++
        (scaledUnit scale.decimal scale.binary left p).2 := by
  cases p with
  | nil => exact ⟨false, false, rfl⟩
  | cons c p =>
    by_cases hi : c = 105
    · subst hi
      rcases p with _ | ⟨d, p⟩
      · exact ⟨true, false, rfl⟩
      · by_cases hb : d = 98
        · subst hb
          exact ⟨true, true, rfl⟩
        · exact ⟨true, false, by simp [scaledUnit, hb]⟩
    · by_cases hb : c = 98
      · subst hb
        exact ⟨false, true, rfl⟩
      · exact ⟨false, false, by simp [scaledUnit, hi, hb]⟩

theorem sizeUnit_scale (scale : SizeScale) (left : UInt64) (p : List UInt8) :
    sizeUnit left (scale.letter :: p) =
      some (scaledUnit scale.decimal scale.binary left p) := by
  cases scale <;> rfl

/-- **A unit** is read with its multiplier, but a single letter at the end leaves that of the term
before. -/
theorem sizeUnit_run (u : SizeUnit) (left : UInt64) {rest : List UInt8}
    (hrest : Stops isSmall rest) :
    sizeUnit left (u.text ++ rest) =
      some (if u.bare = true ∧ rest = [] then left else u.multiplier, rest) := by
  cases u with
  | bytes letters =>
    have htail := @byteTail_run [121, 116, 101, 115] rest hrest (by simp [isSmall]) letters
    simp [SizeUnit.text, sizeUnit, SizeUnit.bare, SizeUnit.multiplier, htail]
  | scaled scale i b =>
    rw [SizeUnit.text, List.cons_append, sizeUnit_scale, scaledUnit_run _ _ _ _ hrest]

/-- What is read as a unit is the text of one. -/
theorem sizeUnit_ok {left left' : UInt64} {p p' : List UInt8}
    (h : sizeUnit left p = some (left', p')) : ∃ u : SizeUnit, p = u.text ++ p' := by
  cases p with
  | nil => cases h
  | cons c p =>
    by_cases hb : c = 98
    · subst hb
      obtain ⟨k, hk, hp⟩ := byteTail_ok [121, 116, 101, 115] p
      obtain rfl : byteTail [121, 116, 101, 115] p = p' :=
        congrArg Prod.snd (Option.some.inj h)
      refine ⟨.bytes ⟨k, Nat.lt_succ_of_le hk⟩, ?_⟩
      rw [SizeUnit.text, List.cons_append, ← hp]
    · have hscale : ∃ scale : SizeScale, c = scale.letter := by
        by_contra hnone
        have hk : c ≠ 107 := fun hc => hnone ⟨.k, hc⟩
        have hm : c ≠ 109 := fun hc => hnone ⟨.m, hc⟩
        have hg : c ≠ 103 := fun hc => hnone ⟨.g, hc⟩
        have ht : c ≠ 116 := fun hc => hnone ⟨.t, hc⟩
        simp [sizeUnit, hb, hk, hm, hg, ht] at h
      obtain ⟨scale, rfl⟩ := hscale
      rw [sizeUnit_scale] at h
      obtain ⟨i, b, hp⟩ := scaledUnit_ok scale left p
      rw [Option.some.inj h] at hp
      refine ⟨.scaled scale i b, ?_⟩
      rw [SizeUnit.text, List.cons_append, ← hp]

/-! ## Terms -/

theorem isSizeSep_digit (h : isDigitByte c = true) : isSizeSep c = false := by
  simp only [isDigitByte, isSizeSep, Bool.and_eq_true, decide_eq_true_eq, Bool.or_eq_false_iff,
    decide_eq_false_iff_not, ← UInt8.toNat_inj, UInt8.reduceToNat] at h ⊢
  omega

theorem isSmall_digit (h : isDigitByte c = true) : isSmall c = false := by
  simp only [isDigitByte, isSmall, Bool.and_eq_true, decide_eq_true_eq, Bool.and_eq_false_iff,
    decide_eq_false_iff_not] at h ⊢
  omega

theorem isDigitByte_sep (h : isSizeSep c = true) : isDigitByte c = false := by
  rcases Bool.eq_false_or_eq_true (isDigitByte c) with hc | hc
  · exact absurd (h.symm.trans (isSizeSep_digit hc)) Bool.noConfusion
  · exact hc

theorem isDigitByte_small (h : isSmall c = true) : isDigitByte c = false := by
  rcases Bool.eq_false_or_eq_true (isDigitByte c) with hc | hc
  · exact absurd (h.symm.trans (isSmall_digit hc)) Bool.noConfusion
  · exact hc

theorem isSmall_sep (h : isSizeSep c = true) : isSmall c = false := by
  simp only [isSizeSep, isSmall, Bool.or_eq_true, decide_eq_true_eq, ← UInt8.toNat_inj,
    UInt8.reduceToNat, Bool.and_eq_false_iff, decide_eq_false_iff_not] at h ⊢
  omega

theorem isSizeSep_small (h : isSmall c = true) : isSizeSep c = false := by
  rcases Bool.eq_false_or_eq_true (isSizeSep c) with hc | hc
  · exact absurd (h.symm.trans (isSmall_sep hc)) Bool.noConfusion
  · exact hc

@[simp] theorem sizeText_nil : sizeText [] = [] := rfl

/-- The text of a size is that of its first term and of the others. -/
theorem sizeText_cons (t : SizeTerm) (terms : List SizeTerm) :
    sizeText (t :: terms) =
      t.digits ++ (t.gap ++ (t.unit.text ++ (t.sep ++ sizeText terms))) := by
  simp [sizeText, SizeTerm.text]

/-- A text begins with a digit. -/
theorem stops_sizeText {p : UInt8 → Bool} (hp : ∀ c, isDigitByte c = true → p c = false)
    (terms : List SizeTerm) : Stops p (sizeText terms) := by
  cases terms with
  | nil => exact stops_nil
  | cons t terms =>
    rw [sizeText_cons, stops_append t.digits_ne_nil]
    exact stops_of_all t.isDigit hp

section

variable (t : SizeTerm) (terms : List SizeTerm)

theorem SizeTerm.stops_unit {p : UInt8 → Bool} (hp : ∀ c, isSmall c = true → p c = false)
    (rest : List UInt8) : Stops p (t.unit.text ++ rest) := by
  rw [stops_append t.unit.text_ne_nil]
  exact stops_of_all t.unit.isSmall hp

theorem SizeTerm.stops_gap (rest : List UInt8) :
    Stops isDigitByte (t.gap ++ (t.unit.text ++ rest)) :=
  (stops_of_all t.isSep_gap fun _ => isDigitByte_sep).append
    (t.stops_unit (fun _ => isDigitByte_small) rest)

theorem SizeTerm.stops_sep : Stops isSmall (t.sep ++ sizeText terms) :=
  (stops_of_all t.isSep_sep fun _ => isSmall_sep).append
    (stops_sizeText (fun _ => isSmall_digit) terms)

end

/-- What the loop makes of terms. A letter alone that ends the text takes the multiplier that is
left over. -/
def evalTerms : ℤ → UInt64 → List SizeTerm → Except SizeError ℤ
  | nBytes, _, [] => .ok nBytes
  | nBytes, left, t :: terms =>
    let multiplier :=
      if t.unit.bare = true ∧ t.sep ++ sizeText terms = [] then left else t.unit.multiplier
    if maxUint < t.number then .error .overflow
    else if maxUint < int128 (nBytes + multiplier.toNat * t.number) then .error .overflow
    else evalTerms (int128 (nBytes + multiplier.toNat * t.number)) multiplier terms

variable {terms : List SizeTerm}

/-- **The loop over the terms** of a text is their evaluation. -/
theorem sizeLoop_text {passes : ℕ} (h : (sizeText terms).length ≤ passes)
    (nBytes : ℤ) (left : UInt64) :
    sizeLoop passes (sizeText terms) nBytes left = evalTerms nBytes left terms := by
  induction terms generalizing passes nBytes left with
  | nil => cases passes <;> rfl
  | cons t terms ih =>
    have hrun := sizeDigits_run t.isDigit (t.stops_gap (t.sep ++ sizeText terms))
      (show ((0 : ℕ) : ℤ) ≤ maxUint by decide)
    have hgap := dropWhile_run t.isSep_gap
      (t.stops_unit (fun _ => isSizeSep_small) (t.sep ++ sizeText terms))
    have hunit := sizeUnit_run t.unit left (t.stops_sep terms)
    have hsep := dropWhile_run t.isSep_sep (stops_sizeText (fun _ => isSizeSep_digit) terms)
    rw [sizeText_cons] at h ⊢
    obtain ⟨c, digits, hdigits⟩ := List.exists_cons_of_ne_nil t.digits_ne_nil
    have hc : isDigitByte c = true := t.isDigit c (hdigits ▸ List.mem_cons_self)
    rw [hdigits, List.cons_append] at hrun
    rw [hdigits, List.cons_append, List.length_cons] at h
    rw [hdigits, List.cons_append]
    simp only [List.length_append] at h
    obtain ⟨passes, rfl⟩ := Nat.exists_eq_succ_of_ne_zero (show passes ≠ 0 by omega)
    have hnumber : decimalFrom 0 (c :: digits) = t.number := by rw [← hdigits]; rfl
    rw [sizeLoop, evalTerms, hrun, hnumber]
    simp only [hc, Bool.not_true, Bool.false_eq_true, if_false]
    by_cases hover : maxUint < t.number
    · rw [if_pos hover, if_pos hover]
      rfl
    · rw [if_neg hover, if_neg hover]
      simp only [bind, Except.bind, hgap, hunit, hsep, ih (show _ ≤ passes by omega)]

variable {left : UInt64} {nBytes size : ℤ}

/-- What the loop accepts is the text of terms. -/
theorem sizeLoop_ok {passes : ℕ} {p : List UInt8}
    (h : sizeLoop passes p nBytes left = .ok size) : ∃ terms, p = sizeText terms := by
  induction passes generalizing p nBytes left with
  | zero =>
    cases p with
    | nil => exact ⟨[], rfl⟩
    | cons c p => cases h
  | succ passes ih =>
    rcases p with _ | ⟨c, p⟩
    · exact ⟨[], rfl⟩
    · rw [sizeLoop] at h
      split at h
      · cases h
      next hc =>
        rcases hnumber : sizeDigits (c :: p) 0 with err | ⟨cur, p'⟩
        · rw [hnumber] at h
          cases h
        · simp only [hnumber, bind, Except.bind] at h
          rcases hunit : sizeUnit left (p'.dropWhile isSizeSep) with _ | ⟨left', p''⟩
          · rw [hunit] at h
            cases h
          · simp only [hunit] at h
            split at h
            · cases h
            · obtain ⟨terms, hterms⟩ := ih h
              obtain ⟨digits, hp, hdigits, hstop⟩ := sizeDigits_ok hnumber
              obtain ⟨u, hu⟩ := sizeUnit_ok hunit
              have hne : digits ≠ [] := by
                rintro rfl
                rw [List.nil_append] at hp
                rw [← hp, stops_cons] at hstop
                simp [hstop] at hc
              refine ⟨⟨digits, p'.takeWhile isSizeSep, u, p''.takeWhile isSizeSep, hne, hdigits,
                fun _ => List.mem_takeWhile_imp, fun _ => List.mem_takeWhile_imp⟩ :: terms, ?_⟩
              rw [sizeText_cons, ← hterms, List.takeWhile_append_dropWhile, ← hu,
                List.takeWhile_append_dropWhile, hp]

/-- **A text has one reading** as terms. -/
theorem sizeText_injective {terms terms' : List SizeTerm} (h : sizeText terms = sizeText terms') :
    terms = terms' := by
  have hne : ∀ (t : SizeTerm) (terms : List SizeTerm), sizeText (t :: terms) ≠ [] := by
    intro t terms hnil
    rw [sizeText_cons] at hnil
    exact t.digits_ne_nil (List.append_eq_nil_iff.mp hnil).1
  induction terms generalizing terms' with
  | nil =>
    cases terms' with
    | nil => rfl
    | cons t' terms' => exact absurd h.symm (hne t' terms')
  | cons t terms ih =>
    cases terms' with
    | nil => exact absurd h (hne t terms)
    | cons t' terms' =>
      rw [sizeText_cons, sizeText_cons] at h
      obtain ⟨hdigits, h⟩ := run_inj t.isDigit (t.stops_gap _) t'.isDigit (t'.stops_gap _) h
      obtain ⟨hgap, h⟩ := run_inj t.isSep_gap (t.stops_unit (fun _ => isSizeSep_small) _)
        t'.isSep_gap (t'.stops_unit (fun _ => isSizeSep_small) _) h
      obtain ⟨hunit, h⟩ := run_inj t.unit.isSmall (t.stops_sep _) t'.unit.isSmall (t'.stops_sep _) h
      obtain ⟨hsep, h⟩ := run_inj t.isSep_sep (stops_sizeText (fun _ => isSizeSep_digit) _)
        t'.isSep_sep (stops_sizeText (fun _ => isSizeSep_digit) _) h
      rw [ih h, SizeTerm.ext hdigits hgap (SizeUnit.text_injective hunit) hsep]

/-! ## What is stored -/

/-- No multiplier is above 2^40. -/
theorem SizeUnit.multiplier_le (u : SizeUnit) : u.multiplier.toNat ≤ 2 ^ 40 := by
  cases u with
  | bytes letters => exact Nat.le_of_lt (by decide : 1 < 2 ^ 40)
  | scaled scale i b =>
    rw [multiplier]
    cases scale <;> cases i <;> decide

theorem SizeUnit.le_multiplier {u : SizeUnit} (h : u.bare = true) : 1000 ≤ u.multiplier.toNat := by
  cases u with
  | bytes letters => cases h
  | scaled scale i b =>
    cases i with
    | true => cases b <;> cases h
    | false =>
      rw [multiplier]
      cases scale <;> decide

theorem int128_small {x : ℤ} (h0 : 0 ≤ x) (h : x < 2 ^ 127) : int128 x = x :=
  Int.bmod_eq_of_le_mul_two (by omega) (by omega)

theorem int128_large {x : ℤ} (h0 : 2 ^ 127 ≤ x) (h : x < 2 ^ 128) : int128 x = x - 2 ^ 128 := by
  rw [int128, Int.bmod_def]
  omega

variable {t : SizeTerm}

/-- A sum that fits 128 bits is what is stored. -/
theorem int128_value {nBytes : ℤ} (h0 : 0 ≤ nBytes) (hle : nBytes ≤ maxUint)
    (ht : (t.number : ℤ) ≤ maxUint) :
    int128 (nBytes + t.unit.multiplier.toNat * t.number) = nBytes + t.value := by
  have hunit := t.unit.multiplier_le
  unfold maxUint at hle ht
  have hmul : t.unit.multiplier.toNat * t.number ≤ 2 ^ 40 * 2 ^ 64 :=
    Nat.mul_le_mul hunit (by omega)
  have hvalue : (t.value : ℤ) = t.unit.multiplier.toNat * t.number := by
    rw [SizeTerm.value]
    push_cast
    rfl
  rw [← hvalue]
  have hsmall : t.value ≤ 2 ^ 40 * 2 ^ 64 := hmul
  exact int128_small (by omega) (by omega)

/-- With the multiplier of the term before, the sum is right only for the same multiplier. -/
theorem left_value {nBytes : ℤ} (h0 : 0 ≤ nBytes) (hle : nBytes ≤ maxUint)
    (ht : (t.number : ℤ) ≤ maxUint) (hbare : t.unit.bare = true)
    (hfits : int128 (nBytes + left.toNat * t.number) ≤ maxUint) :
    int128 (nBytes + left.toNat * t.number) % 2 ^ 64 = nBytes + t.value ↔
      t.number = 0 ∨ left = t.unit.multiplier := by
  have hleft := left.toNat_lt
  unfold maxUint at hle ht hfits
  have hmul : left.toNat * t.number ≤ (2 ^ 64 - 1) * (2 ^ 64 - 1) :=
    Nat.mul_le_mul (by omega) (by omega)
  have hcast : (left.toNat * t.number : ℤ) = (left.toNat * t.number : ℕ) := by push_cast; rfl
  have hvalue : t.value = t.unit.multiplier.toNat * t.number := rfl
  rw [hcast] at hfits ⊢
  by_cases hsmall : nBytes + (left.toNat * t.number : ℕ) < 2 ^ 127
  · rw [int128_small (by omega) hsmall] at hfits ⊢
    rw [Int.emod_eq_of_lt (by omega) (by omega), hvalue, ← UInt64.toNat_inj]
    constructor
    · intro heq
      have hnat : left.toNat * t.number = t.unit.multiplier.toNat * t.number := by omega
      rcases mul_eq_mul_right_iff.mp hnat with h | h
      · exact .inr h
      · exact .inl h
    · rintro (h | h)
      · simp [h]
      · rw [h]
  · -- the accumulator is negative, and what it is cut to is less than the number alone
    have hlarge := int128_large (by omega) (show nBytes + (left.toNat * t.number : ℕ) < 2 ^ 128 by
      omega)
    have hnumber : 2 ^ 62 < t.number := by
      by_contra hle
      have hmul' : left.toNat * t.number ≤ 2 ^ 64 * 2 ^ 62 := Nat.mul_le_mul (by omega) (by omega)
      omega
    have hunit : 1000 * t.number ≤ t.value := Nat.mul_le_mul_right _ (t.unit.le_multiplier hbare)
    rw [hlarge]
    constructor
    · intro heq
      omega
    · rintro (h | rfl)
      · omega
      · have hle40 := t.unit.multiplier_le
        have hmul' : t.unit.multiplier.toNat * t.number ≤ 2 ^ 40 * 2 ^ 64 :=
          Nat.mul_le_mul hle40 (by omega)
        omega

/-- The first term of an accepted text was small enough. -/
theorem evalTerms_cons_ok
    (h : evalTerms nBytes left (t :: terms) = .ok size) :
    ∃ multiplier, multiplier =
        (if t.unit.bare = true ∧ t.sep ++ sizeText terms = [] then left else t.unit.multiplier) ∧
      t.number ≤ maxUint ∧ int128 (nBytes + multiplier.toNat * t.number) ≤ maxUint ∧
      evalTerms (int128 (nBytes + multiplier.toNat * t.number)) multiplier terms = .ok size := by
  simp only [evalTerms] at h
  by_cases hnumber : maxUint < t.number
  · rw [if_pos hnumber] at h
    cases h
  · rw [if_neg hnumber] at h
    refine ⟨_, rfl, by omega, ?_⟩
    by_cases hfits : maxUint < int128 (nBytes + (if t.unit.bare = true ∧
        t.sep ++ sizeText terms = [] then left else t.unit.multiplier).toNat * t.number)
    · rw [if_pos hfits] at h
      cases h
    · rw [if_neg hfits] at h
      exact ⟨by omega, h⟩

/-- **The terms add up** to their sum just if no bare letter ends them wrongly. -/
theorem evalTerms_iff (h0 : 0 ≤ nBytes)
    (hle : nBytes ≤ maxUint) (h : evalTerms nBytes left terms = .ok size) :
    size % 2 ^ 64 = nBytes + sizeSum terms ↔ SizeKept left terms := by
  induction terms generalizing nBytes left with
  | nil =>
    cases h
    unfold maxUint at hle
    simp only [sizeSum, List.map_nil, List.sum_nil, SizeKept, iff_true]
    omega
  | cons t terms ih =>
    have hsum : sizeSum (t :: terms) = t.value + sizeSum terms := by simp [sizeSum]
    obtain ⟨multiplier, hmultiplier, ht, hfits, hrest⟩ := evalTerms_cons_ok h
    by_cases hcut : t.unit.bare = true ∧ t.sep ++ sizeText terms = []
    · rw [if_pos hcut] at hmultiplier
      subst hmultiplier
      obtain ⟨hbare, hend⟩ := hcut
      obtain ⟨hsep, hterms⟩ := List.append_eq_nil_iff.mp hend
      obtain rfl : terms = [] := sizeText_injective hterms
      cases hrest
      have hleft := left_value h0 hle ht hbare hfits
      simp only [SizeKept, hbare, hsep, forall_true_left]
      rw [← hleft, hsum]
      simp [sizeSum]
    · rw [if_neg hcut] at hmultiplier
      subst hmultiplier
      rw [int128_value h0 hle ht] at hfits hrest
      rw [hsum, Nat.cast_add, ← add_assoc, ih (by omega) hfits hrest]
      cases terms with
      | nil =>
        simp only [SizeKept, true_iff]
        intro hbare hsep
        exact absurd ⟨hbare, by simp [hsep]⟩ hcut
      | cons t' terms => rfl

theorem SizeUnit.multiplier_pos (u : SizeUnit) : 0 < u.multiplier.toNat := by
  cases u with
  | bytes letters => exact (by decide : 0 < 1)
  | scaled scale i b =>
    rw [multiplier]
    cases scale <;> cases i <;> decide

/-- Terms without bare letters add up. -/
theorem evalTerms_sum (hbare : ∀ t ∈ terms, t.unit.bare = false)
    {nBytes : ℤ} (h0 : 0 ≤ nBytes) (hfits : nBytes + sizeSum terms ≤ maxUint) (left : UInt64) :
    evalTerms nBytes left terms = .ok (nBytes + sizeSum terms) := by
  induction terms generalizing nBytes left with
  | nil => simp [evalTerms, sizeSum]
  | cons t terms ih =>
    obtain ⟨ht, hbare⟩ := List.forall_mem_cons.mp hbare
    have hsum : sizeSum (t :: terms) = t.value + sizeSum terms := by simp [sizeSum]
    rw [hsum, Nat.cast_add] at hfits
    have hnumber : t.number ≤ t.value := Nat.le_mul_of_pos_left _ t.unit.multiplier_pos
    have hvalue := int128_value (t := t) h0 (by omega) (by omega)
    simp only [evalTerms, ht, Bool.false_eq_true, false_and, if_false, hvalue]
    rw [if_neg (by omega), if_neg (by omega), ih hbare (by omega) (by omega), hsum, Nat.cast_add,
      add_assoc]

/-- An accepted text is that of terms. -/
theorem parseSizeLit_ok {lower : List UInt8 → List UInt8} {multiplier : UInt64} {s : List UInt8}
    {size : ℕ} (h : parseSizeLit lower multiplier s = .ok size) :
    ∃ terms ≠ [], lower s = sizeText terms ∧ (size = sizeSum terms ↔ SizeKept multiplier terms) := by
  rw [parseSizeLit] at h
  split at h
  · cases h
  next hne =>
    cases hloop : sizeLoop (lower s).length (lower s) 0 multiplier with
    | error err =>
      rw [hloop] at h
      cases h
    | ok nBytes =>
      rw [hloop] at h
      simp only [Except.map, Except.ok.injEq] at h
      obtain ⟨terms, hterms⟩ := sizeLoop_ok hloop
      refine ⟨terms, ?_, hterms, ?_⟩
      · rintro rfl
        exact hne hterms
      · rw [hterms, sizeLoop_text le_rfl] at hloop
        have hkept := evalTerms_iff le_rfl (by decide) hloop
        rw [← hkept, ← h]
        omega

/-- A text of terms that fit is accepted. -/
theorem parseSizeLit_terms {lower : List UInt8 → List UInt8} (multiplier : UInt64) {s : List UInt8}
    (hne : terms ≠ []) (hterms : lower s = sizeText terms)
    (hbare : ∀ t ∈ terms, t.unit.bare = false) (hfits : sizeSum terms < 2 ^ 64) :
    parseSizeLit lower multiplier s = .ok (sizeSum terms) := by
  have htext : sizeText terms ≠ [] := fun hnil => hne (sizeText_injective hnil)
  have hmax : (0 : ℤ) + sizeSum terms ≤ maxUint := by
    unfold maxUint
    omega
  rw [parseSizeLit, hterms, if_neg htext, sizeLoop_text le_rfl, evalTerms_sum hbare le_rfl hmax]
  simp only [Except.map, zero_add, Except.ok.injEq]
  omega

/-- **Which literals denote what is stored**: every accepted one consists of terms, and it denotes
what is stored unless a letter alone ends it and the multiplier that is left over is another. -/
theorem size_exact_iff {lower : List UInt8 → List UInt8} {multiplier : UInt64} {s : List UInt8}
    {size : ℕ} (h : parseSizeLit lower multiplier s = .ok size) :
    (∃ terms ≠ [], lower s = sizeText terms) ∧
      (SizeDenotes (lower s) size ↔
        ∀ terms, lower s = sizeText terms → SizeKept multiplier terms) := by
  obtain ⟨terms, hne, hterms, hkept⟩ := parseSizeLit_ok h
  refine ⟨⟨terms, hne, hterms⟩, ?_, ?_⟩
  · rintro ⟨terms', -, hterms', hsize⟩ terms'' hterms''
    obtain rfl := sizeText_injective (hterms'.symm.trans hterms)
    obtain rfl := sizeText_injective (hterms''.symm.trans hterms)
    exact hkept.mp hsize
  · intro hall
    exact ⟨terms, hne, hterms, hkept.mpr (hall terms hterms)⟩

theorem size_exact_iff_5kb :
    (∃ terms ≠ [], [53, 107, 98] = sizeText terms) ∧
      (SizeDenotes [53, 107, 98] 5000 ↔
        ∀ terms, [53, 107, 98] = sizeText terms → SizeKept 7 terms) :=
  @size_exact_iff id 7 [53, 107, 98] 5000 (by decide +kernel)

/-- `1mb 5k`. -/
def size1mb5k : List UInt8 := [49, 109, 98, 32, 53, 107]

/-- **`1mb 5k` is stored as six megabytes.** -/
theorem not_size_exact :
    ¬ ∀ (lower : List UInt8 → List UInt8) (multiplier : UInt64) (s : List UInt8) (size : ℕ),
      parseSizeLit lower multiplier s = .ok size → SizeDenotes (lower s) size := by
  intro hall
  obtain ⟨terms, -, hterms, hsize⟩ := hall id 0 size1mb5k 6000000 (by decide +kernel)
  have hsplit : ∃ terms, size1mb5k = sizeText terms ∧ sizeSum terms = 1005000 :=
    ⟨[⟨[49], [], .scaled .m false true, [32], by decide, by simp [isDigitByte], nofun,
        by simp [isSizeSep]⟩,
      ⟨[53], [], .scaled .k false false, [], by decide, by simp [isDigitByte], nofun, nofun⟩],
      by decide, by decide⟩
  obtain ⟨terms', hterms', hsum⟩ := hsplit
  obtain rfl := sizeText_injective (hterms.symm.trans hterms')
  omega

end N00b.Adts
