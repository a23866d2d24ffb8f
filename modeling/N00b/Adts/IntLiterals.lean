import Mathlib

/-!
# Integer literals

numbers.nc: `n00b_raw_int_parse`, `raw_hex_parse` and the parsers of the integer types; size.nc: the
base 10 branch of `size_lit`.

## Representation

* A text is its bytes, up to the 0 that ends it. What is boxed is the integer that the box holds.
* `err` and `code` are never null, so that a character that is no digit ends the parse.
-/

namespace N00b.Adts

/-- The errors of the literal parsers. `singleQuoted` is an exception. -/
inductive LitError where
  | parseInvalidLitChar | parseLitOverflow | parseLitUnderflow | parseLitOddHex | parseLitInvalidNeg
  | invalidSizeLit | singleQuoted
deriving DecidableEq, Repr

/-- `n00b_lit_syntax_t`, as far as the integer types know it. -/
inductive LitSyntax where
  | base10 | singleQuote | hex
deriving DecidableEq, Repr

/-- A `char`, which is signed. -/
def charVal (c : UInt8) : ℤ := if c.toNat < 128 then c.toNat else c.toNat - 256

/-! ## The accumulators -/

/-- The loop of `n00b_raw_int_parse`: the accumulator and the error, which may be one of a character
before. -/
def rawIntLoop : List UInt8 → ℕ → Option LitError → ℕ × Option LitError
  | [], cur, err => (cur, err)
  | c :: rest, last, err =>
    if c = 0 then (last, err)
    else
      let d := charVal c - 48
      if d < 0 ∨ 9 < d then (2 ^ 128 - 1, some .parseInvalidLitChar)
      else
        let cur := (last * 10 % 2 ^ 128 + d.toNat) % 2 ^ 128
        rawIntLoop rest cur (if cur < last then some .parseLitOverflow else err)

/-- `n00b_raw_int_parse`: the value, whether there is a sign, and the error. -/
def rawIntParse (u8 : List UInt8) : ℕ × Bool × Option LitError :=
  if u8.head? = some 45 then
    let (val, err) := rawIntLoop u8.tail 0 none
    (val, true, err)
  else
    let (val, err) := rawIntLoop u8 0 none
    (val, false, err)

/-- The value of a hexadecimal digit. -/
def hexVal (c : UInt8) : Option ℕ :=
  if 48 ≤ c.toNat ∧ c.toNat ≤ 57 then some (c.toNat - 48)
  else if 97 ≤ c.toNat ∧ c.toNat ≤ 102 then some (c.toNat + 10 - 97)
  else if 65 ≤ c.toNat ∧ c.toNat ≤ 70 then some (c.toNat + 10 - 65)
  else none

/-- The loop of `raw_hex_parse`. -/
def rawHexLoop : List UInt8 → ℕ → Bool → Except LitError ℕ
  | [], cur, even => if even then .ok cur else .error .parseLitOddHex
  | c :: rest, cur, even =>
    if c = 0 then if even then .ok cur else .error .parseLitOddHex
    else if 2 ^ 124 ≤ cur then .error .parseLitOverflow
    else match hexVal c with
      | none => .error .parseInvalidLitChar
      | some d => rawHexLoop rest (cur * 16 + d) !even

/-- `raw_hex_parse`. -/
def rawHexParse (u8 : List UInt8) : Except LitError ℕ := rawHexLoop (u8.drop 2) 0 true

/-! ## The parsers -/

/-- `BASE_INT_PARSE`: the value and the sign. -/
def baseIntParse (s : List UInt8) (st : LitSyntax) : Except LitError (ℕ × Bool) :=
  match st with
  | .base10 =>
    match rawIntParse s with
    | (val, neg, none) => .ok (val, neg)
    | (_, _, some err) => .error err
  | .singleQuote => .error .singleQuoted
  | .hex => (rawHexParse s).map fun val => (val, false)

/-- `SIGNED_PARSE`, for a type of so many bits. -/
def signedParse (overflow bits : ℕ) (s : List UInt8) (st : LitSyntax) : Except LitError ℤ :=
  match baseIntParse s st with
  | .error err => .error err
  | .ok (val, true) =>
    if overflow < val then .error .parseLitUnderflow
    else .ok (((2 ^ 128 - val : ℤ) % 2 ^ 128).bmod (2 ^ bits))
  | .ok (val, false) =>
    if st = .base10 ∧ overflow < val then .error .parseLitOverflow
    else .ok ((val : ℤ).bmod (2 ^ bits))

/-- `UNSIGNED_PARSE`, for a type of so many bits. -/
def unsignedParse (overflow bits : ℕ) (s : List UInt8) (st : LitSyntax) : Except LitError ℤ :=
  match baseIntParse s st with
  | .error err => .error err
  | .ok (_, true) => .error .parseLitInvalidNeg
  | .ok (val, false) =>
    if overflow < val then .error .parseLitOverflow else .ok ((val : ℤ) % 2 ^ bits)

/-- `i8_parse`. -/
def i8Parse : List UInt8 → LitSyntax → Except LitError ℤ := signedParse 0x7f 8

/-- `u8_parse`. -/
def u8Parse : List UInt8 → LitSyntax → Except LitError ℤ := unsignedParse 0xff 8

/-- `i32_parse`. -/
def i32Parse : List UInt8 → LitSyntax → Except LitError ℤ := signedParse 0x7fffffff 32

/-- `u32_parse`. -/
def u32Parse : List UInt8 → LitSyntax → Except LitError ℤ := unsignedParse 0xffffffff 32

/-- `i64_parse`. -/
def i64Parse : List UInt8 → LitSyntax → Except LitError ℤ := signedParse 0x7fffffffffffffff 64

/-- `u64_parse`. -/
def u64Parse : List UInt8 → LitSyntax → Except LitError ℤ := unsignedParse 0xffffffffffffffff 64

/-- `n00b_parse_int64`. -/
def parseInt64 (s : List UInt8) : Option ℤ := (i64Parse s .base10).toOption

/-- The base 10 branch of `size_lit`. -/
def sizeLit (s : List UInt8) : Except LitError ℤ :=
  match rawIntParse s with
  | (_, true, _) => .error .invalidSizeLit
  | (_, false, some err) => .error err
  | (v, false, none) => if 2 ^ 64 - 1 < v then .error .parseLitOverflow else .ok (v % 2 ^ 64)

inductive IntType where
  | i8 | u8 | i32 | u32 | i64 | u64 | size
deriving DecidableEq, Repr

def IntType.parse : IntType → List UInt8 → Except LitError ℤ
  | .i8, s => i8Parse s .base10
  | .u8, s => u8Parse s .base10
  | .i32, s => i32Parse s .base10
  | .u32, s => u32Parse s .base10
  | .i64, s => i64Parse s .base10
  | .u64, s => u64Parse s .base10
  | .size, s => sizeLit s

def IntType.values : IntType → Set ℤ
  | .i8 => Set.Ico (-2 ^ 7) (2 ^ 7)
  | .u8 => Set.Ico 0 (2 ^ 8)
  | .i32 => Set.Ico (-2 ^ 31) (2 ^ 31)
  | .u32 => Set.Ico 0 (2 ^ 32)
  | .i64 => Set.Ico (-2 ^ 63) (2 ^ 63)
  | .u64 | .size => Set.Ico 0 (2 ^ 64)

/-! ## Decimal texts -/

def IsDigit (c : UInt8) : Prop := 48 ≤ c.toNat ∧ c.toNat ≤ 57

/-- The number that digits denote behind another number. -/
def decimalFrom (n : ℕ) (digits : List UInt8) : ℕ :=
  digits.foldl (fun n c => 10 * n + (c.toNat - 48)) n

def decimalText (neg : Bool) (digits : List UInt8) : List UInt8 :=
  if neg then 45 :: digits else digits

def denotes (neg : Bool) (digits : List UInt8) : ℤ :=
  if neg then -decimalFrom 0 digits else decimalFrom 0 digits

/-- One turn of the loop takes a digit modulo 2^128 and notes a wrap. -/
theorem rawIntLoop_digit {c : UInt8} (hc : IsDigit c) (rest : List UInt8) (last : ℕ)
    (err : Option LitError) :
    rawIntLoop (c :: rest) last err = rawIntLoop rest ((10 * last + (c.toNat - 48)) % 2 ^ 128)
      (if (10 * last + (c.toNat - 48)) % 2 ^ 128 < last then some .parseLitOverflow else err) := by
  obtain ⟨hlow, hhigh⟩ := hc
  have hzero : c ≠ 0 := by
    rintro rfl
    simp at hlow
  have hval : charVal c = c.toNat := by
    rw [charVal, if_pos (by omega)]
  have hcur : (last * 10 % 2 ^ 128 + (charVal c - 48).toNat) % 2 ^ 128 =
      (10 * last + (c.toNat - 48)) % 2 ^ 128 := by
    rw [hval]
    omega
  rw [rawIntLoop, if_neg hzero]
  simp only [hcur]
  rw [if_neg (by omega)]

/-- Further digits do not make a number smaller. -/
theorem le_decimalFrom (n : ℕ) (digits : List UInt8) : n ≤ decimalFrom n digits := by
  induction digits generalizing n with
  | nil => exact le_rfl
  | cons c digits ih =>
    have h := ih (10 * n + (c.toNat - 48))
    exact le_trans (by omega) h

/-- An error is never taken back. -/
theorem rawIntLoop_err (digits : List UInt8) (last : ℕ) (e : LitError) :
    (rawIntLoop digits last (some e)).2 ≠ none := by
  induction digits generalizing last e with
  | nil => simp [rawIntLoop]
  | cons c digits ih =>
    rw [rawIntLoop]
    split
    next => simp
    next =>
      simp only
      split
      next => simp
      next =>
        split
        next => exact ih _ _
        next => exact ih _ _

section

variable {digits : List UInt8}

variable {err : Option LitError} {last val : ℕ}

/-- A loop without error did not wrap at its first digit. -/
theorem rawIntLoop_cons {c : UInt8} (hc : IsDigit c)
    (h : rawIntLoop (c :: digits) last err = (val, none)) :
    last ≤ (10 * last + (c.toNat - 48)) % 2 ^ 128 ∧
      rawIntLoop digits ((10 * last + (c.toNat - 48)) % 2 ^ 128) err = (val, none) := by
  rw [rawIntLoop_digit hc] at h
  split at h
  next => exact absurd (congrArg Prod.snd h) (rawIntLoop_err _ _ _)
  next hle => exact ⟨Nat.le_of_not_lt hle, h⟩

/-- A loop without error never gets smaller. -/
theorem rawIntLoop_mono (hdigits : ∀ c ∈ digits, IsDigit c)
    (h : rawIntLoop digits last err = (val, none)) : last ≤ val := by
  induction digits generalizing last err with
  | nil =>
    cases h
    exact le_rfl
  | cons c digits ih =>
    obtain ⟨hc, hdigits⟩ := List.forall_mem_cons.mp hdigits
    obtain ⟨hle, hrest⟩ := rawIntLoop_cons hc h
    exact hle.trans (ih hdigits hrest)

/-- A loop without error and with a small result did not wrap at all. -/
theorem rawIntLoop_exact (hdigits : ∀ c ∈ digits, IsDigit c)
    (h : rawIntLoop digits last err = (val, none)) (hsmall : val < 2 ^ 124) :
    val = decimalFrom last digits := by
  induction digits generalizing last err with
  | nil =>
    cases h
    rfl
  | cons c digits ih =>
    have hlast := rawIntLoop_mono hdigits h
    obtain ⟨hc, hdigits⟩ := List.forall_mem_cons.mp hdigits
    obtain ⟨-, hrest⟩ := rawIntLoop_cons hc h
    have hfits : (10 * last + (c.toNat - 48)) % 2 ^ 128 = 10 * last + (c.toNat - 48) := by
      have hhigh := hc.2
      exact Nat.mod_eq_of_lt (by omega)
    rw [hfits] at hrest
    exact ih hdigits hrest

/-- Digits whose number fits 128 bits are read as it. -/
theorem rawIntLoop_decimal (hdigits : ∀ c ∈ digits, IsDigit c) {last : ℕ}
    (hfits : decimalFrom last digits < 2 ^ 128) :
    rawIntLoop digits last none = (decimalFrom last digits, none) := by
  induction digits generalizing last with
  | nil => rfl
  | cons c digits ih =>
    obtain ⟨hc, hdigits⟩ := List.forall_mem_cons.mp hdigits
    have hle : 10 * last + (c.toNat - 48) ≤ decimalFrom last (c :: digits) :=
      le_decimalFrom _ digits
    have hmod : (10 * last + (c.toNat - 48)) % 2 ^ 128 = 10 * last + (c.toNat - 48) :=
      Nat.mod_eq_of_lt (by omega)
    rw [rawIntLoop_digit hc, hmod, if_neg (by omega)]
    exact ih hdigits hfits

/-! ## Parsing decimal texts -/

/-- The sign is read before the digits. -/
theorem rawIntParse_decimal (hdigits : ∀ c ∈ digits, IsDigit c) (neg : Bool) :
    rawIntParse (decimalText neg digits) =
      ((rawIntLoop digits 0 none).1, neg, (rawIntLoop digits 0 none).2) := by
  rw [rawIntParse]
  cases neg with
  | true => rfl
  | false =>
    have hhead : digits.head? ≠ some 45 := by
      intro hhead
      have hlow := (hdigits 45 (List.mem_of_head? hhead)).1
      simp at hlow
    have htext : decimalText false digits = digits := rfl
    rw [htext, if_neg hhead]

/-- A small number read in base 10 is the number written. -/
theorem baseIntParse_exact (hdigits : ∀ c ∈ digits, IsDigit c) {neg neg' : Bool} {val : ℕ}
    (h : baseIntParse (decimalText neg digits) .base10 = .ok (val, neg')) :
    neg' = neg ∧ (val < 2 ^ 124 → val = decimalFrom 0 digits) := by
  simp only [baseIntParse, rawIntParse_decimal hdigits] at h
  cases hloop : rawIntLoop digits 0 none with
  | mk v err =>
    rw [hloop] at h
    cases err with
    | some e => cases h
    | none =>
      cases h
      exact ⟨rfl, rawIntLoop_exact hdigits hloop⟩

/-- A number within its limits is boxed as it is. -/
theorem box_of_small {bits : ℕ} {x : ℤ} {overflow : ℕ} (hbits : 2 * overflow < 2 ^ bits)
    (hlow : -overflow ≤ x) (hhigh : x ≤ overflow) : x.bmod (2 ^ bits) = x := by
  have hcast : (2 * overflow : ℤ) < ((2 ^ bits : ℕ) : ℤ) := by exact_mod_cast hbits
  exact Int.bmod_eq_of_le_mul_two (by omega) (by omega)

/-- A negative number within its limits is boxed as it is. -/
theorem box_neg {bits val overflow : ℕ} (hbits : 2 * overflow < 2 ^ bits) (hle : bits ≤ 128)
    (hval : val ≤ overflow) : ((2 ^ 128 - val : ℤ) % 2 ^ 128).bmod (2 ^ bits) = -(val : ℤ) := by
  have hdvd : ((2 ^ bits : ℕ) : ℤ) ∣ (2 ^ 128 - val : ℤ) % 2 ^ 128 - -(val : ℤ) := by
    have hpow : ((2 ^ bits : ℕ) : ℤ) ∣ 2 ^ 128 := by exact_mod_cast pow_dvd_pow 2 hle
    refine hpow.trans (Int.dvd_of_emod_eq_zero ?_)
    omega
  rw [Int.bmod_eq_bmod_iff_bmod_sub_eq_zero.mpr (Int.bmod_eq_zero_of_dvd hdvd)]
  exact box_of_small hbits (by omega) (by omega)

variable {overflow bits : ℕ} {neg : Bool}

/-- A signed literal that is accepted denotes its value. -/
theorem signedParse_exact (hdigits : ∀ c ∈ digits, IsDigit c)
    {v : ℤ} (hbits : 2 * overflow < 2 ^ bits) (hle : bits ≤ 128) (hsize : overflow < 2 ^ 124)
    (h : signedParse overflow bits (decimalText neg digits) .base10 = .ok v) :
    v = denotes neg digits ∧ -(overflow : ℤ) ≤ v ∧ v ≤ overflow := by
  rw [signedParse] at h
  cases hbase : baseIntParse (decimalText neg digits) .base10 with
  | error err =>
    rw [hbase] at h
    cases h
  | ok r =>
    obtain ⟨val, neg'⟩ := r
    obtain ⟨rfl, hexact⟩ := baseIntParse_exact hdigits hbase
    rw [hbase] at h
    cases neg' with
    | true =>
      simp only at h
      split at h
      next => cases h
      next hsmall =>
        have hval := hexact (by omega)
        cases h
        rw [box_neg hbits hle (not_lt.mp hsmall), denotes, if_pos rfl, ← hval]
        omega
    | false =>
      simp only [true_and] at h
      split at h
      next => cases h
      next hsmall =>
        have hval := hexact (by omega)
        cases h
        rw [box_of_small hbits (by omega) (by omega), denotes, if_neg nofun, ← hval]
        omega

/-- An unsigned literal that is accepted denotes its value. -/
theorem unsignedParse_exact (hdigits : ∀ c ∈ digits, IsDigit c)
    {v : ℤ} (hbits : overflow < 2 ^ bits) (hsize : overflow < 2 ^ 124)
    (h : unsignedParse overflow bits (decimalText neg digits) .base10 = .ok v) :
    v = denotes neg digits ∧ 0 ≤ v ∧ v ≤ overflow := by
  rw [unsignedParse] at h
  cases hbase : baseIntParse (decimalText neg digits) .base10 with
  | error err =>
    rw [hbase] at h
    cases h
  | ok r =>
    obtain ⟨val, neg'⟩ := r
    obtain ⟨rfl, hexact⟩ := baseIntParse_exact hdigits hbase
    rw [hbase] at h
    cases neg' with
    | true => cases h
    | false =>
      simp only at h
      split at h
      next => cases h
      next hsmall =>
        have hval := hexact (by omega)
        cases h
        have hbox : (val : ℤ) % 2 ^ bits = val := by
          refine Int.emod_eq_of_lt (by omega) ?_
          exact_mod_cast (not_lt.mp hsmall).trans_lt hbits
        rw [hbox, denotes, if_neg nofun, ← hval]
        omega

/-- A size literal of digits that is accepted denotes its value. -/
theorem sizeLit_exact (hdigits : ∀ c ∈ digits, IsDigit c) {v : ℤ}
    (h : sizeLit (decimalText neg digits) = .ok v) :
    v = denotes neg digits ∧ 0 ≤ v ∧ v < 2 ^ 64 := by
  simp only [sizeLit, rawIntParse_decimal hdigits] at h
  cases neg with
  | true => cases h
  | false =>
    cases hloop : rawIntLoop digits 0 none with
    | mk val err =>
      rw [hloop] at h
      cases err with
      | some e => cases h
      | none =>
        simp only at h
        split at h
        next => cases h
        next hsmall =>
          have hval := rawIntLoop_exact hdigits hloop (by omega)
          cases h
          rw [denotes, if_neg nofun, ← hval]
          omega

/-! ## Texts that are parsed -/

/-- Digits whose number fits 128 bits are read in base 10. -/
theorem baseIntParse_decimal (hdigits : ∀ c ∈ digits, IsDigit c) (neg : Bool)
    (hfits : decimalFrom 0 digits < 2 ^ 128) :
    baseIntParse (decimalText neg digits) .base10 = .ok (decimalFrom 0 digits, neg) := by
  simp only [baseIntParse, rawIntParse_decimal hdigits, rawIntLoop_decimal hdigits hfits]

/-- A signed literal within its limits is accepted with its value. -/
theorem signedParse_decimal (hdigits : ∀ c ∈ digits, IsDigit c) (neg : Bool)
    (hbits : 2 * overflow < 2 ^ bits) (hle : bits ≤ 128) (hfits : decimalFrom 0 digits < 2 ^ 128)
    (hval : decimalFrom 0 digits ≤ overflow) :
    signedParse overflow bits (decimalText neg digits) .base10 = .ok (denotes neg digits) := by
  rw [signedParse, baseIntParse_decimal hdigits neg hfits]
  cases neg with
  | true =>
    simp only
    rw [if_neg (by omega), box_neg hbits hle hval, denotes, if_pos rfl]
  | false =>
    simp only [true_and]
    rw [if_neg (by omega), box_of_small hbits (by omega) (by omega), denotes, if_neg nofun]

/-- A signed literal beyond its limits is refused. -/
theorem signedParse_overflow (hdigits : ∀ c ∈ digits, IsDigit c) (neg : Bool)
    (hfits : decimalFrom 0 digits < 2 ^ 128) (hval : overflow < decimalFrom 0 digits) (v : ℤ) :
    signedParse overflow bits (decimalText neg digits) .base10 ≠ .ok v := by
  rw [signedParse, baseIntParse_decimal hdigits neg hfits]
  cases neg <;> simp [hval]

/-- An unsigned literal within its limits is accepted with its value. -/
theorem unsignedParse_decimal (hdigits : ∀ c ∈ digits, IsDigit c)
    (hbits : overflow < 2 ^ bits) (hfits : decimalFrom 0 digits < 2 ^ 128)
    (hval : decimalFrom 0 digits ≤ overflow) :
    unsignedParse overflow bits digits .base10 = .ok (decimalFrom 0 digits) := by
  have hbase : baseIntParse digits .base10 = _ := baseIntParse_decimal hdigits false hfits
  have hbox : (decimalFrom 0 digits : ℤ) % 2 ^ bits = decimalFrom 0 digits := by
    refine Int.emod_eq_of_lt (by omega) ?_
    exact_mod_cast hval.trans_lt hbits
  rw [unsignedParse, hbase]
  simp only
  rw [if_neg (by omega), hbox]

/-- A byte below the digits is an error. -/
theorem rawIntLoop_below {text : List UInt8} (hzero : ∀ c ∈ text, 0 < c.toNat)
    (hbelow : ∃ c ∈ text, c.toNat < 48) (last : ℕ) (err : Option LitError) :
    (rawIntLoop text last err).2 ≠ none := by
  induction text generalizing last err with
  | nil =>
    obtain ⟨c, hc, -⟩ := hbelow
    exact absurd hc List.not_mem_nil
  | cons c text ih =>
    obtain ⟨hc, hzero⟩ := List.forall_mem_cons.mp hzero
    have hne : c ≠ 0 := by
      rintro rfl
      simp at hc
    rw [rawIntLoop, if_neg hne]
    simp only
    split
    next => simp
    next hdigit =>
      refine ih hzero ?_ _ _
      obtain ⟨b, hb, hlow⟩ := hbelow
      rcases List.mem_cons.mp hb with rfl | hb
      · rw [charVal, if_pos (by omega)] at hdigit
        omega
      · exact ⟨b, hb, hlow⟩

/-- **No decimal literal is silently wrapped.** What is parsed without an error is what the text
denotes, and so it is a value of the type. -/
theorem parse_exact (type : IntType) (neg : Bool) (hdigits : ∀ c ∈ digits, IsDigit c) {v : ℤ}
    (h : type.parse (decimalText neg digits) = .ok v) :
    v = denotes neg digits ∧ v ∈ type.values := by
  cases type with
  | i8 =>
    obtain ⟨hv, hlow, hhigh⟩ := signedParse_exact hdigits (by decide) (by decide) (by decide) h
    exact ⟨hv, by omega, by omega⟩
  | i32 =>
    obtain ⟨hv, hlow, hhigh⟩ := signedParse_exact hdigits (by decide) (by decide) (by decide) h
    exact ⟨hv, by omega, by omega⟩
  | i64 =>
    obtain ⟨hv, hlow, hhigh⟩ := signedParse_exact hdigits (by decide) (by decide) (by decide) h
    exact ⟨hv, by omega, by omega⟩
  | u8 =>
    obtain ⟨hv, hlow, hhigh⟩ := unsignedParse_exact hdigits (by decide) (by decide) h
    exact ⟨hv, by omega, by omega⟩
  | u32 =>
    obtain ⟨hv, hlow, hhigh⟩ := unsignedParse_exact hdigits (by decide) (by decide) h
    exact ⟨hv, by omega, by omega⟩
  | u64 =>
    obtain ⟨hv, hlow, hhigh⟩ := unsignedParse_exact hdigits (by decide) (by decide) h
    exact ⟨hv, by omega, by omega⟩
  | size =>
    obtain ⟨hv, hlow, hhigh⟩ := sizeLit_exact hdigits h
    exact ⟨hv, by omega, by omega⟩

end

theorem parse_exact_minus_127 :
    IntType.i8.parse (decimalText true [49, 50, 55]) = .ok (-127) ∧
      (-127 = denotes true [49, 50, 55] ∧ -127 ∈ IntType.i8.values) := by
  have hparse : IntType.i8.parse (decimalText true [49, 50, 55]) = .ok (-127) := by decide
  have hdigits : ∀ c ∈ ([49, 50, 55] : List UInt8), IsDigit c := by simp [IsDigit]
  exact ⟨hparse, parse_exact .i8 true hdigits hparse⟩

end N00b.Adts
