import N00b.Adts.IntLiterals

/-!
# Printing integers

fmt_numbers.nc: `n00b_fmt_int` and `n00b_fmt_uint`; string.nc: `n00b_string_from_int`.

## Representation

* A text is its bytes. It has no result when it does not fit in the local buffer.
* `commas` is off. It would change nothing: `digits` is never counted up.
-/

namespace N00b.Text

open N00b.Adts

/-! ## The printers -/

/-- The loop of `n00b_fmt_int` and of `n00b_fmt_uint`, with so many bytes of the buffer left. -/
def fmtLoop : ℕ → ℕ → List UInt8 → Option (ℕ × List UInt8)
  | 0, value, repr => if value = 0 then some (0, repr) else none
  | n + 1, value, repr =>
    if value = 0 then some (n + 1, repr)
    else fmtLoop n (value / 10) (UInt8.ofNat (value % 10 + 48) :: repr)

/-- A sign in front of a text, with so many bytes of the buffer left. -/
def withSign (sign : Bool) : ℕ × List UInt8 → Option (List UInt8)
  | (0, repr) => if sign then none else some repr
  | (_ + 1, repr) => some (if sign then 45 :: repr else repr)

/-- `n00b_fmt_int`. -/
def fmtInt (value : ℤ) : Option (List UInt8) :=
  if value = 0 then some [48] else (fmtLoop 99 value.natAbs []).bind (withSign (value < 0))

/-- `n00b_fmt_uint`. -/
def fmtUint (value : ℕ) : Option (List UInt8) :=
  if value = 0 then some [48] else (fmtLoop 99 value []).bind (withSign false)

/-- The loop of `n00b_string_from_int`. -/
def stringLoop : ℕ → ℤ → List UInt8 → Option (ℕ × List UInt8)
  | 0, i, p => if i = 0 then some (0, p) else none
  | n + 1, i, p =>
    if i = 0 then some (n + 1, p)
    else stringLoop n (i.tdiv 10) (UInt8.ofNat (48 + i.tmod 10).toNat :: p)

/-- `n00b_string_from_int`. -/
def stringFromInt (n : ℤ) : Option (List UInt8) :=
  if n = 0 then some [48] else (stringLoop 20 n []).bind (withSign (n < 0))

/-! ## What they print -/

theorem decimalFrom_concat (n : ℕ) (digits : List UInt8) (c : UInt8) :
    decimalFrom n (digits ++ [c]) = 10 * decimalFrom n digits + (c.toNat - 48) := by
  rw [decimalFrom, List.foldl_append]
  rfl

theorem fmtLoop_spec {n j value : ℕ} (hj : j ≤ n) (hvalue : value < 10 ^ j) (repr : List UInt8) :
    ∃ k digits, fmtLoop n value repr = some (k, digits ++ repr) ∧ n - j ≤ k ∧
      (∀ c ∈ digits, IsDigit c) ∧ decimalFrom 0 digits = value := by
  induction j generalizing n value repr with
  | zero =>
    obtain rfl : value = 0 := by simpa using hvalue
    refine ⟨n, [], ?_, le_rfl, nofun, rfl⟩
    cases n <;> simp [fmtLoop]
  | succ j ih =>
    obtain ⟨n, rfl⟩ := Nat.exists_eq_succ_of_ne_zero (Nat.ne_zero_of_lt hj)
    rw [fmtLoop]
    split
    next hzero => exact ⟨n + 1, [], rfl, by omega, nofun, hzero.symm⟩
    next hzero =>
      have hdigit : (UInt8.ofNat (value % 10 + 48)).toNat = value % 10 + 48 := by
        rw [UInt8.toNat_ofNat']
        omega
      have hdiv : value / 10 < 10 ^ j := by
        rw [Nat.div_lt_iff_lt_mul (by omega), ← pow_succ]
        exact hvalue
      obtain ⟨k, digits, hloop, hk, hdigits, hval⟩ :=
        ih (Nat.le_of_succ_le_succ hj) hdiv (UInt8.ofNat (value % 10 + 48) :: repr)
      refine ⟨k, digits ++ [UInt8.ofNat (value % 10 + 48)], by simpa using hloop, by omega, ?_, ?_⟩
      · intro c hc
        rcases List.mem_append.mp hc with hc | hc
        · exact hdigits c hc
        · rw [List.mem_singleton.mp hc]
          exact ⟨by omega, by omega⟩
      · rw [decimalFrom_concat, hval, hdigit]
        omega

theorem fmtInt_spec {v : ℤ} (hv : v.natAbs < 10 ^ 20) :
    ∃ digits, fmtInt v = some (decimalText (v < 0) digits) ∧ (∀ c ∈ digits, IsDigit c) ∧
      decimalFrom 0 digits = v.natAbs := by
  rw [fmtInt]
  split
  next hzero =>
    subst hzero
    exact ⟨[48], rfl, by simp [IsDigit], rfl⟩
  next =>
    obtain ⟨k, digits, hloop, hk, hdigits, hval⟩ := fmtLoop_spec (show 20 ≤ 99 by decide) hv []
    obtain ⟨k, rfl⟩ := Nat.exists_eq_succ_of_ne_zero (show k ≠ 0 by omega)
    refine ⟨digits, ?_, hdigits, hval⟩
    rw [hloop, List.append_nil, Option.bind_some]
    rfl

theorem natCast_not_neg (n : ℕ) : ¬ (n : ℤ) < 0 := by omega

theorem fmtInt_natCast (value : ℕ) : fmtInt value = fmtUint value := by
  simp [fmtInt, fmtUint, natCast_not_neg]

theorem fmtUint_spec {v : ℕ} (hv : v < 10 ^ 20) :
    ∃ digits, fmtUint v = some digits ∧ (∀ c ∈ digits, IsDigit c) ∧ decimalFrom 0 digits = v := by
  simpa [fmtInt_natCast, natCast_not_neg, decimalText] using @fmtInt_spec v hv

theorem stringLoop_natCast (n value : ℕ) (p : List UInt8) :
    stringLoop n value p = fmtLoop n value p := by
  induction n generalizing value p with
  | zero => simp [stringLoop, fmtLoop]
  | succ n ih =>
    have hmod : (48 + (value : ℤ).tmod 10).toNat = value % 10 + 48 := by
      rw [Int.tmod_eq_emod_of_nonneg (by omega)]
      omega
    have hdiv : (value : ℤ).tdiv 10 = (value / 10 : ℕ) := by
      rw [Int.tdiv_eq_ediv_of_nonneg (by omega)]
      omega
    rw [stringLoop, fmtLoop, hmod, hdiv, ih]
    simp

theorem stringFromInt_spec {v : ℕ} (hv : v < 10 ^ 20) :
    ∃ digits, stringFromInt v = some digits ∧ (∀ c ∈ digits, IsDigit c) ∧
      decimalFrom 0 digits = v := by
  rw [stringFromInt]
  split
  next hzero =>
    obtain rfl : v = 0 := by omega
    exact ⟨[48], rfl, by simp [IsDigit], rfl⟩
  next =>
    obtain ⟨k, digits, hloop, -, hdigits, hval⟩ := fmtLoop_spec (le_refl 20) hv []
    refine ⟨digits, ?_, hdigits, hval⟩
    have hsign : decide ((v : ℤ) < 0) = false := by simp
    rw [stringLoop_natCast, hloop, List.append_nil, Option.bind_some, hsign]
    cases k <;> rfl

theorem stringLoop_neg {n k m : ℕ} {p q : List UInt8} (hm : 0 < m) (hp : ∀ c ∈ p, 0 < c.toNat)
    (h : stringLoop n (-m) p = some (k, q)) :
    (∀ c ∈ q, 0 < c.toNat) ∧ ∃ c ∈ q, c.toNat < 48 := by
  induction n generalizing m p with
  | zero => simp [stringLoop, hm.ne'] at h
  | succ n ih =>
    have hmod : (-(m : ℤ)).tmod 10 = -(m % 10 : ℕ) := by
      rw [Int.neg_tmod, Int.tmod_eq_emod_of_nonneg (by omega)]
      omega
    have hdiv : (-(m : ℤ)).tdiv 10 = -(m / 10 : ℕ) := by
      rw [Int.neg_tdiv, Int.tdiv_eq_ediv_of_nonneg (by omega)]
      omega
    rw [stringLoop, if_neg (by omega), hmod, hdiv] at h
    have hval : (UInt8.ofNat (48 + -((m % 10 : ℕ) : ℤ)).toNat).toNat = 48 - m % 10 := by
      rw [UInt8.toNat_ofNat']
      omega
    generalize UInt8.ofNat (48 + -((m % 10 : ℕ) : ℤ)).toNat = c at h hval
    have hp' : ∀ d ∈ c :: p, 0 < d.toNat := List.forall_mem_cons.mpr ⟨by omega, hp⟩
    rcases Nat.eq_zero_or_pos (m / 10) with hzero | hpos
    · have hlast : stringLoop n (-(m / 10 : ℕ)) (c :: p) = some (n, c :: p) := by
        rw [hzero]
        cases n <;> rfl
      rw [hlast] at h
      cases h
      exact ⟨hp', c, List.mem_cons_self, by omega⟩
    · exact ih hpos hp' h

/-! ## Printing and parsing -/

theorem parseInt64_decimal (neg : Bool) {digits : List UInt8} (hdigits : ∀ c ∈ digits, IsDigit c)
    (hval : decimalFrom 0 digits < 2 ^ 63) :
    parseInt64 (decimalText neg digits) = some (denotes neg digits) := by
  rw [parseInt64, i64Parse, signedParse_decimal hdigits neg (by decide) (by decide) (by omega)
    (by omega)]
  rfl

theorem parseInt64_overflow {neg : Bool} {digits : List UInt8}
    (hdigits : ∀ c ∈ digits, IsDigit c) (hval : decimalFrom 0 digits = 2 ^ 63) (v : ℤ) :
    parseInt64 (decimalText neg digits) ≠ some v := by
  intro h
  rw [parseInt64, i64Parse] at h
  cases hparse : signedParse 0x7fffffffffffffff 64 (decimalText neg digits) .base10 with
  | error err =>
    rw [hparse] at h
    cases h
  | ok v' => exact signedParse_overflow hdigits neg (by omega) (by omega) v' hparse

theorem stringFromInt_neg {m : ℕ} (hm : 0 < m) (v : ℤ) :
    (stringFromInt (-m)).bind parseInt64 ≠ some v := by
  intro h
  obtain ⟨text, htext, hparse⟩ := Option.bind_eq_some_iff.mp h
  rw [stringFromInt, if_neg (by omega)] at htext
  obtain ⟨⟨k, q⟩, hloop, hsign⟩ := Option.bind_eq_some_iff.mp htext
  obtain ⟨hzero, hbelow⟩ := stringLoop_neg hm (fun c hc => absurd hc List.not_mem_nil) hloop
  have hneg : decide (-(m : ℤ) < 0) = true := by simpa using hm
  rw [hneg] at hsign
  obtain rfl : 45 :: q = text := by
    cases k with
    | zero => cases hsign
    | succ k => exact Option.some.inj hsign
  obtain ⟨err, herr⟩ := Option.ne_none_iff_exists'.mp (rawIntLoop_below hzero hbelow 0 none)
  have hbase : baseIntParse (45 :: q) .base10 = .error err := by
    simp [baseIntParse, rawIntParse, herr]
  simp [parseInt64, i64Parse, signedParse, hbase, Except.toOption] at hparse

/-- **Which integers are parsed back**: all but the least one, as `n00b_fmt_int` prints them, and
those that are not negative, as `n00b_string_from_int` does. -/
theorem print_parse_iff {v : ℤ} (hlow : -2 ^ 63 ≤ v) (hhigh : v < 2 ^ 63) :
    ((fmtInt v).bind parseInt64 = some v ↔ v ≠ -2 ^ 63) ∧
      ((stringFromInt v).bind parseInt64 = some v ↔ 0 ≤ v) ∧
      ∀ u : ℕ, u < 2 ^ 64 →
        (fmtUint u).map (fun text => u64Parse text .base10) = some (.ok (u : ℤ)) := by
  refine ⟨?_, ?_, fun u hu => ?_⟩
  · obtain ⟨digits, hfmt, hdigits, hval⟩ := fmtInt_spec (show v.natAbs < 10 ^ 20 by omega)
    rw [hfmt, Option.bind_some]
    constructor
    · rintro hparse rfl
      exact parseInt64_overflow hdigits (by omega) _ hparse
    · intro hne
      rw [parseInt64_decimal _ hdigits (by omega), denotes, hval, Option.some.injEq]
      by_cases hv : v < 0
      · rw [if_pos (by simpa using hv)]
        omega
      · rw [if_neg (by simpa using hv)]
        omega
  · constructor
    · intro hparse
      by_contra hv
      obtain ⟨m, hm⟩ := Int.eq_ofNat_of_zero_le (show 0 ≤ -v by omega)
      obtain rfl : v = -m := by omega
      exact stringFromInt_neg (by omega) _ hparse
    · intro hv
      obtain ⟨n, rfl⟩ := Int.eq_ofNat_of_zero_le hv
      obtain ⟨digits, hfmt, hdigits, hval⟩ := stringFromInt_spec (show n < 10 ^ 20 by omega)
      have hparse : parseInt64 digits = _ := parseInt64_decimal false hdigits (by omega)
      rw [hfmt, Option.bind_some, hparse, denotes, if_neg Bool.false_ne_true, hval]
  · obtain ⟨digits, hfmt, hdigits, hval⟩ := fmtUint_spec (show u < 10 ^ 20 by omega)
    rw [hfmt, Option.map_some, u64Parse,
      unsignedParse_decimal hdigits (by decide) (by omega) (by omega), hval]

theorem print_parse_iff_min_succ :
    ((fmtInt (-2 ^ 63 + 1)).bind parseInt64 = some (-2 ^ 63 + 1) ↔
        (-2 ^ 63 + 1 : ℤ) ≠ -2 ^ 63) ∧
      ((stringFromInt (-2 ^ 63 + 1)).bind parseInt64 = some (-2 ^ 63 + 1) ↔
        (0 : ℤ) ≤ -2 ^ 63 + 1) ∧
      ∀ u : ℕ, u < 2 ^ 64 →
        (fmtUint u).map (fun text => u64Parse text .base10) = some (.ok (u : ℤ)) :=
  print_parse_iff (by decide) (by decide)

/-- **The least integer is not parsed back.** -/
theorem not_print_parse :
    ¬ ((∀ v : ℤ, -2 ^ 63 ≤ v → v < 2 ^ 63 → (fmtInt v).bind parseInt64 = some v ∧
        (stringFromInt v).bind parseInt64 = some v) ∧
      ∀ u : ℕ, u < 2 ^ 64 →
        (fmtUint u).map (fun text => u64Parse text .base10) = some (.ok (u : ℤ))) := by
  rintro ⟨hall, -⟩
  have hmin : (fmtInt (-2 ^ 63)).bind parseInt64 = none := by decide
  have hparse := (hall (-2 ^ 63) (by decide) (by decide)).1
  rw [hmin] at hparse
  cases hparse

end N00b.Text
