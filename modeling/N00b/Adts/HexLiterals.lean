import N00b.Adts.IntLiterals

/-!
# Hexadecimal literals

numbers.nc: what the parsers of the integer types make of `raw_hex_parse`.
-/

namespace N00b.Adts

/-- The types whose literals may be hexadecimal. -/
inductive HexType where
  | i8 | u8 | i32 | u32 | i64 | u64
deriving DecidableEq, Repr

namespace HexType

def parse : HexType → List UInt8 → Except LitError ℤ
  | i8, s => i8Parse s .hex
  | u8, s => u8Parse s .hex
  | i32, s => i32Parse s .hex
  | u32, s => u32Parse s .hex
  | i64, s => i64Parse s .hex
  | u64, s => u64Parse s .hex

def bits : HexType → ℕ
  | i8 | u8 => 8
  | i32 | u32 => 32
  | i64 | u64 => 64

def signed : HexType → Bool
  | i8 | i32 | i64 => true
  | u8 | u32 | u64 => false

end HexType

/-- The digits of a literal: what is behind the `0x`, up to the 0 that ends the text. -/
def hexDigits (s : List UInt8) : List UInt8 := (s.drop 2).takeWhile (· ≠ 0)

/-- The number that hexadecimal digits denote behind another number. -/
def hexFrom (n : ℕ) (digits : List UInt8) : ℕ :=
  digits.foldl (fun n c => 16 * n + (hexVal c).getD 0) n

/-- Digits without the zeros in front. -/
def significant (digits : List UInt8) : List UInt8 := digits.dropWhile (· = 48)

/-! ## The digits -/

theorem hexVal_lt {c : UInt8} {d : ℕ} (h : hexVal c = some d) : d < 16 := by
  unfold hexVal at h
  split at h
  · cases h
    omega
  · split at h
    · cases h
      omega
    · split at h
      · cases h
        omega
      · cases h

theorem hexVal_eq_zero {c : UInt8} : hexVal c = some 0 ↔ c = 48 := by
  constructor
  · intro h
    unfold hexVal at h
    rw [← UInt8.toNat_inj]
    split at h
    · have hval := Option.some.inj h
      simp only [UInt8.reduceToNat]
      omega
    · split at h
      · have hval := Option.some.inj h
        omega
      · split at h
        · have hval := Option.some.inj h
          omega
        · cases h
  · rintro rfl
    rfl

variable {s : List UInt8}

theorem rawHexLoop_exact {cur val : ℕ} {even : Bool}
    (h : rawHexLoop s cur even = .ok val) :
    val = hexFrom cur (s.takeWhile (· ≠ 0)) ∧ ∀ c ∈ s.takeWhile (· ≠ 0), (hexVal c).isSome := by
  induction s generalizing cur even with
  | nil =>
    rw [rawHexLoop] at h
    split at h
    · cases h
      exact ⟨rfl, nofun⟩
    · cases h
  | cons c rest ih =>
    rw [rawHexLoop] at h
    split at h
    next hzero =>
      split at h
      · cases h
        subst hzero
        exact ⟨rfl, nofun⟩
      · cases h
    next hzero =>
      have htake : (c :: rest).takeWhile (· ≠ 0) = c :: rest.takeWhile (· ≠ 0) := by
        simp [hzero]
      split at h
      · cases h
      · split at h
        · cases h
        next d hd =>
          obtain ⟨hval, hall⟩ := ih h
          rw [htake]
          refine ⟨?_, List.forall_mem_cons.mpr ⟨by rw [hd]; rfl, hall⟩⟩
          rw [hval, hexFrom, hexFrom, List.foldl_cons, hd, Option.getD_some, Nat.mul_comm]

theorem hexFrom_bounds {digits : List UInt8} (hdigits : ∀ c ∈ digits, (hexVal c).isSome) (n : ℕ) :
    n * 16 ^ digits.length ≤ hexFrom n digits ∧
      hexFrom n digits < (n + 1) * 16 ^ digits.length := by
  induction digits generalizing n with
  | nil => simp [hexFrom]
  | cons c digits ih =>
    obtain ⟨hc, hrest⟩ := List.forall_mem_cons.mp hdigits
    obtain ⟨d, hd⟩ := Option.isSome_iff_exists.mp hc
    have hlt := hexVal_lt hd
    have hstep : hexFrom n (c :: digits) = hexFrom (16 * n + d) digits := by
      rw [hexFrom, List.foldl_cons, hd]
      rfl
    obtain ⟨hlow, hhigh⟩ := ih hrest (16 * n + d)
    rw [hstep, List.length_cons, pow_succ]
    constructor
    · calc n * (16 ^ digits.length * 16)
          = 16 * n * 16 ^ digits.length := by ring
        _ ≤ (16 * n + d) * 16 ^ digits.length := Nat.mul_le_mul_right _ (by omega)
        _ ≤ hexFrom (16 * n + d) digits := hlow
    · calc hexFrom (16 * n + d) digits
          < (16 * n + d + 1) * 16 ^ digits.length := hhigh
        _ ≤ 16 * (n + 1) * 16 ^ digits.length := Nat.mul_le_mul_right _ (by omega)
        _ = (n + 1) * (16 ^ digits.length * 16) := by ring

theorem hexFrom_significant (digits : List UInt8) :
    hexFrom 0 digits = hexFrom 0 (significant digits) := by
  induction digits with
  | nil => rfl
  | cons c digits ih =>
    by_cases hc : c = 48
    · subst hc
      have hsig : significant (48 :: digits) = significant digits := by simp [significant]
      rw [hsig, ← ih]
      rfl
    · have hsig : significant (c :: digits) = c :: digits := by simp [significant, hc]
      rw [hsig]

theorem hexFrom_lt_iff {digits : List UInt8} (hdigits : ∀ c ∈ digits, (hexVal c).isSome) (k : ℕ) :
    hexFrom 0 digits < 16 ^ k ↔ (significant digits).length ≤ k := by
  have hsig : ∀ c ∈ significant digits, (hexVal c).isSome := fun c hc =>
    hdigits c ((List.dropWhile_sublist _).mem hc)
  rw [hexFrom_significant]
  constructor
  · intro hlt
    by_contra hlen
    rcases hdrop : significant digits with _ | ⟨c, rest⟩
    · simp [hdrop] at hlen
    · -- the first digit is not zero, so that each of the others has a place
      rw [hdrop] at hlt hlen hsig
      obtain ⟨hc, hrest⟩ := List.forall_mem_cons.mp hsig
      obtain ⟨d, hd⟩ := Option.isSome_iff_exists.mp hc
      have hne : c ≠ 48 := by
        have hhead := List.head?_dropWhile_not (· = 48) digits
        rw [show digits.dropWhile (· = 48) = c :: rest from hdrop] at hhead
        simpa using hhead
      have hpos : 1 ≤ d := by
        rcases Nat.eq_zero_or_pos d with rfl | hpos
        · exact absurd (hexVal_eq_zero.mp hd) hne
        · exact hpos
      have hstep : hexFrom 0 (c :: rest) = hexFrom d rest := by
        simp [hexFrom, hd]
      have hlow := (hexFrom_bounds hrest d).1
      have hpow : 16 ^ k ≤ 16 ^ rest.length := by
        refine Nat.pow_le_pow_right (by decide) ?_
        simp only [List.length_cons] at hlen
        omega
      have hmul : 16 ^ rest.length ≤ d * 16 ^ rest.length := Nat.le_mul_of_pos_left _ hpos
      omega
  · intro hlen
    have hhigh := (hexFrom_bounds hsig 0).2
    have hpow : 16 ^ (significant digits).length ≤ 16 ^ k := Nat.pow_le_pow_right (by decide) hlen
    omega

/-! ## The parsers -/

theorem signedParse_hex {overflow bits : ℕ} {v : ℤ}
    (h : signedParse overflow bits s .hex = .ok v) :
    ∃ val, rawHexParse s = .ok val ∧ v % 2 ^ bits = (val : ℤ) % 2 ^ bits := by
  cases hraw : rawHexParse s with
  | error err => simp [signedParse, baseIntParse, hraw, Except.map] at h
  | ok val =>
    simp only [signedParse, baseIntParse, hraw, Except.map, reduceCtorEq, false_and, if_false,
      Except.ok.injEq] at h
    refine ⟨val, rfl, ?_⟩
    have hmod := Int.bmod_emod (x := val) (m := 2 ^ bits)
    rw [h] at hmod
    exact_mod_cast hmod

theorem unsignedParse_hex {overflow bits : ℕ} (hbits : overflow < 2 ^ bits)
    {v : ℤ} (h : unsignedParse overflow bits s .hex = .ok v) :
    ∃ val, rawHexParse s = .ok val ∧ v % 2 ^ bits = (val : ℤ) % 2 ^ bits ∧ val < 2 ^ bits := by
  cases hraw : rawHexParse s with
  | error err => simp [unsignedParse, baseIntParse, hraw, Except.map] at h
  | ok val =>
    simp only [unsignedParse, baseIntParse, hraw, Except.map] at h
    split at h
    · cases h
    · cases h
      exact ⟨val, rfl, Int.emod_emod_of_dvd _ dvd_rfl, by omega⟩

theorem HexType.parse_spec {type : HexType} {v : ℤ} (h : type.parse s = .ok v) :
    ∃ val, rawHexParse s = .ok val ∧ v % 2 ^ type.bits = (val : ℤ) % 2 ^ type.bits ∧
      (type.signed = false → val < 2 ^ type.bits) := by
  cases hsigned : type.signed with
  | true =>
    have hparse : ∃ val, rawHexParse s = .ok val ∧
        v % 2 ^ type.bits = (val : ℤ) % 2 ^ type.bits := by
      cases type with
      | i8 | i32 | i64 => exact signedParse_hex h
      | u8 | u32 | u64 => cases hsigned
    obtain ⟨val, hraw, hmod⟩ := hparse
    exact ⟨val, hraw, hmod, nofun⟩
  | false =>
    have hparse : ∃ val, rawHexParse s = .ok val ∧
        v % 2 ^ type.bits = (val : ℤ) % 2 ^ type.bits ∧ val < 2 ^ type.bits := by
      cases type with
      | i8 | i32 | i64 => cases hsigned
      | u8 => exact unsignedParse_hex (show 0xff < 2 ^ 8 by decide) h
      | u32 => exact unsignedParse_hex (show 0xffffffff < 2 ^ 32 by decide) h
      | u64 => exact unsignedParse_hex (show 0xffffffffffffffff < 2 ^ 64 by decide) h
    obtain ⟨val, hraw, hmod, hlt⟩ := hparse
    exact ⟨val, hraw, hmod, fun _ => hlt⟩

/-- A box holds what the digits of a literal denote, as two's complement if the type is signed. -/
def HexType.Exact (type : HexType) (s : List UInt8) (v : ℤ) : Prop :=
  hexFrom 0 (hexDigits s) < 2 ^ type.bits ∧ v % 2 ^ type.bits = hexFrom 0 (hexDigits s)

/-- **Which literals are boxed as what they say**: those of unsigned types, and those that have no
more digits than the type, up to zeros in front. -/
theorem hex_exact_iff {type : HexType} {s : List UInt8} {v : ℤ} (h : type.parse s = .ok v) :
    type.Exact s v ↔
      (type.signed = true → (significant (hexDigits s)).length ≤ type.bits / 4) := by
  obtain ⟨val, hraw, hmod, hunsigned⟩ := HexType.parse_spec h
  obtain ⟨hval, hdigits⟩ := rawHexLoop_exact hraw
  have hfits : type.Exact s v ↔ val < 2 ^ type.bits := by
    rw [HexType.Exact, hexDigits, ← hval, hmod]
    refine ⟨And.left, fun hlt => ⟨hlt, Int.emod_eq_of_lt (by omega) (by exact_mod_cast hlt)⟩⟩
  have hwidth : 2 ^ type.bits = 16 ^ (type.bits / 4) := by
    cases type <;> rfl
  rw [hfits]
  constructor
  · intro hlt _
    rw [hexDigits, ← hexFrom_lt_iff hdigits, ← hval, ← hwidth]
    exact hlt
  · intro hlen
    cases hsigned : type.signed with
    | false => exact hunsigned hsigned
    | true =>
      have hlt := (hexFrom_lt_iff hdigits _).mpr (hlen hsigned)
      rw [← hval, ← hwidth] at hlt
      exact hlt

/-- `0x0100`. -/
def hex0100 : List UInt8 := [48, 120, 48, 49, 48, 48]

theorem hex_exact_iff_0100 :
    HexType.i32.Exact hex0100 256 ↔
      (HexType.i32.signed = true → (significant (hexDigits hex0100)).length ≤ 32 / 4) :=
  hex_exact_iff (by decide)

/-- **`0x0100` is accepted as an `i8`, and is 0.** -/
theorem not_hex_exact :
    ¬ ∀ (type : HexType) (s : List UInt8) (v : ℤ), type.parse s = .ok v → type.Exact s v := by
  intro hall
  have hexact := hall .i8 hex0100 0 (by decide)
  exact absurd hexact.1 (by decide)

end N00b.Adts
