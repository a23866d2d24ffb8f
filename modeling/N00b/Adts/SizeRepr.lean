import N00b.Adts.SizeLiterals
import N00b.Text.IntFormats

/-!
# Printing sizes

size.nc: `size_repr`, and what `parse_size_lit` makes of it.

## Representation

* How `n00b_cformat` renders an integer and how `n00b_string_lower` treats ASCII are parameters with
  what is known of them.
-/

namespace N00b.Adts

open N00b.Lib

/-- What `n00b_cformat` renders an integer of 64 bits as. -/
structure Decimal where
  render : ℕ → List UInt8
  ne_nil : ∀ n, n < 2 ^ 64 → render n ≠ []
  isDigit : ∀ n, n < 2 ^ 64 → ∀ c ∈ render n, IsDigit c
  value : ∀ n, n < 2 ^ 64 → decimalFrom 0 (render n) = n

/-- The small letter for a capital one. -/
def asciiLower (c : UInt8) : UInt8 := if 65 ≤ c.toNat ∧ c.toNat ≤ 90 then c + 32 else c

/-- `n00b_string_lower`, as far as it is about ASCII. -/
structure Lowering where
  lower : List UInt8 → List UInt8
  ascii : ∀ s, (∀ c ∈ s, c.toNat < 128) → lower s = s.map asciiLower

/-! ## The printer -/

/-- `n00b_codepoint_is_space`, for a `char`. -/
def isSpaceByte (c : UInt8) : Bool := c = 32 || c = 10 || c = 13

/-- `n00b_string_strip`. -/
def stripSpaces (s : List UInt8) : List UInt8 := (s.dropWhile isSpaceByte).rdropWhile isSpaceByte

/-- The test for one unit: what is left to be printed, and the text. -/
def reprUnit (decimal : ℕ → List UInt8) : ℕ × List UInt8 → ℕ × List UInt8 → ℕ × List UInt8
  | (n, text), (size, name) =>
    if size ≤ n then (n - n / size * size, text ++ (decimal (n / size) ++ ([32] ++ (name ++ [32]))))
    else (n, text)

/-- The units of a rendering one after the other, and then the bytes. -/
def reprWith (decimal : ℕ → List UInt8) (units : List (ℕ × List UInt8)) (n : ℕ) : List UInt8 :=
  let (n, text) := units.foldl (reprUnit decimal) (n, [])
  if n ≠ 0 then text ++ (decimal n ++ ([32] ++ [66, 121, 116, 101, 115])) else stripSpaces text

/-- `Tb`, `Gb`, `Mb`, `Kb`. -/
def p10Units : List (ℕ × List UInt8) :=
  [(1000000000000, [84, 98]), (1000000000, [71, 98]), (1000000, [77, 98]), (1000, [75, 98])]

/-- `TiB`, `GiB`, `MiB`, `KiB`. -/
def p2Units : List (ℕ × List UInt8) :=
  [(2 ^ 40, [84, 105, 66]), (2 ^ 30, [71, 105, 66]), (2 ^ 20, [77, 105, 66]),
    (2 ^ 10, [75, 105, 66])]

/-- `size_repr`. -/
def sizeRepr (decimal : ℕ → List UInt8) (n : ℕ) : List UInt8 :=
  if n = 0 then [48, 32, 66, 121, 116, 101, 115]
  else
    let p10 := reprWith decimal p10Units n
    if n < 1024 then p10
    else
      let p2 := reprWith decimal p2Units n
      if p10.length < p2.length then p10 else p2

/-! ## Small letters -/

/-- Lowering a byte does not change whether it is a space. -/
theorem isSpaceByte_asciiLower (c : UInt8) : isSpaceByte (asciiLower c) = isSpaceByte c := by
  unfold asciiLower
  split
  next h =>
    have hval : (c + 32).toNat = c.toNat + 32 := by
      rw [UInt8.toNat_add]
      simp only [UInt8.reduceToNat]
      omega
    simp only [isSpaceByte, ← UInt8.toNat_inj, hval, UInt8.reduceToNat]
    grind
  next => rfl

/-- Lowering a text and stripping its spaces may be done in either order. -/
theorem map_stripSpaces (s : List UInt8) :
    (stripSpaces s).map asciiLower = stripSpaces (s.map asciiLower) := by
  have hspace : isSpaceByte ∘ asciiLower = isSpaceByte := funext isSpaceByte_asciiLower
  simp only [stripSpaces, List.rdropWhile, List.dropWhile_map, ← List.map_reverse, hspace]

theorem asciiLower_digit {c : UInt8} (h : IsDigit c) : asciiLower c = c := by
  obtain ⟨hlow, hhigh⟩ := h
  rw [asciiLower, if_neg (by omega)]

/-- Lowering leaves digits as they are. -/
theorem map_asciiLower_digits {digits : List UInt8} (h : ∀ c ∈ digits, IsDigit c) :
    digits.map asciiLower = digits :=
  (List.map_congr_left fun c hc => asciiLower_digit (h c hc)).trans (List.map_id digits)

/-! ## What is printed -/

def Names (unit : ℕ × List UInt8) (u : SizeUnit) : Prop :=
  u.bare = false ∧ u.multiplier.toNat = unit.1 ∧ unit.2.map asciiLower = u.text ∧
    ∀ c ∈ unit.2, c.toNat < 128

/-- Every decimal unit of the printer is one the parser knows. -/
theorem p10Units_names : ∀ unit ∈ p10Units, ∃ u, Names unit u := by
  simp only [p10Units, List.forall_mem_cons]
  refine ⟨⟨.scaled .t false true, ?_⟩, ⟨.scaled .g false true, ?_⟩, ⟨.scaled .m false true, ?_⟩,
    ⟨.scaled .k false true, ?_⟩, nofun⟩ <;> exact ⟨rfl, by decide, by decide, by simp⟩

/-- Every binary unit of the printer is one the parser knows. -/
theorem p2Units_names : ∀ unit ∈ p2Units, ∃ u, Names unit u := by
  simp only [p2Units, List.forall_mem_cons]
  refine ⟨⟨.scaled .t true true, ?_⟩, ⟨.scaled .g true true, ?_⟩, ⟨.scaled .m true true, ?_⟩,
    ⟨.scaled .k true true, ?_⟩, nofun⟩ <;> exact ⟨rfl, by decide, by decide, by simp⟩

/-- What has been printed of a size reads as terms, each with a space behind it, and the rest of the
size is left. -/
structure Spells (size : ℕ) (state : ℕ × List UInt8) (terms : List SizeTerm) : Prop where
  text : state.2.map asciiLower = sizeText terms
  ascii : ∀ c ∈ state.2, c.toNat < 128
  sep : ∀ t ∈ terms, t.sep = [32]
  bare : ∀ t ∈ terms, t.unit.bare = false
  sum : state.1 + sizeSum terms = size

section

variable (D : Decimal)

def printedTerm {n : ℕ} (hn : n < 2 ^ 64) (u : SizeUnit) (sep : List UInt8)
    (hsep : ∀ c ∈ sep, isSizeSep c = true) : SizeTerm where
  digits := D.render n
  gap := [32]
  unit := u
  sep := sep
  digits_ne_nil := D.ne_nil n hn
  isDigit := fun c hc => isDigitByte_iff.mpr (D.isDigit n hn c hc)
  isSep_gap := List.forall_mem_singleton.mpr rfl
  isSep_sep := hsep

variable {D}

/-- A printed term stands for its count times its unit. -/
theorem printedTerm_value {n : ℕ} (hn : n < 2 ^ 64) (u : SizeUnit) (sep : List UInt8)
    (hsep : ∀ c ∈ sep, isSizeSep c = true) :
    (printedTerm D hn u sep hsep).value = u.multiplier.toNat * n :=
  congrArg _ (D.value n hn)

/-- The text of two lists of terms in a row is the two texts. -/
theorem sizeText_append (terms terms' : List SizeTerm) :
    sizeText (terms ++ terms') = sizeText terms ++ sizeText terms' := List.flatMap_append

/-- The sum of two lists of terms in a row is the two sums. -/
theorem sizeSum_append (terms terms' : List SizeTerm) :
    sizeSum (terms ++ terms') = sizeSum terms + sizeSum terms' := by
  simp [sizeSum]

/-- Rendered numbers are ASCII. -/
theorem ascii_render {n : ℕ} (hn : n < 2 ^ 64) : ∀ c ∈ D.render n, c.toNat < 128 := by
  intro c hc
  have hhigh := (D.isDigit n hn c hc).2
  omega

/-- Printing one unit spells its part of the size. -/
theorem Spells.reprUnit {size : ℕ} (hsize : size < 2 ^ 64) {state : ℕ × List UInt8}
    {terms : List SizeTerm} (h : Spells size state terms) {unit : ℕ × List UInt8} {u : SizeUnit}
    (hunit : Names unit u) : ∃ terms', Spells size (reprUnit D.render state unit) terms' := by
  obtain ⟨n, text⟩ := state
  obtain ⟨step, name⟩ := unit
  obtain ⟨hbare, hstep, hname, hascii⟩ := hunit
  simp only at hstep hname hascii
  rw [N00b.Adts.reprUnit]
  split
  next hle =>
    have hsum := h.sum
    simp only at hsum
    have hn : n / step < 2 ^ 64 := lt_of_le_of_lt (Nat.div_le_self n step) (by omega)
    have hsep : ∀ c ∈ ([32] : List UInt8), isSizeSep c = true := List.forall_mem_singleton.mpr rfl
    have hdiv : n / step * step ≤ n := Nat.div_mul_le_self n step
    refine ⟨terms ++ [printedTerm D hn u [32] hsep], ?_, ?_, ?_, ?_, ?_⟩
    · simp only [List.map_append, h.text, hname, map_asciiLower_digits (D.isDigit _ hn),
        sizeText_append, sizeText_cons, sizeText_nil, List.append_nil]
      rfl
    · simp only [List.forall_mem_append]
      exact ⟨h.ascii, ascii_render hn, by simp, hascii, by simp⟩
    · simp only [List.forall_mem_append, List.forall_mem_singleton]
      exact ⟨h.sep, rfl⟩
    · simp only [List.forall_mem_append, List.forall_mem_singleton]
      exact ⟨h.bare, hbare⟩
    · have hvalue : sizeSum [printedTerm D hn u [32] hsep] = step * (n / step) := by
        rw [sizeSum, List.map_singleton, List.sum_singleton, printedTerm_value, hstep]
      rw [sizeSum_append, hvalue, Nat.mul_comm step]
      simp only
      omega
  next => exact ⟨terms, h⟩

/-- Printing the units one after the other spells their parts of the size. -/
theorem Spells.foldl {size : ℕ} (hsize : size < 2 ^ 64) {units : List (ℕ × List UInt8)}
    (hunits : ∀ unit ∈ units, ∃ u, Names unit u) {state : ℕ × List UInt8} {terms : List SizeTerm}
    (h : Spells size state terms) :
    ∃ terms', Spells size (units.foldl (N00b.Adts.reprUnit D.render) state) terms' := by
  induction units generalizing state terms with
  | nil => exact ⟨terms, h⟩
  | cons unit units ih =>
    obtain ⟨⟨u, hu⟩, hunits⟩ := List.forall_mem_cons.mp hunits
    obtain ⟨terms', h'⟩ := h.reprUnit (D := D) hsize hu
    exact ih hunits h'

theorem isSpaceByte_digit {c : UInt8} (h : isDigitByte c = true) : isSpaceByte c = false := by
  simp only [isDigitByte, isSpaceByte, Bool.and_eq_true, decide_eq_true_eq, Bool.or_eq_false_iff,
    decide_eq_false_iff_not, ← UInt8.toNat_inj, UInt8.reduceToNat] at h ⊢
  omega

theorem isSpaceByte_small {c : UInt8} (h : isSmall c = true) : isSpaceByte c = false := by
  simp only [isSmall, isSpaceByte, Bool.and_eq_true, decide_eq_true_eq, Bool.or_eq_false_iff,
    decide_eq_false_iff_not, ← UInt8.toNat_inj, UInt8.reduceToNat] at h ⊢
  omega

/-- Stripping the printed text takes the space behind its last term. -/
theorem stripSpaces_sizeText (terms : List SizeTerm) {t : SizeTerm} (ht : t.sep = [32]) :
    stripSpaces (sizeText (terms ++ [t])) =
      sizeText (terms ++ [{ t with sep := [], isSep_sep := nofun }]) := by
  obtain ⟨front, c, htext⟩ : ∃ front c, t.unit.text = front ++ [c] := by
    rcases List.eq_nil_or_concat t.unit.text with h | ⟨front, c, h⟩
    · exact absurd h t.unit.text_ne_nil
    · exact ⟨front, c, by rw [h, List.concat_eq_append]⟩
  have hc : isSpaceByte c = false :=
    isSpaceByte_small (t.unit.isSmall c (by simp [htext]))
  have hfront : (sizeText (terms ++ [t])).dropWhile isSpaceByte = sizeText (terms ++ [t]) :=
    @dropWhile_run _ _ [] _ nofun (stops_sizeText (fun _ => isSpaceByte_digit) _)
  rw [stripSpaces, hfront]
  simp only [sizeText_append, sizeText_cons, sizeText_nil, ht, htext, List.append_nil]
  simp only [← List.append_assoc]
  rw [List.rdropWhile_concat_pos _ _ _ rfl, List.rdropWhile_concat_neg _ _ _ (by simp [hc])]

/-- A printed size is a text of terms that add up to it. -/
theorem reprWith_terms {size : ℕ} (hpos : size ≠ 0) (hsize : size < 2 ^ 64)
    {units : List (ℕ × List UInt8)} (hunits : ∀ unit ∈ units, ∃ u, Names unit u) :
    ∃ terms ≠ [], (reprWith D.render units size).map asciiLower = sizeText terms ∧
      (∀ c ∈ reprWith D.render units size, c.toNat < 128) ∧
      (∀ t ∈ terms, t.unit.bare = false) ∧ sizeSum terms = size := by
  have hstart : Spells size (size, []) [] := ⟨rfl, nofun, nofun, nofun, rfl⟩
  obtain ⟨terms, h⟩ := hstart.foldl (D := D) hsize hunits
  rw [reprWith]
  generalize units.foldl (N00b.Adts.reprUnit D.render) (size, []) = state at h ⊢
  obtain ⟨n, text⟩ := state
  obtain ⟨htext, hascii, hsep, hbare, hsum⟩ := h
  simp only at htext hascii hsum ⊢
  split
  next hn =>
    have hlt : n < 2 ^ 64 := by omega
    refine ⟨terms ++ [printedTerm D hlt (.bytes 4) [] nofun], by simp, ?_, ?_, ?_, ?_⟩
    · simp only [List.map_append, htext, map_asciiLower_digits (D.isDigit _ hlt), sizeText_append,
        sizeText_cons, sizeText_nil, List.append_nil]
      rfl
    · simp only [List.forall_mem_append]
      exact ⟨hascii, ascii_render hlt, by simp, by simp⟩
    · simp only [List.forall_mem_append, List.forall_mem_singleton]
      exact ⟨hbare, rfl⟩
    · have hvalue : sizeSum [printedTerm D hlt (.bytes 4) [] nofun] = 1 * n := by
        rw [sizeSum, List.map_singleton, List.sum_singleton, printedTerm_value]
        rfl
      rw [sizeSum_append, hvalue]
      omega
  next hn =>
    obtain rfl : n = 0 := not_not.mp hn
    rcases List.eq_nil_or_concat terms with rfl | ⟨init, t, rfl⟩
    · exact absurd hsum.symm hpos
    · rw [List.concat_eq_append] at htext hsep hbare hsum
      simp only [List.forall_mem_append, List.forall_mem_singleton] at hsep hbare
      refine ⟨init ++ [{ t with sep := [], isSep_sep := nofun }], by simp, ?_, ?_, ?_, ?_⟩
      · rw [map_stripSpaces, htext, stripSpaces_sizeText init hsep.2]
      · intro c hc
        exact hascii c ((List.dropWhile_sublist _).mem ((List.rdropWhile_prefix _ _).sublist.mem hc))
      · simp only [List.forall_mem_append, List.forall_mem_singleton]
        exact hbare
      · rw [sizeSum_append] at hsum ⊢
        rw [← hsum, zero_add]
        rfl

/-- Whichever units are chosen, a printed size is a text of terms that add up to it. -/
theorem sizeRepr_terms {size : ℕ} (hsize : size < 2 ^ 64) :
    ∃ terms ≠ [], (sizeRepr D.render size).map asciiLower = sizeText terms ∧
      (∀ c ∈ sizeRepr D.render size, c.toNat < 128) ∧
      (∀ t ∈ terms, t.unit.bare = false) ∧ sizeSum terms = size := by
  rw [sizeRepr]
  split
  next hzero =>
    subst hzero
    exact ⟨[⟨[48], [32], .bytes 4, [], by simp, by simp [isDigitByte], by simp [isSizeSep], nofun⟩],
      by simp, rfl, by simp, by simp [SizeUnit.bare], rfl⟩
  next hpos =>
    simp only
    split
    · exact reprWith_terms hpos hsize p10Units_names
    · split
      · exact reprWith_terms hpos hsize p10Units_names
      · exact reprWith_terms hpos hsize p2Units_names

end

/-- **Every size is read back**, whatever `multiplier` holds at first. -/
theorem parse_sizeRepr (D : Decimal) (L : Lowering) (multiplier : UInt64) {size : ℕ}
    (hsize : size < 2 ^ 64) :
    parseSizeLit L.lower multiplier (sizeRepr D.render size) = .ok size := by
  obtain ⟨terms, hne, htext, hascii, hbare, hsum⟩ := sizeRepr_terms (D := D) hsize
  rw [← L.ascii _ hascii] at htext
  have hparse := parseSizeLit_terms multiplier hne htext hbare (by omega)
  rwa [hsum] at hparse

/-! ## Rendering with `n00b_fmt_uint` -/

/-- What `n00b_fmt_uint` prints. -/
def fmtRender (n : ℕ) : List UInt8 := (Text.fmtUint n).getD []

/-- The decimal rendering of a number is digits that read back as it. -/
theorem fmtRender_spec {n : ℕ} (hn : n < 2 ^ 64) :
    (∀ c ∈ fmtRender n, IsDigit c) ∧ decimalFrom 0 (fmtRender n) = n := by
  obtain ⟨digits, hfmt, hdigits, hvalue⟩ := Text.fmtUint_spec (show n < 10 ^ 20 by omega)
  rw [fmtRender, hfmt]
  exact ⟨hdigits, hvalue⟩

theorem fmtRender_ne_nil (n : ℕ) (hn : n < 2 ^ 64) : fmtRender n ≠ [] := by
  intro hnil
  obtain ⟨-, hvalue⟩ := fmtRender_spec hn
  rw [hnil] at hvalue
  obtain rfl : n = 0 := hvalue.symm
  cases hnil

theorem fmtRender_isDigit (n : ℕ) (hn : n < 2 ^ 64) : ∀ c ∈ fmtRender n, IsDigit c :=
  (fmtRender_spec hn).1

theorem fmtRender_value (n : ℕ) (hn : n < 2 ^ 64) : decimalFrom 0 (fmtRender n) = n :=
  (fmtRender_spec hn).2

/-- The rendering of `n00b_fmt_uint`. -/
def fmtDecimal : Decimal := ⟨fmtRender, fmtRender_ne_nil, fmtRender_isDigit, fmtRender_value⟩

/-- Small letters for the capital ones, and nothing else. -/
def asciiLowering : Lowering := ⟨List.map asciiLower, fun _ _ => rfl⟩

theorem parse_sizeRepr_1500 :
    parseSizeLit asciiLowering.lower 7 (sizeRepr fmtDecimal.render 1500) = .ok 1500 :=
  parse_sizeRepr fmtDecimal asciiLowering 7 (by decide)

end N00b.Adts
