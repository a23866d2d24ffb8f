import N00b.Text.Split

/-!
# Render width

string.nc: `n00b_string_render_len`, `n00b_string_truncate`.

## Representation

* `n00b_codepoint_width` is a parameter.
* A loop that does not end has no result after any number of passes.

## Main results

* `renderLen_eq`: the width of a string is the sum over its characters.
* `truncateLoop_iff`: the loop that truncates, in terms of the first character only.
-/

namespace N00b.Text

open N00b.Lib

section

variable (u : Utf8Iterate) (width : ℤ → ℕ)

/-- The loop of `n00b_string_render_len`, over `n` bytes. -/
def renderLoop (mem : List UInt8) : ℕ → ℕ → ℤ → ℕ → Option ℕ
  | 0, _, _, _ => none
  | passes + 1, p, n, result =>
    if n = 0 then some result
    else
      let (l, cp) := u.iterate ((mem.drop p).take 4)
      if l < 0 then none
      else renderLoop mem passes (p + l.toNat) (n - l) (result + width cp)

/-- `n00b_string_render_len`. -/
def renderLen (s : Str) : Option ℕ :=
  if s.codepoints = s.u8Bytes then some (s.bytes.map fun b => width b.toNat).sum
  else renderLoop u width s.mem (s.u8Bytes + 1) 0 s.u8Bytes 0

/-- The loop of `n00b_string_truncate`. What it decodes is at `p`, which stays as it is. -/
def truncateLoop (p : List UInt8) (len : ℤ) : ℕ → ℤ → ℕ → ℕ → Option ℕ
  | 0, _, _, _ => none
  | passes + 1, n, sum, numCp =>
    if n = 0 then some numCp
    else
      let (val, cp) := u.iterate (p.take 4)
      if val ≤ 0 then none
      else if len < (sum + width cp : ℕ) then some numCp
      else truncateLoop p len passes (n - val) (sum + width cp) (numCp + 1)

/-- `n00b_string_truncate`, if its loop ends after so many passes. -/
def truncate (s : Str) (len : ℤ) (passes : ℕ) : Option (List Char) :=
  (truncateLoop u width s.mem len passes s.u8Bytes 0 0).map fun numCp : ℕ => slice s.chars 0 numCp

end

/-! ## Width -/

def widthOf (width : ℤ → ℕ) (cs : List Char) : ℕ := (cs.map fun c => width c.toNat).sum

section

variable {width : ℤ → ℕ}

@[simp] theorem widthOf_nil : widthOf width [] = 0 := rfl

@[simp] theorem widthOf_cons (c : Char) (cs : List Char) :
    widthOf width (c :: cs) = width c.toNat + widthOf width cs := by
  simp [widthOf]

@[simp] theorem widthOf_append (l m : List Char) :
    widthOf width (l ++ m) = widthOf width l + widthOf width m := by
  simp [widthOf]

/-- A prefix is no wider than the text. -/
theorem widthOf_mono {l m : List Char} (h : l <+: m) : widthOf width l ≤ widthOf width m := by
  obtain ⟨rest, rfl⟩ := h
  rw [widthOf_append]
  exact Nat.le_add_right _ _

/-- The bytes of an ASCII text are as wide as its characters. -/
theorem ascii_bytes {cs : List Char} (h : cs.length = (utf8 cs).length) :
    (utf8 cs).map (fun b => width b.toNat) = cs.map fun c => width c.toNat := by
  induction cs with
  | nil => rfl
  | cons c cs ih =>
    have hle := length_le_utf8 cs
    have hpos := c.utf8Size_pos
    rw [length_utf8_cons, List.length_cons] at h
    have hsize : c.utf8Size = 1 := by omega
    have hascii : c.toNat < 0x80 :=
      Nat.lt_succ_of_le (UInt32.le_iff_toNat_le.mp (Char.utf8Size_eq_one_iff.mp hsize))
    rw [utf8_cons, utf8EncodeChar_ascii hascii, List.singleton_append, List.map_cons, List.map_cons,
      ih (by omega), toNat_ofNat_ascii hascii]

variable {u : Utf8Iterate}

/-- The loop adds the widths of the characters it passes. -/
theorem renderLoop_chars {mem rest : List UInt8} {cs : List Char} {passes p result : ℕ}
    (hmem : mem.drop p = utf8 cs ++ rest) (hpasses : cs.length < passes) :
    renderLoop u width mem passes p (utf8 cs).length result =
      some (result + widthOf width cs) := by
  induction cs generalizing passes p result with
  | nil =>
    cases passes with
    | zero => cases hpasses
    | succ passes => rw [renderLoop, if_pos (by simp), widthOf_nil, Nat.add_zero]
  | cons c cs ih =>
    cases passes with
    | zero => cases hpasses
    | succ passes =>
      have hpos := c.utf8Size_pos
      have hbehind : mem.drop (p + c.utf8Size) = utf8 cs ++ rest := by
        rw [← List.drop_drop, hmem, utf8_cons, List.append_assoc]
        exact List.drop_left' (String.length_utf8EncodeChar c)
      rw [renderLoop, hmem, length_utf8_cons, utf8_cons, List.append_assoc, u.iterate_char,
        if_neg (by omega)]
      simp only
      rw [if_neg (by omega), Int.toNat_natCast, Nat.cast_add, add_sub_cancel_left,
        ih hbehind (Nat.lt_of_succ_lt_succ hpasses), widthOf_cons, Nat.add_assoc]

/-- **The width of a string** is the sum over its characters. -/
theorem renderLen_eq (u : Utf8Iterate) (width : ℤ → ℕ) (s : Str) :
    renderLen u width s = some (widthOf width s.chars) := by
  unfold renderLen
  split
  next hascii => rw [Str.bytes, ascii_bytes hascii, widthOf]
  · have hle := length_le_utf8 s.chars
    have hrender := @renderLoop_chars width u s.mem s.after s.chars (s.u8Bytes + 1) 0 0 rfl
      (Nat.lt_succ_of_le hle)
    rwa [Nat.zero_add] at hrender

/-! ## The loop -/

/-- The loop over `bytes` bytes ends behind `k` copies of a character of `size` bytes and `w`
columns. -/
def Ends (bytes size w len k : ℕ) : Prop := k * size = bytes ∨ len < (k + 1) * w

instance (bytes size w len k : ℕ) : Decidable (Ends bytes size w len k) :=
  inferInstanceAs (Decidable (_ ∨ _))

/-- After so many passes, if it ends at all. -/
def truncatePasses (bytes size w len : ℕ) : Option ℕ :=
  if size ∣ bytes then some (if w = 0 then bytes / size else min (bytes / size) (len / w))
  else if w = 0 then none
  else some (len / w)

/-- The loop ends when the bytes are used up or the width is reached. -/
theorem ends_iff {bytes size w len : ℕ} (hsize : 0 < size) (k : ℕ) :
    Ends bytes size w len k ↔ size ∣ bytes ∧ k = bytes / size ∨ w ≠ 0 ∧ len / w ≤ k := by
  unfold Ends
  refine or_congr ?_ ?_
  · constructor
    · rintro rfl
      exact ⟨Dvd.intro_left _ rfl, (Nat.mul_div_cancel _ hsize).symm⟩
    · rintro ⟨hdvd, rfl⟩
      exact Nat.div_mul_cancel hdvd
  · rcases Nat.eq_zero_or_pos w with rfl | hw
    · simp
    · rw [← Nat.div_lt_iff_lt_mul hw, Nat.lt_succ_iff]
      exact (and_iff_right hw.ne').symm

/-- A least element is the one found. -/
theorem some_eq_iff_isLeast {s : Set ℕ} {a k : ℕ} (h : IsLeast s a) :
    some a = some k ↔ IsLeast s k := by
  rw [Option.some.injEq]
  constructor
  · rintro rfl
    exact h
  · exact h.unique

/-- The number of passes is the first at which the loop ends. -/
theorem truncatePasses_iff {bytes size w len k : ℕ} (hsize : 0 < size) :
    truncatePasses bytes size w len = some k ↔ IsLeast {k | Ends bytes size w len k} k := by
  unfold truncatePasses
  by_cases hdvd : size ∣ bytes
  · by_cases hw : w = 0
    · have hset : {k | Ends bytes size w len k} = {bytes / size} := by
        ext j
        simp [ends_iff hsize, hdvd, hw]
      rw [if_pos hdvd, if_pos hw, hset]
      exact some_eq_iff_isLeast isLeast_singleton
    · have hset : {k | Ends bytes size w len k} = {bytes / size} ∪ Set.Ici (len / w) := by
        ext j
        simp [ends_iff hsize, hdvd, hw]
      rw [if_pos hdvd, if_neg hw, hset]
      exact some_eq_iff_isLeast (isLeast_singleton.union isLeast_Ici)
  · by_cases hw : w = 0
    · have hset : {k | Ends bytes size w len k} = ∅ := by
        ext j
        simp [ends_iff hsize, hdvd, hw]
      rw [if_neg hdvd, if_pos hw, hset]
      exact iff_of_false (by simp) fun h => h.1
    · have hset : {k | Ends bytes size w len k} = Set.Ici (len / w) := by
        ext j
        simp [ends_iff hsize, hdvd, hw]
      rw [if_neg hdvd, if_neg hw, hset]
      exact some_eq_iff_isLeast isLeast_Ici

section

variable {bytes len : ℕ} {c : Char} {p more : List UInt8}

/-- A pass of the loop looks at the first character again. -/
theorem truncateLoop_succ (hp : p = String.utf8EncodeChar c ++ more) {i passes : ℕ} :
    truncateLoop u width p len (passes + 1) ((bytes : ℤ) - (i * c.utf8Size : ℕ))
        (i * width c.toNat) i =
      if Ends bytes c.utf8Size (width c.toNat) len i then some i
      else truncateLoop u width p len passes ((bytes : ℤ) - ((i + 1) * c.utf8Size : ℕ))
        ((i + 1) * width c.toNat) (i + 1) := by
  have hpos := c.utf8Size_pos
  have hsum : i * width c.toNat + width c.toNat = (i + 1) * width c.toNat := (Nat.succ_mul _ _).symm
  have hn : (bytes : ℤ) - (i * c.utf8Size : ℕ) - c.utf8Size =
      (bytes : ℤ) - ((i + 1) * c.utf8Size : ℕ) := by
    rw [Nat.succ_mul, Nat.cast_add]
    ring
  rw [truncateLoop, hp, u.iterate_char]
  simp only [hsum, hn, Nat.cast_lt]
  by_cases hzero : i * c.utf8Size = bytes
  · rw [if_pos (by omega), if_pos (.inl hzero)]
  · rw [if_neg (by omega), if_neg (by omega)]
    unfold Ends
    simp only [hzero, false_or]

/-- The loop stops at the first pass at which it ends. -/
theorem truncateLoop_iff (hp : p = String.utf8EncodeChar c ++ more) {i k : ℕ} :
    (∃ passes, truncateLoop u width p len passes ((bytes : ℤ) - (i * c.utf8Size : ℕ))
        (i * width c.toNat) i = some k) ↔
      IsLeast {j | i ≤ j ∧ Ends bytes c.utf8Size (width c.toNat) len j} k := by
  constructor
  · rintro ⟨passes, h⟩
    induction passes generalizing i with
    | zero => cases h
    | succ passes ih =>
      rw [truncateLoop_succ hp] at h
      split at h
      next hends =>
        obtain rfl := Option.some.inj h
        exact ⟨⟨le_rfl, hends⟩, fun j hj => hj.1⟩
      next hends =>
        obtain ⟨⟨hle, hk⟩, hleast⟩ := ih h
        refine ⟨⟨by omega, hk⟩, fun j hj => hleast ⟨?_, hj.2⟩⟩
        exact Nat.lt_of_le_of_ne hj.1 fun heq => hends (heq ▸ hj.2)
  · rintro ⟨⟨hle, hk⟩, hleast⟩
    refine ⟨k - i + 1, ?_⟩
    induction hm : k - i generalizing i with
    | zero =>
      obtain rfl : i = k := by omega
      rw [truncateLoop_succ hp, if_pos hk]
    | succ m ih =>
      rw [truncateLoop_succ hp, if_neg]
      · exact ih (fun j hj => hleast ⟨Nat.le_of_succ_le hj.1, hj.2⟩) (by omega) (by omega)
      · intro hends
        have hki := hleast ⟨le_rfl, hends⟩
        omega

end

/-! ## The longest prefix -/

/-- The longest prefix that is at most `len` wide. -/
def IsLongest (width : ℤ → ℕ) (len : ℕ) (cs r : List Char) : Prop :=
  r <+: cs ∧ widthOf width r ≤ len ∧ ∀ m, m <+: cs → widthOf width m ≤ len → m <+: r

/-- A prefix is the longest that fits iff it fits and the next one does not. -/
theorem isLongest_take_iff {len k : ℕ} {cs : List Char} :
    IsLongest width len cs (cs.take k) ↔
      widthOf width (cs.take k) ≤ len ∧
        (cs.length ≤ k ∨ len < widthOf width (cs.take (k + 1))) := by
  constructor
  · rintro ⟨-, hwidth, hlongest⟩
    refine ⟨hwidth, ?_⟩
    by_contra h
    obtain ⟨hlt, hfits⟩ := not_or.mp h
    have hprefix := hlongest _ (List.take_prefix (k + 1) cs) (Nat.le_of_not_lt hfits)
    have hle := hprefix.length_le
    rw [List.length_take, List.length_take] at hle
    omega
  · rintro ⟨hwidth, hend⟩
    refine ⟨List.take_prefix _ _, hwidth, fun m hm hfits => ?_⟩
    rcases hend with hall | hnext
    · rwa [List.take_of_length_le hall]
    · rw [List.prefix_iff_eq_take.mp hm]
      refine List.take_prefix_take_left ?_
      by_contra hlong
      have hprefix : cs.take (k + 1) <+: m := by
        rw [List.prefix_iff_eq_take.mp hm]
        exact List.take_prefix_take_left (by omega)
      have hle := @widthOf_mono width _ _ hprefix
      omega

/-- A slice from the start is a prefix. -/
theorem slice_zero (cs : List Char) (k : ℕ) : slice cs 0 k = cs.take k := by
  rcases Nat.le_total k cs.length with hle | hle
  · rw [← Nat.cast_zero, slice_eq (Nat.zero_le k) hle, List.drop_zero, Nat.sub_zero]
  · unfold slice
    split
    next hzero => simp [List.eq_nil_of_length_eq_zero hzero]
    next hpos =>
      have hstop : (if (cs.length : ℤ) < k then (cs.length : ℤ) else k) = cs.length := by
        split <;> omega
      simp only [show ¬ (k : ℤ) < 0 by omega, if_false, hstop]
      rw [if_neg (by omega), if_neg (by omega), if_neg (by omega), Int.sub_zero, Int.toNat_natCast,
        Int.toNat_zero, List.drop_zero, List.take_length, List.take_of_length_le hle]

/-- Truncating ends iff the loop does, with the prefix of as many characters as it made passes. -/
theorem truncate_some_iff {s : Str} {len : ℕ} {c : Char} {more r : List Char}
    (hchars : s.chars = c :: more) :
    (∃ passes, truncate u width s len passes = some r) ↔
      ∃ k, truncatePasses s.u8Bytes c.utf8Size (width c.toNat) len = some k ∧
        r = s.chars.take k := by
  have hmem : s.mem = String.utf8EncodeChar c ++ (utf8 more ++ s.after) := by
    rw [Str.mem, Str.bytes, hchars, utf8_cons, List.append_assoc]
  have hloop := fun k => @truncateLoop_iff width u s.u8Bytes len c s.mem _ hmem 0 k
  simp only [Nat.zero_mul, Nat.cast_zero, Int.sub_zero, Nat.zero_le, true_and,
    ← truncatePasses_iff c.utf8Size_pos] at hloop
  constructor
  · rintro ⟨passes, hr⟩
    obtain ⟨k, hk, rfl⟩ := Option.map_eq_some_iff.mp hr
    exact ⟨k, (hloop k).mp ⟨passes, hk⟩, slice_zero _ _⟩
  · rintro ⟨k, hk, rfl⟩
    obtain ⟨passes, hpasses⟩ := (hloop k).mpr hk
    exact ⟨passes, by rw [truncate, hpasses, Option.map_some, slice_zero]⟩

/-- The strings that are cut right. The loop looks at the first character again and again: it must
make as many passes as there are characters in the longest prefix, or at least as the string has. -/
def TruncateKept (width : ℤ → ℕ) (s : Str) (len : ℕ) : Prop :=
  ∀ c ∈ s.chars.head?, ∃ k,
    truncatePasses s.u8Bytes c.utf8Size (width c.toNat) len = some k ∧
      widthOf width (s.chars.take k) ≤ len ∧
        (s.codepoints ≤ k ∨ len < widthOf width (s.chars.take (k + 1)))

/-- Characters of one size take that many bytes each. -/
theorem length_utf8_uniform {size : ℕ} {cs : List Char} (h : ∀ c ∈ cs, c.utf8Size = size) :
    (utf8 cs).length = cs.length * size := by
  induction cs with
  | nil => simp
  | cons c cs ih =>
    obtain ⟨hc, hcs⟩ := List.forall_mem_cons.mp h
    rw [length_utf8_cons, hc, ih hcs, List.length_cons, Nat.succ_mul, Nat.add_comm]

/-- Characters of one width are that wide each. -/
theorem widthOf_uniform {w : ℕ} {cs : List Char} (h : ∀ c ∈ cs, width c.toNat = w) :
    widthOf width cs = cs.length * w := by
  rw [widthOf, List.map_congr_left h, List.map_const', List.sum_replicate, smul_eq_mul]

/-- Characters of one size and one width are cut right. -/
theorem truncateKept_of_uniform {s : Str} (len : ℕ)
    (h : ∀ c ∈ s.chars, ∀ d ∈ s.chars, d.utf8Size = c.utf8Size ∧ width d.toNat = width c.toNat) :
    TruncateKept width s len := by
  intro c hc
  have hmem : c ∈ s.chars := List.mem_of_mem_head? hc
  have hbytes : s.u8Bytes = s.codepoints * c.utf8Size :=
    length_utf8_uniform fun d hd => (h c hmem d hd).1
  have hwidth : ∀ k, widthOf width (s.chars.take k) = min k s.codepoints * width c.toNat := by
    intro k
    rw [widthOf_uniform fun d hd => (h c hmem d (List.mem_of_mem_take hd)).2, List.length_take]
    rfl
  rw [truncatePasses, hbytes, if_pos (Dvd.intro_left _ rfl), Nat.mul_div_cancel _ c.utf8Size_pos]
  refine ⟨_, rfl, ?_⟩
  simp only [hwidth]
  by_cases hw : width c.toNat = 0
  · rw [if_pos hw, hw]
    exact ⟨Nat.zero_le _, .inl le_rfl⟩
  · rw [if_neg hw]
    have hpos := Nat.pos_of_ne_zero hw
    rcases Nat.le_total s.codepoints (len / width c.toNat) with hall | hcut
    · rw [min_eq_left hall, min_self]
      exact ⟨(Nat.le_div_iff_mul_le hpos).mp hall, .inl le_rfl⟩
    · rw [min_eq_right hcut, min_eq_left hcut]
      refine ⟨Nat.div_mul_le_self _ _, ?_⟩
      rcases Nat.eq_or_lt_of_le hcut with hend | hlt
      · exact .inl hend.ge
      · refine .inr ?_
        rw [min_eq_left (Nat.succ_le_of_lt hlt)]
        exact (Nat.div_lt_iff_lt_mul hpos).mp (Nat.lt_succ_self _)

/-- **A string is cut to its longest prefix** just if so many copies of its first character fit as
characters of it do. -/
theorem truncate_iff (u : Utf8Iterate) (width : ℤ → ℕ) (s : Str) (len : ℕ) :
    (∃ passes r, truncate u width s len passes = some r ∧ IsLongest width len s.chars r) ↔
      TruncateKept width s len := by
  cases hchars : s.chars with
  | nil =>
    refine iff_of_true ⟨1, [], ?_, ?_⟩ ?_
    · rw [truncate, Str.u8Bytes, Str.bytes, hchars]
      rfl
    · exact ⟨List.nil_prefix, Nat.zero_le _, fun m hm _ => hm⟩
    · rw [TruncateKept, hchars]
      intro c hc
      cases hc
  | cons c more =>
    have hhead : s.chars.head? = some c := by rw [hchars, List.head?_cons]
    rw [← hchars]
    constructor
    · rintro ⟨passes, r, hr, hlongest⟩
      obtain ⟨k, hk, rfl⟩ := (truncate_some_iff hchars).mp ⟨passes, hr⟩
      intro c' hc'
      obtain rfl : c = c' := by rwa [hhead, Option.mem_def, Option.some.injEq] at hc'
      exact ⟨k, hk, isLongest_take_iff.mp hlongest⟩
    · intro hkept
      obtain ⟨k, hk, hlongest⟩ := hkept c hhead
      obtain ⟨passes, hr⟩ := (truncate_some_iff hchars).mpr ⟨k, hk, rfl⟩
      exact ⟨passes, s.chars.take k, hr, isLongest_take_iff.mpr hlongest⟩

/-- "a中" cut to 2 columns: two of "a" would fit. -/
theorem not_truncate :
    ¬ ∀ (u : Utf8Iterate) (width : ℤ → ℕ) (s : Str) (len : ℕ), (∀ cp, width cp ≤ 2) →
      ∃ passes r, truncate u width s len passes = some r ∧ IsLongest width len s.chars r := by
  intro h
  obtain ⟨passes, r, hr, -, hfits, -⟩ :=
    h utf8IterateSpec (fun cp => if cp = 0x4e2d then 2 else 1) ⟨['a', '中'], [0]⟩ 2
      fun cp => by split <;> decide
  obtain ⟨k, hk, rfl⟩ := (truncate_some_iff rfl).mp ⟨passes, hr⟩
  obtain rfl : 2 = k := Option.some.inj hk
  exact absurd hfits (by decide)

end

end N00b.Text
