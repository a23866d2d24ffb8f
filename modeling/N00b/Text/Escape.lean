import N00b.Text.Split

/-!
# Escaped strings

string.nc: `n00b_inverse_hex`, `should_escape`, `n00b_string_escape`, `n00b_string_unescape`.

## Representation

* What is printable is a parameter, and nothing has to be known of it.
* The memory that a loop has before it is a list of bytes, with the distance to `end`.
* An allocation holds zeros behind what is written.
* The `data` of `n00b_string_empty` is NULL: that string has no bytes, and none behind it. To read one
  there is a crash.
* A signed overflow has no result; that of `alen` is the only one that comes first.
-/

namespace N00b.Text

open N00b.Lib

/-- `utf8proc`, to read and to write. -/
structure Utf8Codec extends Utf8Iterate where
  encodeChar : ℤ → List UInt8
  encodeChar_char : ∀ c : Char, encodeChar (c.toNat : ℤ) = String.utf8EncodeChar c

def utf8CodecSpec : Utf8Codec where
  toUtf8Iterate := utf8IterateSpec
  encodeChar := encodeCp
  encodeChar_char := encodeCp_char

def byteOf (c : Char) : UInt8 := UInt8.ofNat c.toNat

/-- `n00b_hex_map_lower`. -/
def hexMapLower : List UInt8 :=
  ['0', '1', '2', '3', '4', '5', '6', '7', '8', '9', 'a', 'b', 'c', 'd', 'e', 'f'].map byteOf

/-- `n00b_inverse_hex`. -/
def inverseHex (c : UInt8) : UInt8 :=
  match Char.ofNat c.toNat with
  | '0' => 0xff
  | '1' => 0xfe
  | '2' => 0xfd
  | '3' => 0xfc
  | '4' => 0xfb
  | '5' => 0xfa
  | '6' => 0xf9
  | '7' => 0xf8
  | '8' => 0xf7
  | '9' => 0xf6
  | 'a' => 0xf5
  | 'b' => 0xf4
  | 'c' => 0xf3
  | 'd' => 0xf2
  | 'e' => 0xf1
  | 'f' => 0xf0
  | 'A' => 0xf5
  | 'B' => 0xf4
  | 'C' => 0xf3
  | 'D' => 0xf2
  | 'E' => 0xf1
  | 'F' => 0xf0
  | _ => 0

/-- `one_hex_digit`: 0xff, where there is none. -/
def oneHexDigit (c : UInt8) : UInt8 := inverseHex c ^^^ 0xff

/-! ## Writing -/

section

variable (u : Utf8Iterate) (printable : ℤ → Bool)

/-- `should_escape`. -/
def shouldEscape (cp : ℤ) : Bool :=
  !printable cp || cp = '"'.toNat || cp = '\\'.toNat || cp = '\''.toNat

/-- The first pass of `n00b_string_escape`. -/
def countEscapes : ℕ → List UInt8 → ℤ → Option ℕ
  | 0, _, _ => some 0
  | passes + 1, p, left =>
    if left ≤ 0 then some 0
    else
      let (l, cp) := u.iterate (p.take 4)
      if l ≤ 0 then none
      else
        (countEscapes passes (p.drop l.toNat) (left - l)).map
          (· + if shouldEscape printable cp then 1 else 0)

def escapeLetter (cp : ℕ) : Option UInt8 :=
  match cp with
  | 0x5c => some (byteOf '\\')
  | 0x07 => some (byteOf 'a')
  | 0x08 => some (byteOf 'b')
  | 0x1b => some (byteOf 'e')
  | 0x0c => some (byteOf 'f')
  | 0x0a => some (byteOf 'n')
  | 0x0d => some (byteOf 'r')
  | 0x09 => some (byteOf 't')
  | 0x0b => some (byteOf 'v')
  | _ => none

/-- A digit of `n00b_hex_map_lower`. -/
def hexLower (i : ℕ) : UInt8 := hexMapLower.getD i 0

/-- The escape of a code point, and how many it is. -/
def escapeCp (cp : ℕ) : List UInt8 × ℕ :=
  match escapeLetter cp with
  | some letter => ([byteOf '\\', letter], 2)
  | none =>
    if cp ≤ 0x7f then
      ([byteOf '\\', byteOf 'x', hexLower (cp >>> 4), hexLower (cp &&& 0x0f)], 2 + 2)
    else if cp < 0x10000 then
      ([byteOf '\\', byteOf 'u', hexLower (cp >>> 12), hexLower (cp >>> 8 &&& 0x0f),
        hexLower (cp >>> 4 &&& 0x0f), hexLower (cp &&& 0x0f)], 2 + 2 + 2)
    else
      ([byteOf '\\', byteOf 'U', hexLower (cp >>> 20), hexLower (cp >>> 16 &&& 0x0f),
        hexLower (cp >>> 12 &&& 0x0f), hexLower (cp >>> 8 &&& 0x0f), hexLower (cp >>> 4 &&& 0x0f),
        hexLower (cp &&& 0x0f)], 2 + 2 + 2 + 2)

/-- The second pass of `n00b_string_escape`: what is written, and `num_cp`. -/
def escapeLoop : ℕ → List UInt8 → ℤ → List UInt8 × ℕ
  | 0, _, _ => ([], 0)
  | passes + 1, p, left =>
    if left ≤ 0 then ([], 0)
    else
      let (l, cp) := u.iterate (p.take 4)
      let (out, numCp) :=
        if shouldEscape printable cp then escapeCp cp.toNat else (p.take l.toNat, 1)
      let (more, numMore) := escapeLoop passes (p.drop l.toNat) (left - l)
      (out ++ more, numCp + numMore)

/-- `n00b_string_escape`. -/
def escape (s : StringT) : Option StringT := do
  let numEscapes ← countEscapes u printable s.u8Bytes s.mem s.u8Bytes
  if numEscapes = 0 then some s
  else
    let alen := s.u8Bytes + 8 * numEscapes
    if 2 ^ 31 ≤ alen then none
    else
      let (out, numCp) := escapeLoop u printable s.u8Bytes s.mem s.u8Bytes
      some ⟨out, List.replicate (alen + 1 - out.length) 0, numCp⟩

end

/-! ## Reading -/

/-- How `n00b_string_unescape` can fail: with a crash, an exception, NULL, or an error of its own.
-/
inductive UnescapeError where
  | crash
  | corrupt
  | null
  | hexEos
  | hexMissing
  | hexx
  | hexu
  | hexU
deriving DecidableEq, Repr

def hexDigits (bad : UnescapeError) : ℕ → List UInt8 → ℕ → Except UnescapeError ℕ
  | 0, _, cp => .ok cp
  | digits + 1, p, cp =>
    let n := oneHexDigit (p.headD 0)
    if n = 0xff then .error bad
    else hexDigits bad digits p.tail (cp <<< 4 ||| n.toNat)

def hexEscape (bad : UnescapeError) (digits : ℕ) (p : List UInt8) (left : ℤ) :
    Except UnescapeError ℕ :=
  if left < digits then .error .hexEos
  else
    let cp := oneHexDigit (p.headD 0)
    if cp = 0xff then .error .hexMissing
    else hexDigits bad (digits - 1) p.tail cp.toNat

def unescapeLetter (cp : ℤ) : Option UInt8 :=
  match Char.ofNat cp.toNat with
  | 'a' => some 0x07
  | 'b' => some 0x08
  | 'e' => some 0x1b
  | 'f' => some 0x0c
  | 'n' => some 0x0a
  | 'r' => some 0x0d
  | 't' => some 0x09
  | 'v' => some 0x0b
  | _ => none

section

variable (u : Utf8Codec)

/-- The cases `u` and `U`, behind the letter. A `+` may come first. -/
def unescapeUnicode (bad : UnescapeError) (digits : ℕ) (p : List UInt8) (left : ℤ) :
    Except UnescapeError (List UInt8 × ℕ) :=
  let plus := if p.head? = some (byteOf '+') then 1 else 0
  (hexEscape bad digits (p.drop plus) (left - plus)).map fun cp : ℕ =>
    (u.encodeChar cp, 1 + plus + digits)

/-- The escape at `p`, behind its backslash: what is written, and how far it goes. -/
def unescapeSwitch (p : List UInt8) (left : ℤ) : Except UnescapeError (List UInt8 × ℕ) :=
  let (l, cp) := u.iterate (p.take 4)
  if l ≤ 0 then .error .null
  else
    match unescapeLetter cp with
    | some b => .ok ([b], 1)
    | none =>
      if cp = 'u'.toNat then unescapeUnicode u .hexu 4 p.tail (left - 1)
      else if cp = 'U'.toNat then unescapeUnicode u .hexU 6 p.tail (left - 1)
      else if cp = 'x'.toNat ∨ cp = 'X'.toNat then
        (hexEscape .hexx 2 p.tail (left - 1)).map fun cp : ℕ => (u.encodeChar cp, 1 + 2)
      else .ok (p.take l.toNat, l.toNat)

/-- A turn of the loop of `n00b_string_unescape`. -/
def unescapeTurn (p : List UInt8) (left : ℤ) : Except UnescapeError (List UInt8 × ℕ) :=
  let (l, cp) := u.iterate (p.take 4)
  if l ≤ 0 then .error .null
  else if cp ≠ '\\'.toNat then .ok (p.take l.toNat, l.toNat)
  else (unescapeSwitch u p.tail (left - 1)).map fun (out, n) => (out, 1 + n)

/-- The loop: what is written, and `count`. Every turn goes on. -/
def unescapeLoop : ℕ → List UInt8 → ℤ → Except UnescapeError (List UInt8 × ℕ)
  | 0, _, left => if left ≤ 0 then .ok ([], 0) else .error .null
  | passes + 1, p, left =>
    if left ≤ 0 then .ok ([], 0)
    else do
      let (out, n) ← unescapeTurn u p left
      let (more, count) ← unescapeLoop passes (p.drop n) (left - n)
      .ok (out ++ more, count + 1)

/-- Whether there is a backslash. Where the string does not end in a NUL, `n00b_string_find` looks
for it, otherwise `index`. -/
def findsBackslash (s : StringT) : Except UnescapeError Bool :=
  match s.after with
  | [] => .error .crash
  | 0 :: _ => .ok ((s.mem.takeWhile (· ≠ 0)).contains (byteOf '\\'))
  | _ :: _ =>
    match findBase u.toUtf8Iterate s (Str.new ['\\']) 0 (-1) with
    | none => .error .corrupt
    | some r => .ok (decide (r ≠ -1))

/-- `n00b_string_unescape`. -/
def unescape (s : StringT) : Except UnescapeError StringT := do
  if ← findsBackslash u s then
    let (out, count) ← unescapeLoop u s.u8Bytes s.mem s.u8Bytes
    .ok ⟨out, List.replicate (s.u8Bytes + 1 - out.length) 0, count⟩
  else .ok s

end

/-! ## What is written -/

/-- A character as it is written, and how many code points that are. -/
def escaped (printable : ℤ → Bool) (c : Char) : List UInt8 × ℕ :=
  if shouldEscape printable c.toNat then escapeCp c.toNat else (String.utf8EncodeChar c, 1)

def escapedBytes (printable : ℤ → Bool) (cs : List Char) : List UInt8 :=
  cs.flatMap fun c => (escaped printable c).1

def numEscapes (printable : ℤ → Bool) (cs : List Char) : ℕ :=
  cs.countP fun c => shouldEscape printable c.toNat

section

variable {u : Utf8Iterate} {printable : ℤ → Bool} {rest : List UInt8}

theorem drop_char (c : Char) (more : List UInt8) :
    (String.utf8EncodeChar c ++ more).drop c.utf8Size = more :=
  List.drop_left' (String.length_utf8EncodeChar c)

theorem take_char (c : Char) (more : List UInt8) :
    (String.utf8EncodeChar c ++ more).take c.utf8Size = String.utf8EncodeChar c :=
  List.take_left' (String.length_utf8EncodeChar c)

/-- The loop counts the characters that are escaped. -/
theorem countEscapes_chars {cs : List Char} {passes : ℕ} (hpasses : cs.length ≤ passes) :
    countEscapes u printable passes (utf8 cs ++ rest) (utf8 cs).length =
      some (numEscapes printable cs) := by
  induction cs generalizing passes with
  | nil =>
    cases passes with
    | zero => rfl
    | succ passes => rw [countEscapes, if_pos (by simp)]; rfl
  | cons c cs ih =>
    cases passes with
    | zero => cases hpasses
    | succ passes =>
      have hpos := c.utf8Size_pos
      rw [countEscapes, length_utf8_cons, if_neg (by omega), utf8_cons, List.append_assoc,
        u.iterate_char]
      simp only
      rw [if_neg (by omega), Int.toNat_natCast, drop_char, Nat.cast_add, add_sub_cancel_left,
        ih (Nat.le_of_succ_le_succ hpasses), Option.map_some]
      simp only [numEscapes, List.countP_cons]

/-- The loop escapes one character after the other. -/
theorem escapeLoop_chars {cs : List Char} {passes : ℕ} (hpasses : cs.length ≤ passes) :
    escapeLoop u printable passes (utf8 cs ++ rest) (utf8 cs).length =
      (escapedBytes printable cs, (cs.map fun c => (escaped printable c).2).sum) := by
  induction cs generalizing passes with
  | nil =>
    cases passes with
    | zero => rfl
    | succ passes => rw [escapeLoop, if_pos (by simp)]; rfl
  | cons c cs ih =>
    cases passes with
    | zero => cases hpasses
    | succ passes =>
      have hpos := c.utf8Size_pos
      rw [escapeLoop, length_utf8_cons, if_neg (by omega), utf8_cons, List.append_assoc,
        u.iterate_char]
      simp only
      rw [Int.toNat_natCast, Int.toNat_natCast, drop_char, take_char, Nat.cast_add,
        add_sub_cancel_left, ih (Nat.le_of_succ_le_succ hpasses)]
      rfl

/-- What is escaped begins with a backslash. -/
theorem escapeCp_head (cp : ℕ) : ∃ more, (escapeCp cp).1 = byteOf '\\' :: more := by
  unfold escapeCp
  split
  · exact ⟨_, rfl⟩
  · split_ifs <;> exact ⟨_, rfl⟩

/-- It has eight bytes at most. -/
theorem escapeCp_length (cp : ℕ) :
    0 < (escapeCp cp).1.length ∧ (escapeCp cp).1.length ≤ 8 := by
  unfold escapeCp
  split
  · exact ⟨Nat.zero_lt_succ _, Nat.le_of_ble_eq_true rfl⟩
  · split_ifs <;> exact ⟨Nat.zero_lt_succ _, Nat.le_of_ble_eq_true rfl⟩

/-- So a character has eight bytes more at most, if it is escaped. -/
theorem escaped_length (c : Char) :
    (escaped printable c).1.length ≤
      c.utf8Size + 8 * if shouldEscape printable c.toNat then 1 else 0 := by
  unfold escaped
  split
  · exact (escapeCp_length _).2.trans (Nat.le_add_left _ _)
  · exact (String.length_utf8EncodeChar c).le

theorem escaped_pos (c : Char) : 0 < (escaped printable c).1.length := by
  unfold escaped
  split
  · exact (escapeCp_length _).1
  · rw [String.length_utf8EncodeChar]
    exact c.utf8Size_pos

/-- No character is lost. -/
theorem length_le_escaped (cs : List Char) :
    cs.length ≤ (escapedBytes printable cs).length := by
  unfold escapedBytes
  induction cs with
  | nil => exact le_rfl
  | cons c cs ih =>
    have hpos := @escaped_pos printable c
    rw [List.flatMap_cons, List.length_append, List.length_cons]
    omega

/-- **The escaped string fits** what is allocated for it. -/
theorem escape_length (cs : List Char) :
    (escapedBytes printable cs).length ≤ (utf8 cs).length + 8 * numEscapes printable cs := by
  unfold escapedBytes numEscapes
  induction cs with
  | nil => exact Nat.zero_le _
  | cons c cs ih =>
    have hlength := @escaped_length printable c
    rw [List.flatMap_cons, List.length_append, length_utf8_cons, List.countP_cons]
    omega

end

/-! ## What is read -/

section

variable {u : Utf8Codec} {printable : ℤ → Bool} {rest : List UInt8} {left : ℤ}

theorem iterate_ascii {d : Char} (hd : d.toNat < 0x80) (rest : List UInt8) :
    u.iterate ((byteOf d :: rest).take 4) = (1, (d.toNat : ℤ)) := by
  have hiterate := u.iterate_char d rest
  rwa [utf8EncodeChar_ascii hd, utf8Size_ascii hd] at hiterate

theorem oneHexDigit_hexLower {i : ℕ} (hi : i < 16) :
    oneHexDigit (hexLower i) ≠ 0xff ∧ (oneHexDigit (hexLower i)).toNat = i := by
  interval_cases i <;> decide

theorem hexLower_ne_plus {i : ℕ} (hi : i < 16) : hexLower i ≠ byteOf '+' := by
  interval_cases i <;> decide

/-- Hexadecimal digits are read as their number. -/
theorem hexDigits_hexLower (bad : UnescapeError) {digits : List ℕ} (hdigits : ∀ d ∈ digits, d < 16)
    (cp : ℕ) :
    hexDigits bad digits.length (digits.map hexLower ++ rest) cp =
      .ok (digits.foldl (fun cp d => cp <<< 4 ||| d) cp) := by
  induction digits generalizing cp with
  | nil => rfl
  | cons d digits ih =>
    obtain ⟨hd, hdigits⟩ := List.forall_mem_cons.mp hdigits
    obtain ⟨hne, hvalue⟩ := oneHexDigit_hexLower hd
    rw [List.length_cons, hexDigits, List.map_cons, List.cons_append, List.headD_cons,
      List.tail_cons, if_neg hne, ih hdigits, hvalue, List.foldl_cons]

theorem hexEscape_hexLower (bad : UnescapeError) {d : ℕ} {digits : List ℕ}
    (hdigits : ∀ e ∈ d :: digits, e < 16) (hleft : digits.length + 1 ≤ left) :
    hexEscape bad (digits.length + 1) ((d :: digits).map hexLower ++ rest) left =
      .ok (digits.foldl (fun cp d => cp <<< 4 ||| d) d) := by
  obtain ⟨hd, hdigits⟩ := List.forall_mem_cons.mp hdigits
  obtain ⟨hne, hvalue⟩ := oneHexDigit_hexLower hd
  rw [hexEscape, if_neg (by push_cast; omega), List.map_cons, List.cons_append, List.headD_cons,
    List.tail_cons]
  simp only
  rw [if_neg hne, Nat.add_sub_cancel, hvalue, hexDigits_hexLower bad hdigits]

/-- A digit is put behind a number. -/
theorem shift_or {cp d : ℕ} (hd : d < 16) : cp <<< 4 ||| d = cp * 16 + d := by
  rw [← Nat.shiftLeft_add_eq_or_of_lt (show d < 2 ^ 4 from hd), Nat.shiftLeft_eq]

/-- The letter of an escape is one that is read back. -/
theorem escapeLetter_cases {cp : ℕ} {letter : UInt8} (h : escapeLetter cp = some letter) :
    cp < 0x80 ∧ ∃ d : Char, d.toNat < 0x80 ∧ letter = byteOf d ∧
      (d = '\\' ∧ cp = '\\'.toNat ∨ unescapeLetter d.toNat = some (UInt8.ofNat cp)) := by
  unfold escapeLetter at h
  split at h
  case h_1 => exact ⟨by decide, '\\', by decide, (Option.some.inj h).symm, .inl ⟨rfl, rfl⟩⟩
  case h_2 => exact ⟨by decide, 'a', by decide, (Option.some.inj h).symm, .inr (by decide)⟩
  case h_3 => exact ⟨by decide, 'b', by decide, (Option.some.inj h).symm, .inr (by decide)⟩
  case h_4 => exact ⟨by decide, 'e', by decide, (Option.some.inj h).symm, .inr (by decide)⟩
  case h_5 => exact ⟨by decide, 'f', by decide, (Option.some.inj h).symm, .inr (by decide)⟩
  case h_6 => exact ⟨by decide, 'n', by decide, (Option.some.inj h).symm, .inr (by decide)⟩
  case h_7 => exact ⟨by decide, 'r', by decide, (Option.some.inj h).symm, .inr (by decide)⟩
  case h_8 => exact ⟨by decide, 't', by decide, (Option.some.inj h).symm, .inr (by decide)⟩
  case h_9 => exact ⟨by decide, 'v', by decide, (Option.some.inj h).symm, .inr (by decide)⟩
  case h_10 => cases h

theorem switch_letter {d : Char} (hd : d.toNat < 0x80) {b : UInt8}
    (hletter : unescapeLetter d.toNat = some b) :
    unescapeSwitch u (byteOf d :: rest) left = .ok ([b], 1) := by
  rw [unescapeSwitch, iterate_ascii hd]
  simp only [hletter]
  rfl

theorem switch_backslash :
    unescapeSwitch u (byteOf '\\' :: rest) left = .ok ([byteOf '\\'], 1) := by
  rw [unescapeSwitch, iterate_ascii (by decide)]
  rfl

section

variable {c : Char} {d : ℕ} {digits : List ℕ} (hdigits : ∀ e ∈ d :: digits, e < 16)
  (hleft : digits.length + 2 ≤ left)
  (hvalue : digits.foldl (fun cp d => cp <<< 4 ||| d) d = c.toNat)
include hdigits hleft hvalue

/-- The digits of a character are read as its code point. -/
theorem hexEscape_char (bad : UnescapeError) :
    hexEscape bad (digits.length + 1) ((d :: digits).map hexLower ++ rest) (left - 1) =
      .ok c.toNat := by
  rw [hexEscape_hexLower bad hdigits (by omega), hvalue]

/-- So its bytes are written. -/
theorem unescapeUnicode_char (bad : UnescapeError) :
    unescapeUnicode u bad (digits.length + 1) ((d :: digits).map hexLower ++ rest) (left - 1) =
      .ok (String.utf8EncodeChar c, digits.length + 2) := by
  have hplus : ¬ ((d :: digits).map hexLower ++ rest).head? = some (byteOf '+') := fun h =>
    hexLower_ne_plus (hdigits d List.mem_cons_self) (Option.some.inj h)
  have hread := @hexEscape_char rest left c d digits hdigits hleft hvalue bad
  rw [unescapeUnicode, if_neg hplus]
  simp only [List.drop_zero, Nat.cast_zero, Int.sub_zero]
  rw [hread, Except.map, u.encodeChar_char, Nat.add_comm (1 + 0)]

/-- Two digits behind `\x`. -/
theorem switch_x (hlength : digits.length = 1) :
    unescapeSwitch u (byteOf 'x' :: ((d :: digits).map hexLower ++ rest)) left =
      .ok (String.utf8EncodeChar c, 3) := by
  have hread := @hexEscape_char rest left c d digits hdigits hleft hvalue .hexx
  rw [hlength] at hread
  rw [unescapeSwitch, iterate_ascii (by decide)]
  show (hexEscape .hexx 2 ((d :: digits).map hexLower ++ rest) (left - 1)).map _ = _
  rw [hread, Except.map, u.encodeChar_char]

/-- Four behind `\u`. -/
theorem switch_u (hlength : digits.length = 3) :
    unescapeSwitch u (byteOf 'u' :: ((d :: digits).map hexLower ++ rest)) left =
      .ok (String.utf8EncodeChar c, 5) := by
  have hread := @unescapeUnicode_char u rest left c d digits hdigits hleft hvalue .hexu
  rw [hlength] at hread
  rw [unescapeSwitch, iterate_ascii (by decide)]
  exact hread

/-- Six behind `\U`. -/
theorem switch_U (hlength : digits.length = 5) :
    unescapeSwitch u (byteOf 'U' :: ((d :: digits).map hexLower ++ rest)) left =
      .ok (String.utf8EncodeChar c, 7) := by
  have hread := @unescapeUnicode_char u rest left c d digits hdigits hleft hvalue .hexU
  rw [hlength] at hread
  rw [unescapeSwitch, iterate_ascii (by decide)]
  exact hread

end

theorem low_nibble (n : ℕ) : n &&& 0x0f = n % 16 := Nat.and_two_pow_sub_one_eq_mod _ 4

theorem turn_backslash {p : List UInt8} {out : List UInt8} {n : ℕ}
    (h : unescapeSwitch u p (left - 1) = .ok (out, n)) :
    unescapeTurn u (byteOf '\\' :: p) left = .ok (out, n + 1) := by
  rw [unescapeTurn, iterate_ascii (by decide)]
  show (unescapeSwitch u p (left - 1)).map _ = _
  rw [h, Except.map, Nat.add_comm]

theorem toNat_lt_max (c : Char) : c.toNat < 0x110000 := by
  have hvalid : c.toNat < 0xd800 ∨ 0xdfff < c.toNat ∧ c.toNat < 0x110000 := c.valid
  omega

/-- **An escaped character** is read back with all its bytes. -/
theorem turn_escapeCp {c : Char} (hleft : (escapeCp c.toNat).1.length ≤ left) :
    unescapeTurn u ((escapeCp c.toNat).1 ++ rest) left =
      .ok (String.utf8EncodeChar c, (escapeCp c.toNat).1.length) := by
  have hmax := toNat_lt_max c
  rw [escapeCp] at hleft ⊢
  cases hletter : escapeLetter c.toNat with
  | some letter =>
    obtain ⟨hascii, d, hd, rfl, hcase⟩ := escapeLetter_cases hletter
    refine turn_backslash ?_
    rw [utf8EncodeChar_ascii hascii]
    rcases hcase with ⟨rfl, hc⟩ | hread
    · rw [hc]
      exact switch_backslash
    · exact switch_letter hd hread
  | none =>
    simp only [hletter] at hleft ⊢
    by_cases hx : c.toNat ≤ 0x7f
    · rw [if_pos hx] at hleft ⊢
      simp only [List.length_cons, List.length_nil] at hleft
      refine turn_backslash (@switch_x u rest (left - 1) c (c.toNat >>> 4) [c.toNat &&& 0x0f]
        ?_ (by simp only [List.length_cons, List.length_nil]; omega) ?_ rfl)
      · simp only [low_nibble, Nat.shiftRight_eq_div_pow, List.forall_mem_cons]
        exact ⟨by omega, by omega, nofun⟩
      · simp only [low_nibble, Nat.shiftRight_eq_div_pow, List.foldl_cons, List.foldl_nil]
        rw [shift_or (by omega)]
        omega
    · rw [if_neg hx] at hleft ⊢
      by_cases hu : c.toNat < 0x10000
      · rw [if_pos hu] at hleft ⊢
        simp only [List.length_cons, List.length_nil] at hleft
        refine turn_backslash (@switch_u u rest (left - 1) c (c.toNat >>> 12)
          [c.toNat >>> 8 &&& 0x0f, c.toNat >>> 4 &&& 0x0f, c.toNat &&& 0x0f]
          ?_ (by simp only [List.length_cons, List.length_nil]; omega) ?_ rfl)
        · simp only [low_nibble, Nat.shiftRight_eq_div_pow, List.forall_mem_cons]
          exact ⟨by omega, by omega, by omega, by omega, nofun⟩
        · simp only [low_nibble, Nat.shiftRight_eq_div_pow, List.foldl_cons, List.foldl_nil]
          rw [shift_or (by omega), shift_or (by omega), shift_or (by omega)]
          omega
      · rw [if_neg hu] at hleft ⊢
        simp only [List.length_cons, List.length_nil] at hleft
        refine turn_backslash (@switch_U u rest (left - 1) c (c.toNat >>> 20)
          [c.toNat >>> 16 &&& 0x0f, c.toNat >>> 12 &&& 0x0f, c.toNat >>> 8 &&& 0x0f,
            c.toNat >>> 4 &&& 0x0f, c.toNat &&& 0x0f]
          ?_ (by simp only [List.length_cons, List.length_nil]; omega) ?_ rfl)
        · simp only [low_nibble, Nat.shiftRight_eq_div_pow, List.forall_mem_cons]
          exact ⟨by omega, by omega, by omega, by omega, by omega, by omega, nofun⟩
        · simp only [low_nibble, Nat.shiftRight_eq_div_pow, List.foldl_cons, List.foldl_nil]
          rw [shift_or (by omega), shift_or (by omega), shift_or (by omega), shift_or (by omega),
            shift_or (by omega)]
          omega

/-- A character that is not escaped is copied. -/
theorem turn_plain {c : Char} (hc : c ≠ '\\') :
    unescapeTurn u (String.utf8EncodeChar c ++ rest) left =
      .ok (String.utf8EncodeChar c, c.utf8Size) := by
  have hpos := c.utf8Size_pos
  have hne : (c.toNat : ℤ) ≠ '\\'.toNat := fun h =>
    hc (Char.toNat_inj.mp (Int.ofNat_inj.mp h))
  rw [unescapeTurn, u.iterate_char]
  simp only
  rw [if_neg (by omega), if_pos hne, Int.toNat_natCast, take_char]

/-- So every character is read back. -/
theorem turn_escaped {c : Char} (hleft : (escaped printable c).1.length ≤ left) :
    unescapeTurn u ((escaped printable c).1 ++ rest) left =
      .ok (String.utf8EncodeChar c, (escaped printable c).1.length) := by
  unfold escaped at hleft ⊢
  split at hleft
  next hescape =>
    rw [if_pos hescape]
    exact turn_escapeCp hleft
  next hescape =>
    rw [if_neg hescape, turn_plain, String.length_utf8EncodeChar]
    rintro rfl
    exact hescape (by simp [shouldEscape])

/-- **The loop** reads an escaped string back, with its codepoints counted. -/
theorem unescapeLoop_escaped {cs : List Char} {passes : ℕ} (hpasses : cs.length ≤ passes) :
    unescapeLoop u passes (escapedBytes printable cs ++ rest) (escapedBytes printable cs).length =
      .ok (utf8 cs, cs.length) := by
  induction cs generalizing passes with
  | nil =>
    cases passes with
    | zero => rfl
    | succ passes => rw [unescapeLoop, if_pos (by simp [escapedBytes])]; rfl
  | cons c cs ih =>
    cases passes with
    | zero => cases hpasses
    | succ passes =>
      have hbytes : escapedBytes printable (c :: cs) =
          (escaped printable c).1 ++ escapedBytes printable cs := List.flatMap_cons
      have hpos := @escaped_pos printable c
      have hturn := @turn_escaped u printable (escapedBytes printable cs ++ rest)
        (escapedBytes printable (c :: cs)).length c (by rw [hbytes, List.length_append]; omega)
      rw [unescapeLoop, if_neg (by rw [hbytes, List.length_append]; omega), hbytes,
        List.append_assoc, ← hbytes, hturn]
      show (unescapeLoop u passes
        (((escaped printable c).1 ++ (escapedBytes printable cs ++ rest)).drop _) _).bind _ = _
      rw [List.drop_left, hbytes, List.length_append, Nat.cast_add, add_sub_cancel_left,
        ih (Nat.le_of_succ_le_succ hpasses)]
      rfl

end

end N00b.Text
