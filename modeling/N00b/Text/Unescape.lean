import N00b.Text.Escape

/-!
# Escaping and back

What `n00b_string_unescape` makes of the result of `n00b_string_escape`.
-/

namespace N00b.Text

open N00b.Lib

/-- Escaping a string and reading it again gives its bytes and its number of characters, without an
error, and what is written fits what is allocated. -/
def EscapesBack (u : Utf8Codec) (printable : ℤ → Bool) (s : Str) : Prop :=
  ∃ num e r, countEscapes u.toUtf8Iterate printable s.u8Bytes s.mem s.u8Bytes = some num ∧
    escape u.toUtf8Iterate printable s = some e ∧ e.u8Bytes ≤ s.u8Bytes + 8 * num ∧
    unescape u e = .ok r ∧ r.bytes = s.bytes ∧ r.u8Bytes = s.u8Bytes ∧ r.codepoints = s.codepoints

/-- `n00b_string_unescape` finds out whether there is a backslash: its `data` is not NULL, and
behind the string there is a NUL or another character, or it is ASCII and nothing more is read
there. -/
def EndReads (s : Str) : Prop :=
  s.after ≠ [] ∧ (s.after.head? = some 0 ∨ s.codepoints = s.u8Bytes ∨ Reads s.after 1)

/-- The strings that come back: nothing is escaped, and one can tell, or the length of the
allocation is an `int`. -/
def EscapeKept (printable : ℤ → Bool) (s : Str) : Prop :=
  if numEscapes printable s.chars = 0 then EndReads s
  else s.u8Bytes + 8 * numEscapes printable s.chars < 2 ^ 31

section

variable {u : Utf8Codec} {printable : ℤ → Bool} {s : Str}

/-- The escapes of a string are counted. -/
theorem countEscapes_str :
    countEscapes u.toUtf8Iterate printable s.u8Bytes s.mem s.u8Bytes =
      some (numEscapes printable s.chars) :=
  countEscapes_chars (length_le_utf8 s.chars)

/-- Escaping gives the string itself, fails for a length beyond 2^31, or gives the escaped bytes. -/
theorem escape_eq :
    escape u.toUtf8Iterate printable s =
      if numEscapes printable s.chars = 0 then some s.stringT
      else if 2 ^ 31 ≤ s.u8Bytes + 8 * numEscapes printable s.chars then none
      else
        some ⟨escapedBytes printable s.chars,
          List.replicate
            (s.u8Bytes + 8 * numEscapes printable s.chars + 1 -
              (escapedBytes printable s.chars).length) 0,
          (s.chars.map fun c => (escaped printable c).2).sum⟩ := by
  have hloop := @escapeLoop_chars u.toUtf8Iterate printable s.after s.chars s.u8Bytes
    (length_le_utf8 s.chars)
  unfold escape
  simp only [Str.stringT_u8Bytes, Str.stringT_mem, countEscapes_str, Option.bind_eq_bind,
    Option.bind_some]
  rw [Str.mem, Str.bytes, show (s.u8Bytes : ℤ) = (utf8 s.chars).length from rfl, hloop]
  rfl

/-- A string whose escaped length is too large does not come back. -/
theorem not_escapesBack (hnum : numEscapes printable s.chars ≠ 0)
    (halen : 2 ^ 31 ≤ s.u8Bytes + 8 * numEscapes printable s.chars) :
    ¬ EscapesBack u printable s := by
  rintro ⟨num, e, r, -, he, -⟩
  rw [escape_eq, if_neg hnum, if_pos halen] at he
  cases he

/-- The stop -1 is the end. -/
theorem normStop_end (strcp : ℕ) : normStop strcp (-1) = strcp := by
  unfold normStop
  rw [if_pos (by omega)]
  omega

/-- A search through all the string ends iff the string is ASCII or what lies behind it can be read.
-/
theorem findBase_all_iff {sub : Str} (hsub : sub.chars ≠ []) :
    (∃ r, findBase u.toUtf8Iterate s sub 0 (-1) = some r) ↔
      s.codepoints = s.u8Bytes ∨ Reads s.after 1 := by
  have hstart : normStart s.codepoints 0 = 0 := rfl
  have hstop := normStop_end s.codepoints
  have hone : (max (normStart s.codepoints 0) (min (normStop s.codepoints (-1)) s.codepoints + 1)
      - s.codepoints).toNat = 1 := by
    rw [hstart, hstop]
    omega
  rcases Nat.eq_zero_or_pos s.codepoints with hzero | hpos
  · refine iff_of_true ⟨-1, findBase_empty (by omega) (by omega)⟩ (.inl ?_)
    exact ascii_of_nil (List.eq_nil_of_length_eq_zero hzero)
  · by_cases hascii : s.codepoints = s.u8Bytes
    · obtain ⟨r, hr, -⟩ := @find_ascii s sub 0 (-1) u.toUtf8Iterate hascii (by omega) (by omega) hsub
      exact iff_of_true ⟨r, hr⟩ (.inl hascii)
    · rw [or_iff_right hascii]
      constructor
      · rintro ⟨r, hr⟩
        have hreads := reads_of_find hascii (by omega) (by omega) hsub hr
        rwa [hone] at hreads
      · intro hreads
        obtain ⟨r, hr, -⟩ := @find_utf8 s sub 0 (-1) u.toUtf8Iterate hascii (by omega) (by omega)
          hsub (by rwa [hone])
        exact ⟨r, hr⟩

/-- The search for a backslash ends iff the end of the string can be read. -/
theorem findsBackslash_iff : (∃ found, findsBackslash u s = .ok found) ↔ EndReads s := by
  have hfind := @findBase_all_iff u s (Str.new ['\\']) (List.cons_ne_nil _ _)
  unfold findsBackslash EndReads
  rw [← hfind]
  split
  next hafter =>
    have hafter : s.after = [] := hafter
    simp [hafter]
  next hafter =>
    have hafter : s.after = 0 :: _ := hafter
    exact iff_of_true ⟨_, rfl⟩ ⟨by simp [hafter], .inl (by rw [hafter]; rfl)⟩
  next b _ hb hafter =>
    have hafter : s.after = b :: _ := hafter
    have hzero : ¬ s.after.head? = some 0 := by
      rw [hafter, List.head?_cons, Option.some.injEq]
      exact hb
    rw [and_iff_right (by simp [hafter]), or_iff_right hzero]
    cases findBase u.toUtf8Iterate s (Str.new ['\\']) 0 (-1) with
    | none => simp
    | some r => exact iff_of_true ⟨_, rfl⟩ ⟨r, rfl⟩

/-- Without escapes the escaped bytes are the string's. -/
theorem escapedBytes_of_none {cs : List Char} (h : numEscapes printable cs = 0) :
    escapedBytes printable cs = utf8 cs := by
  unfold numEscapes at h
  rw [List.countP_eq_zero] at h
  unfold escapedBytes utf8
  refine List.flatMap_congr fun c hc => ?_
  rw [escaped, if_neg (h c hc)]

/-- An escaped text holds a backslash before its first zero byte. -/
theorem mem_takeWhile_escaped {cs : List Char} (hsane : '\x00' ∉ cs)
    (hnum : numEscapes printable cs ≠ 0) (rest : List UInt8) :
    byteOf '\\' ∈ (escapedBytes printable cs ++ rest).takeWhile (· ≠ 0) := by
  induction cs with
  | nil => exact absurd rfl hnum
  | cons c cs ih =>
    obtain ⟨hc, hcs⟩ := not_or.mp (mt List.mem_cons.mpr hsane)
    have hbytes : escapedBytes printable (c :: cs) =
        (escaped printable c).1 ++ escapedBytes printable cs := List.flatMap_cons
    rw [hbytes, List.append_assoc]
    unfold escaped
    split
    · -- it is escaped, which begins with the backslash
      obtain ⟨more, hmore⟩ := escapeCp_head (c.toNat : ℤ).toNat
      rw [Int.toNat_natCast] at hmore
      rw [hmore, List.cons_append, List.takeWhile_cons_of_pos (by decide)]
      exact List.mem_cons_self
    next hplain =>
      have hpos : ∀ b ∈ String.utf8EncodeChar c, decide (b ≠ 0) = true := by
        intro b hb
        rw [decide_eq_true_iff]
        rintro rfl
        have hmem := (@mem_utf8 '\x00' (by decide) [c]).mp (by rwa [utf8_singleton])
        exact hc (List.mem_singleton.mp hmem)
      rw [List.takeWhile_append_of_pos hpos]
      refine List.mem_append_right _ (ih hcs ?_)
      simpa only [numEscapes, List.countP_cons, if_neg hplain, Nat.add_zero] using hnum

/-- Unescaping a text with a backslash gives the string back. -/
theorem unescape_found {e : StringT} (hfound : findsBackslash u e = .ok true)
    (hbytes : e.bytes = escapedBytes printable s.chars) :
    unescape u e =
      .ok ⟨s.bytes, List.replicate (e.u8Bytes + 1 - s.bytes.length) 0, s.codepoints⟩ := by
  have hlength := @length_le_escaped printable s.chars
  have hloop := @unescapeLoop_escaped u printable e.after s.chars e.u8Bytes
    (by rw [StringT.u8Bytes, hbytes]; exact hlength)
  rw [← hbytes] at hloop
  rw [unescape, hfound]
  show (unescapeLoop u e.u8Bytes e.mem e.u8Bytes).bind _ = _
  rw [show unescapeLoop u e.u8Bytes e.mem e.u8Bytes = .ok (utf8 s.chars, s.chars.length) from hloop]
  rfl

/-- Unescaping a text without a backslash gives it unchanged. -/
theorem unescape_none {e : StringT} (hfound : findsBackslash u e = .ok false) :
    unescape u e = .ok e := by
  rw [unescape, hfound]
  rfl

/-- A string without escapes comes back iff its end can be read. -/
theorem unescape_plain_iff (hnum : numEscapes printable s.chars = 0) :
    (∃ r, unescape u s = .ok r ∧ r.bytes = s.bytes ∧ r.codepoints = s.codepoints) ↔ EndReads s := by
  rw [← @findsBackslash_iff u s]
  constructor
  · rintro ⟨r, hr, -⟩
    cases hfound : findsBackslash u s with
    | error e =>
      rw [unescape, hfound] at hr
      cases hr
    | ok found => exact ⟨found, rfl⟩
  · rintro ⟨found, hfound⟩
    cases found with
    | false => exact ⟨s, unescape_none hfound, rfl, rfl⟩
    | true => exact ⟨_, unescape_found hfound (escapedBytes_of_none hnum).symm, rfl, rfl⟩

/-- A string without escapes makes the round trip iff its end can be read. -/
theorem escapesBack_of_plain (hnum : numEscapes printable s.chars = 0) :
    EscapesBack u printable s ↔ EndReads s := by
  have hescape : escape u.toUtf8Iterate printable s = some s.stringT := by
    rw [escape_eq, if_pos hnum]
  rw [← @unescape_plain_iff u printable s hnum]
  constructor
  · rintro ⟨num, e, r, -, he, -, hr, hbytes, -, hcodepoints⟩
    obtain rfl : s.stringT = e := by rwa [hescape, Option.some.injEq] at he
    exact ⟨r, hr, hbytes, hcodepoints⟩
  · rintro ⟨r, hr, hbytes, hcodepoints⟩
    exact ⟨_, s, r, countEscapes_str, hescape, Nat.le_add_right _ _, hr, hbytes,
      congrArg List.length hbytes, hcodepoints⟩

/-- A string with escapes that fit makes the round trip. -/
theorem escapesBack_of_fits (hsane : '\x00' ∉ s.chars) (hnum : numEscapes printable s.chars ≠ 0)
    (halen : s.u8Bytes + 8 * numEscapes printable s.chars < 2 ^ 31) : EscapesBack u printable s := by
  have hfits := @escape_length printable s.chars
  refine ⟨_, ⟨escapedBytes printable s.chars, _, _⟩, _, countEscapes_str,
    by rw [escape_eq, if_neg hnum, if_neg (by omega)], hfits, unescape_found ?_ rfl, rfl, rfl, rfl⟩
  -- there is a NUL behind what is written
  have hzeros : s.u8Bytes + 8 * numEscapes printable s.chars + 1 -
      (escapedBytes printable s.chars).length =
        s.u8Bytes + 8 * numEscapes printable s.chars - (escapedBytes printable s.chars).length + 1 :=
    Nat.sub_add_comm hfits
  rw [findsBackslash, hzeros, List.replicate_succ]
  refine congrArg Except.ok (List.contains_iff_mem.mpr ?_)
  exact mem_takeWhile_escaped hsane hnum _

/-- The string of `n00b_string_empty` is escaped to itself, and crashes. -/
theorem not_escapesBack_empty : ¬ EscapesBack u printable ⟨[], []⟩ := by
  rw [escapesBack_of_plain rfl]
  rintro ⟨hafter, -⟩
  exact hafter rfl

/-- **Escaping and back** gives the string, just if the length of the allocation does not overflow,
or nothing is escaped and one can tell. -/
theorem escape_iff (u : Utf8Codec) (printable : ℤ → Bool) (s : Str) (hsane : '\x00' ∉ s.chars) :
    EscapesBack u printable s ↔ EscapeKept printable s := by
  unfold EscapeKept
  split
  next hnum => exact escapesBack_of_plain hnum
  next hnum =>
    constructor
    · intro h
      by_contra halen
      exact not_escapesBack hnum (Nat.le_of_not_lt halen) h
    · exact escapesBack_of_fits hsane hnum

/-- An accent and a line end, of which the latter is escaped. -/
theorem escape_iff_newline :
    '\x00' ∉ (Str.new ['é', '\n']).chars ∧
      (EscapesBack utf8CodecSpec (fun cp => 0x20 ≤ cp) (Str.new ['é', '\n']) ↔
        EscapeKept (fun cp => 0x20 ≤ cp) (Str.new ['é', '\n'])) :=
  ⟨by decide, escape_iff _ _ _ (by decide)⟩

theorem numEscapes_replicate {c : Char} (hc : shouldEscape printable c.toNat = true) (n : ℕ) :
    numEscapes printable (List.replicate n c) = n := by
  rw [numEscapes, List.countP_replicate, if_pos hc]

/-- Line ends, for which 9 bytes each are too many for an `int`. -/
theorem not_escape :
    ¬ ∀ (u : Utf8Codec) (printable : ℤ → Bool) (s : Str), '\x00' ∉ s.chars →
      EscapesBack u printable s := by
  intro h
  have hnum : numEscapes (fun cp => 0x20 ≤ cp) (Str.new (List.replicate 238609295 '\n')).chars =
      238609295 := numEscapes_replicate (by decide) _
  have hlength : 238609295 ≤ (Str.new (List.replicate 238609295 '\n')).u8Bytes := by
    have hle := length_le_utf8 (List.replicate 238609295 '\n')
    rwa [List.length_replicate] at hle
  refine not_escapesBack (by omega) (by omega)
    (h utf8CodecSpec (fun cp => 0x20 ≤ cp) (Str.new (List.replicate 238609295 '\n')) fun hmem => ?_)
  exact absurd (List.eq_of_mem_replicate hmem) (by decide)

end

end N00b.Text
