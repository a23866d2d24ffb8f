import Mathlib

/-!
# The bytes of characters

What a reader needs that walks through UTF-8: which bytes a character can have, where characters begin
in front of other bytes, and which code point is read.

## Main results

* `mem_utf8`: an ASCII byte is in a text just if its character is.
* `utf8_prefix_iff`: the bytes of characters are in front of others just if the characters are.
-/

namespace N00b.Lib

/-- The bytes of characters. -/
def utf8 (cs : List Char) : List UInt8 := cs.flatMap String.utf8EncodeChar

@[simp] theorem utf8_nil : utf8 [] = [] := rfl

theorem utf8_cons (c : Char) (cs : List Char) : utf8 (c :: cs) = String.utf8EncodeChar c ++ utf8 cs :=
  List.flatMap_cons

theorem utf8_singleton (c : Char) : utf8 [c] = String.utf8EncodeChar c := by
  simp [utf8_cons]

@[simp] theorem utf8_append (l m : List Char) : utf8 (l ++ m) = utf8 l ++ utf8 m :=
  List.flatMap_append

theorem length_utf8_cons (c : Char) (cs : List Char) :
    (utf8 (c :: cs)).length = c.utf8Size + (utf8 cs).length := by
  rw [utf8_cons, List.length_append, String.length_utf8EncodeChar]

theorem length_le_utf8 (cs : List Char) : cs.length ≤ (utf8 cs).length := by
  induction cs with
  | nil => rfl
  | cons c cs ih =>
    have hpos := c.utf8Size_pos
    rw [length_utf8_cons, List.length_cons]
    omega

/-! ## The bytes of a character -/

theorem toNat_ofNat_ascii {n : ℕ} (h : n < 0x80) : (UInt8.ofNat n).toNat = n :=
  UInt8.toNat_ofNat_of_lt' (h.trans (by decide))

theorem utf8EncodeChar_ascii {c : Char} (h : c.toNat < 0x80) :
    String.utf8EncodeChar c = [UInt8.ofNat c.toNat] := by
  unfold String.utf8EncodeChar
  exact if_pos (Nat.le_of_lt_succ h)

theorem utf8Size_ascii {c : Char} (h : c.toNat < 0x80) : c.utf8Size = 1 := by
  rw [← String.length_utf8EncodeChar, utf8EncodeChar_ascii h]
  rfl

theorem le_of_mem_utf8EncodeChar {c : Char} (h : 0x80 ≤ c.toNat) {b : UInt8}
    (hb : b ∈ String.utf8EncodeChar c) : 0x80 ≤ b.toNat := by
  have hbyte : ∀ n : ℕ, (0x80 ≤ n ∧ n < 0x100) → 0x80 ≤ (UInt8.ofNat n).toNat := by
    intro n hn
    rw [UInt8.toNat_ofNat_of_lt' hn.2]
    exact hn.1
  unfold String.utf8EncodeChar at hb
  have hnat : c.val.toNat = c.toNat := rfl
  simp only [hnat] at hb
  rw [if_neg (by omega)] at hb
  split_ifs at hb
  all_goals
    simp only [List.mem_cons, List.not_mem_nil, or_false] at hb
    rcases hb with rfl | rfl | rfl | rfl <;> exact hbyte _ (by omega)

theorem mem_utf8 {a : Char} (ha : a.toNat < 0x80) {cs : List Char} :
    UInt8.ofNat a.toNat ∈ utf8 cs ↔ a ∈ cs := by
  rw [utf8, List.mem_flatMap]
  constructor
  · rintro ⟨c, hc, hbyte⟩
    by_cases hascii : c.toNat < 0x80
    · rw [utf8EncodeChar_ascii hascii, List.mem_singleton, ← UInt8.toNat_inj,
        toNat_ofNat_ascii ha, toNat_ofNat_ascii hascii] at hbyte
      rwa [Char.toNat_inj.mp hbyte]
    · have hle := le_of_mem_utf8EncodeChar (Nat.le_of_not_lt hascii) hbyte
      rw [toNat_ofNat_ascii ha] at hle
      omega
  · intro h
    refine ⟨a, h, ?_⟩
    rw [utf8EncodeChar_ascii ha]
    exact List.mem_singleton_self _

/-- **There is one way to split a character off.** -/
theorem utf8EncodeChar_append_inj {c d : Char} {l m : List UInt8}
    (h : String.utf8EncodeChar c ++ l = String.utf8EncodeChar d ++ m) : c = d ∧ l = m := by
  have hdecode := congrArg (fun bytes => bytes.toByteArray.utf8DecodeChar? 0) h
  simp only [List.toByteArray_append, ByteArray.utf8DecodeChar?_utf8EncodeChar_append,
    Option.some.injEq] at hdecode
  subst hdecode
  exact ⟨rfl, List.append_cancel_left h⟩

theorem utf8EncodeChar_or (bytes : List UInt8) :
    (∃ c more, bytes = String.utf8EncodeChar c ++ more) ∨
      ∀ c more, bytes ≠ String.utf8EncodeChar c ++ more := by
  by_cases h : ∃ c more, bytes = String.utf8EncodeChar c ++ more
  · exact .inl h
  · exact .inr fun c more heq => h ⟨c, more, heq⟩

/-- **The bytes of characters** are in front of others just if the characters are. -/
theorem utf8_prefix_iff {l m : List Char} (h : l.length ≤ m.length) (rest : List UInt8) :
    utf8 l <+: utf8 m ++ rest ↔ l <+: m := by
  constructor
  · intro hprefix
    induction l generalizing m with
    | nil => exact List.nil_prefix
    | cons c l ih =>
      cases m with
      | nil => simp at h
      | cons d m =>
        obtain ⟨more, hmore⟩ := hprefix
        rw [utf8_cons, utf8_cons, List.append_assoc, List.append_assoc] at hmore
        obtain ⟨rfl, hrest⟩ := utf8EncodeChar_append_inj hmore
        exact List.cons_prefix_cons.mpr ⟨rfl, ih (Nat.le_of_succ_le_succ h) ⟨more, hrest⟩⟩
  · rintro ⟨m', rfl⟩
    rw [utf8_append, List.append_assoc]
    exact List.prefix_append _ _

/-! ## Code points -/

def decodeUtf8 (bytes : List UInt8) : ℤ × ℤ :=
  match bytes.toByteArray.utf8DecodeChar? 0 with
  | some c => (c.utf8Size, c.toNat)
  | none => (-1, -1)

theorem decodeUtf8_char (c : Char) (more : List UInt8) :
    decodeUtf8 ((String.utf8EncodeChar c ++ more).take 4) = ((c.utf8Size : ℤ), (c.toNat : ℤ)) := by
  have hle : (String.utf8EncodeChar c).length ≤ 4 := by
    rw [String.length_utf8EncodeChar]
    exact c.utf8Size_le_four
  unfold decodeUtf8
  rw [List.take_append, List.take_of_length_le hle, List.toByteArray_append,
    ByteArray.utf8DecodeChar?_utf8EncodeChar_append]

theorem decodeUtf8_none {bytes : List UInt8}
    (h : ∀ c more, bytes ≠ String.utf8EncodeChar c ++ more) : (decodeUtf8 (bytes.take 4)).1 < 0 := by
  unfold decodeUtf8
  cases hc : (bytes.take 4).toByteArray.utf8DecodeChar? 0 with
  | none => decide
  | some c =>
    obtain ⟨more, hmore⟩ := ByteArray.exists_of_utf8DecodeChar?_eq_some hc
    refine absurd ?_ (h c (more.data.toList ++ bytes.drop 4))
    have htake : bytes.take 4 = String.utf8EncodeChar c ++ more.data.toList := by
      have := congrArg (fun b => b.data.toList) hmore
      simpa using this
    rw [← List.append_assoc, ← htake, List.take_append_drop]

/-- The bytes of a code point. -/
def encodeCp (cp : ℤ) : List UInt8 := String.utf8EncodeChar (Char.ofNat cp.toNat)

theorem encodeCp_char (c : Char) : encodeCp c.toNat = String.utf8EncodeChar c := by
  rw [encodeCp, Int.toNat_natCast, Char.ofNat_toNat]

end N00b.Lib
