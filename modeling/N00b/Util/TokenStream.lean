import Mathlib

/-!
# Tokens of strings

`n00b_parser_load_token` of util/grammar.nc, with its two ways to get tokens from text:
`n00b_token_stream_strings`, which takes them from a list of strings, and
`n00b_token_stream_codepoints`, which takes them from one string. The latter reads the UTF-8 text of
its string four bytes at a time.

## Representation

* A string has the codepoints that it stands for, and the memory from `data` on, of which the text
  is only the start.
* A tokenizer returns the id and what `token_cache` is afterwards.
* No result stands for an exception, and for a field of a null pointer.

## Main results

* `tokenStreamStrings_ids`: the ids from the one-codepoint substrings.
-/

namespace N00b.Util

def utf8 (chars : List Char) : List UInt8 := chars.flatMap String.utf8EncodeChar

def codepoint (c : Char) : ℤ := c.val.toNat

/-- `n00b_string_t`: `codepoints` is the number of `chars`, and `u8_bytes` that of their bytes. -/
structure NString where
  chars : List Char
  memory : ℕ → UInt8
  u32Data : Option (List ℤ)
  text : ∀ i b, (utf8 chars)[i]? = some b → memory i = b
  u32 : ∀ us, u32Data = some us → us = chars.map codepoint

namespace NString

def u8Bytes (s : NString) : ℕ := (utf8 s.chars).length

/-- `n00b_string_to_codepoint_array`. -/
def toCodepointArray (s : NString) : List ℤ := s.u32Data.getD (s.chars.map codepoint)

/-- `n00b_string_index`, with `u32_required`. A `char` has a sign. -/
def index (s : NString) (n : ℤ) : Option ℤ :=
  let n := if n < 0 then n + s.chars.length else n
  if n < 0 ∨ s.chars.length ≤ n then none
  else if s.u32Data = none ∧ s.chars.length = s.u8Bytes then
    some (Int.bmod (s.memory n.toNat).toNat 256)
  else s.toCodepointArray[n.toNat]?

end NString

/-- A new string, with zeros behind its text. -/
def NString.ofChars (chars : List Char) : NString where
  chars
  memory i := (utf8 chars)[i]?.getD 0
  u32Data := none
  text _ _ h := congrArg (Option.getD · 0) h
  u32 := nofun

/-! ## The parser's tokens -/

/-- `N00B_TOK_EOF`. -/
def tokEof : ℤ := -1

/-- `N00B_TOK_OTHER`. -/
def tokOther : ℤ := -3

/-- `N00B_START_TOK_ID`. -/
def startTokId : ℤ := 0x40000000

/-- `n00b_token_info_t`, with the text of its value. -/
structure TokenInfo where
  value : Option (List Char)
  tid : ℤ
  index : ℤ
  line : ℤ
  column : ℤ
deriving DecidableEq, Repr

/-- What of a grammar is asked for by the tokenizers: the values of `named_terms`, and the ids of
`terminal_map`, zero for a string that is not in it. -/
structure Terminals where
  namedTerms : List (Option (List Char))
  terminalMap : List Char → ℤ

/-- What `n00b_parser_load_token` reads and writes of `n00b_parser_t`. -/
structure TokenParser where
  position : ℕ
  preloadedTokens : Option (List TokenInfo)
  tokenCache : Option (List Char)
  currentLine : ℤ
  currentColumn : ℤ
  ignoreEscapedNewlines : Bool
deriving DecidableEq, Repr

/-- `n00b_tokenizer_fn`. -/
abbrev Tokenizer := TokenParser → Option (ℤ × Option (List Char))

/-- Four bytes as an `n00b_codepoint_t`, the lowest first. -/
def wordOf (b0 b1 b2 b3 : UInt8) : ℤ :=
  Int.bmod (b0.toNat + 256 * b1.toNat + 65536 * b2.toNat + 16777216 * b3.toNat) 4294967296

/-- The element of an `n00b_codepoint_t` array at `data`. -/
def NString.word (s : NString) (position : ℕ) : ℤ :=
  wordOf (s.memory (4 * position)) (s.memory (4 * position + 1)) (s.memory (4 * position + 2))
    (s.memory (4 * position + 3))

/-- `n00b_token_stream_codepoints`. -/
def tokenStreamCodepoints (str : NString) : Tokenizer := fun parser =>
  if str.chars.length ≤ parser.position then some (tokEof, parser.tokenCache)
  else some (str.word parser.position, parser.tokenCache)

/-- `n00b_token_stream_strings`. -/
def tokenStreamStrings (g : Terminals) (list : List (Option NString)) : Tokenizer := fun parser =>
  match list[parser.position]?.join with
  | none => some (tokEof, parser.tokenCache)
  | some value =>
    if value.chars.length = 1 then (value.index 0).map fun id => (id, parser.tokenCache)
    else
      let n := g.terminalMap value.chars
      if n ≠ 0 then some (n, some value.chars) else some (tokOther, some value.chars)

/-- `count_newlines`: the newlines, and the place of the last one. -/
def countNewlines (ignoreEscaped : Bool) (i : ℕ) : List Char → ℕ × ℕ → ℕ × ℕ
  | [], found => found
  | [c], found => if c = '\n' then (found.1 + 1, i) else found
  | c :: d :: rest, found =>
    if c = Char.ofNat 92 then
      if ignoreEscaped then countNewlines ignoreEscaped (i + 2) rest found
      else countNewlines ignoreEscaped (i + 1) (d :: rest) found
    else countNewlines ignoreEscaped (i + 1) (d :: rest)
      (if c = '\n' then (found.1 + 1, i) else found)

/-- `n00b_string_from_codepoint`. It encodes a surrogate, which the count of the newlines then does
not decode. -/
def stringFromCodepoint (cp : ℤ) : Option (List Char) :=
  if 0 ≤ cp ∧ cp.toNat.isValidChar then some [Char.ofNat cp.toNat] else none

def tokenValue (g : Terminals) (tid : ℤ) (tokenCache : Option (List Char)) :
    Option (Option (List Char)) :=
  if tid = tokOther then some tokenCache
  else if tid < startTokId then (stringFromCodepoint tid).map some
  else g.namedTerms[(tid - startTokId).toNat]?.map fun value => value.orElse fun _ => tokenCache

def TokenParser.advance (parser : TokenParser) (value : List Char) : TokenParser :=
  let found := countNewlines parser.ignoreEscapedNewlines 0 value (0, 0)
  if found.1 ≠ 0 then
    { parser with
      currentLine := parser.currentLine + found.1
      currentColumn := value.length - found.2 + 1 }
  else { parser with currentColumn := parser.currentColumn + value.length }

/-- `n00b_parser_load_token`: the token of a state, and the parser. -/
def loadToken (g : Terminals) (tokenizer : Tokenizer) (stateId : ℤ) (parser : TokenParser) :
    Option (TokenInfo × TokenParser) :=
  match parser.preloadedTokens with
  | some toks =>
    let tok := toks[parser.position]?.getD
      { value := none, tid := tokEof, index := 0, line := 0, column := 0 }
    some ({ tok with index := stateId }, parser)
  | none =>
    (tokenizer { parser with tokenCache := none }).bind fun r =>
      let parser := { parser with tokenCache := r.2 }
      let tok : TokenInfo :=
        { value := none, tid := r.1, index := stateId, line := parser.currentLine,
          column := parser.currentColumn }
      if r.1 = tokEof then some (tok, parser)
      else (tokenValue g r.1 r.2).map fun value =>
        ({ tok with value }, match value with
          | none | some [] => parser
          | some text => parser.advance text)

/-! ## What the ids should be -/

def codepointIds (chars : List Char) (position : ℕ) : ℤ :=
  (chars[position]?.map codepoint).getD tokEof

/-- The parser, without preloaded tokens, gets the ids at its positions. -/
def GetsIds (g : Terminals) (tokenizer : Tokenizer) (ids : ℕ → ℤ) : Prop :=
  ∀ stateId parser, parser.preloadedTokens = none →
    ∃ r, loadToken g tokenizer stateId parser = some r ∧ r.1.tid = ids parser.position

def OneCodepointEach (list : List (Option NString)) (chars : List Char) : Prop :=
  list.map (Option.map NString.chars) = chars.map fun c => some [c]

/-- **Strings whose text is read as it should be**: the empty one, and one ASCII character before
null characters, with zeros in the memory behind them. -/
def NString.ReadAsWords (s : NString) : Prop :=
  s.chars = [] ∨
    (∃ c n, s.chars = c :: List.replicate n (Char.ofNat 0) ∧ c.val.toNat < 128) ∧
      ∀ i, s.chars.length ≤ i → i < 4 * s.chars.length → s.memory i = 0

/-! ## Bytes of codepoints -/

@[simp]
theorem utf8_nil : utf8 [] = [] := rfl

theorem utf8_cons (c : Char) (rest : List Char) :
    utf8 (c :: rest) = String.utf8EncodeChar c ++ utf8 rest := rfl

theorem utf8EncodeChar_ascii {c : Char} (h : c.val.toNat < 128) :
    String.utf8EncodeChar c = [UInt8.ofNat c.val.toNat] := by
  rw [String.utf8EncodeChar]
  exact if_pos (by omega)

theorem codepoint_nonneg (c : Char) : 0 ≤ codepoint c := Int.natCast_nonneg _

/-- A character beyond ASCII takes two to four bytes, whose last is not ASCII. -/
theorem utf8EncodeChar_long {c : Char} (h : 128 ≤ c.val.toNat) :
    ∃ b bs, String.utf8EncodeChar c = b :: bs ∧ b ≠ 0 ∧
      ((∃ b1, bs = [b1] ∧ 128 ≤ b1.toNat ∧ c.val.toNat < 0x800) ∨
        (∃ b1 b2, bs = [b1, b2] ∧ 128 ≤ b2.toNat ∧ c.val.toNat < 0x10000) ∨
        (∃ b1 b2 b3, bs = [b1, b2, b3] ∧ 128 ≤ b3.toNat)) := by
  have hne : ∀ n : ℕ, 1 ≤ n → n < 256 → UInt8.ofNat n ≠ 0 := by
    intro n hpos hlt heq
    have hmod := congrArg UInt8.toNat heq
    rw [UInt8.toNat_ofNat', Nat.mod_eq_of_lt hlt] at hmod
    simp at hmod
    omega
  have hhigh : ∀ n : ℕ, 128 ≤ (UInt8.ofNat (n % 0x40 + 0x80)).toNat := by
    intro n
    rw [UInt8.toNat_ofNat']
    omega
  rw [String.utf8EncodeChar]
  simp only [if_neg (show ¬ c.val.toNat ≤ 0x7f by omega)]
  by_cases h2 : c.val.toNat ≤ 0x7ff
  · rw [if_pos h2]
    exact ⟨_, _, rfl, hne _ (by omega) (by omega), .inl ⟨_, rfl, hhigh _, by omega⟩⟩
  rw [if_neg h2]
  by_cases h3 : c.val.toNat ≤ 0xffff
  · rw [if_pos h3]
    exact ⟨_, _, rfl, hne _ (by omega) (by omega), .inr (.inl ⟨_, _, rfl, hhigh _, by omega⟩)⟩
  · rw [if_neg h3]
    exact ⟨_, _, rfl, hne _ (by omega) (by omega), .inr (.inr ⟨_, _, _, rfl, hhigh _⟩)⟩

/-- Characters encoded by zero bytes are null characters. -/
theorem null_of_zeros {rest : List Char} {t : ℕ}
    (h : ∀ i b, i < t → (utf8 rest)[i]? = some b → b = 0) :
    ∀ c ∈ rest.take t, c = Char.ofNat 0 := by
  induction rest generalizing t with
  | nil => simp
  | cons c rest ih =>
    cases t with
    | zero => simp
    | succ t =>
      by_cases hc : c.val.toNat < 128
      · rw [utf8_cons, utf8EncodeChar_ascii hc] at h
        have hzero := h 0 _ (Nat.succ_pos t) rfl
        have hnull : c = Char.ofNat 0 := by
          have hval : c.val.toNat = 0 := by
            have hmod := congrArg UInt8.toNat hzero
            rw [UInt8.toNat_ofNat', Nat.mod_eq_of_lt (by omega)] at hmod
            exact hmod
          exact Char.toNat_inj.mp hval
        rw [List.take_succ_cons, List.forall_mem_cons]
        exact ⟨hnull, ih fun i b hi hb => h (i + 1) b (by omega) hb⟩
      · obtain ⟨b, bs, hbytes, hb, -⟩ := utf8EncodeChar_long (c := c) (by omega)
        rw [utf8_cons, hbytes] at h
        exact absurd (h 0 b (Nat.succ_pos t) rfl) hb

/-! ## Words -/

/-- Four bytes read as a signed word give a number below 2^31 iff they are its digits. -/
theorem wordOf_eq_iff (b0 b1 b2 b3 : UInt8) (n : ℕ) :
    wordOf b0 b1 b2 b3 = n ↔
      b0.toNat + 256 * b1.toNat + 65536 * b2.toNat + 16777216 * b3.toNat = n ∧
        n < 2147483648 := by
  have h0 := b0.toNat_lt
  have h1 := b1.toNat_lt
  have h2 := b2.toNat_lt
  have h3 := b3.toNat_lt
  unfold wordOf
  rw [Int.bmod_def]
  generalize b0.toNat = b0 at *
  generalize b1.toNat = b1 at *
  generalize b2.toNat = b2 at *
  generalize b3.toNat = b3 at *
  push_cast
  split <;> omega

namespace NString

/-- A word is an ASCII codepoint iff its first byte is and the others are zero. -/
theorem word_eq_iff (s : NString) (position : ℕ) {n : ℕ} (hn : n < 128) :
    s.word position = n ↔ (s.memory (4 * position)).toNat = n ∧
      ∀ i, 1 ≤ i → i < 4 → s.memory (4 * position + i) = 0 := by
  rw [word, wordOf_eq_iff]
  constructor
  · rintro ⟨hsum, -⟩
    refine ⟨by omega, fun i hi hlt => UInt8.toNat_inj.mp ?_⟩
    rw [UInt8.toNat_zero]
    interval_cases i
    all_goals omega
  · rintro ⟨hbyte, h⟩
    rw [h 1 le_rfl (by omega), h 2 (by omega) (by omega), h 3 (by omega) (by omega), hbyte,
      UInt8.toNat_zero]
    omega

variable {s : NString} {rest : List Char} {c : Char}

/-- The first word of a text that starts beyond ASCII is not its first codepoint. -/
theorem word_zero_ne_of_long (hs : s.chars = c :: rest)
    (hc : 128 ≤ c.val.toNat) : s.word 0 ≠ codepoint c := by
  have hmemory : ∀ i b, (String.utf8EncodeChar c)[i]? = some b → s.memory i = b := by
    intro i b hb
    refine s.text i b ?_
    rw [hs, utf8_cons, List.getElem?_append_left (List.getElem?_eq_some_iff.mp hb).1]
    exact hb
  obtain ⟨b, bs, hbytes, -, hshape⟩ := utf8EncodeChar_long hc
  rw [hbytes] at hmemory
  unfold codepoint
  rw [Ne, word, wordOf_eq_iff]
  rintro ⟨hsum, hlt⟩
  rcases hshape with ⟨b1, rfl, hb1, hlt⟩ | ⟨b1, b2, rfl, hb2, hlt⟩ | ⟨b1, b2, b3, rfl, hb3⟩
  · rw [hmemory 1 b1 rfl] at hsum
    omega
  · rw [hmemory 2 b2 rfl] at hsum
    omega
  · rw [hmemory 3 b3 rfl] at hsum
    omega

/-- A text that starts with an ASCII character has its byte first and the others behind it. -/
theorem memory_of_ascii (hs : s.chars = c :: rest)
    (hc : c.val.toNat < 128) : (s.memory 0).toNat = c.val.toNat ∧
      ∀ i b, (utf8 rest)[i]? = some b → s.memory (i + 1) = b := by
  have htext := s.text
  rw [hs, utf8_cons, utf8EncodeChar_ascii hc] at htext
  refine ⟨?_, fun i b hb => htext (i + 1) b hb⟩
  rw [htext 0 _ rfl, UInt8.toNat_ofNat', Nat.mod_eq_of_lt (by omega)]

/-- If every word is its codepoint, all bytes behind the first are zero. -/
theorem zeros_of_words (hs : s.chars = c :: rest)
    (hc : c.val.toNat < 128) (h : ∀ i c, s.chars[i]? = some c → s.word i = codepoint c) (k : ℕ)
    (hk : k ≤ rest.length) : ∀ i, 1 ≤ i → i < 4 * (k + 1) → s.memory i = 0 := by
  obtain ⟨hbyte, hrest⟩ := memory_of_ascii hs hc
  induction k with
  | zero =>
    intro i hi hlt
    have hword : s.word 0 = c.val.toNat := h 0 c (by rw [hs]; rfl)
    simpa using ((s.word_eq_iff 0 hc).mp hword).2 i hi (by omega)
  | succ k ih =>
    have hnull : rest[k] = Char.ofNat 0 := by
      refine null_of_zeros (t := k + 1) (fun i b hi hb => ?_) _
        (List.mem_take_iff_getElem.mpr ⟨k, by omega, rfl⟩)
      rw [← hrest i b hb]
      exact ih (by omega) (i + 1) (by omega) (by omega)
    have hword : s.word (k + 1) = (0 : ℕ) := by
      rw [h (k + 1) (rest[k]) (by rw [hs, List.getElem?_cons_succ, List.getElem?_eq_getElem]), hnull]
      rfl
    obtain ⟨hfirst, hothers⟩ := (s.word_eq_iff (k + 1) (by omega)).mp hword
    intro i hi hlt
    by_cases hold : i < 4 * (k + 1)
    · exact ih (by omega) i hi hold
    · obtain ⟨j, rfl⟩ : ∃ j, i = 4 * (k + 1) + j := ⟨i - 4 * (k + 1), by omega⟩
      cases j with
      | zero => exact UInt8.toNat_inj.mp hfirst
      | succ j => exact hothers (j + 1) (by omega) (by omega)

/-- Null characters are encoded by zero bytes. -/
theorem utf8_nulls (n : ℕ) : utf8 (List.replicate n (Char.ofNat 0)) = List.replicate n 0 := by
  induction n with
  | zero => rfl
  | succ n ih =>
    rw [List.replicate_succ, utf8_cons, ih]
    rfl

/-- The words of a string are its codepoints iff it reads as words. -/
theorem words_iff (s : NString) :
    (∀ i c, s.chars[i]? = some c → s.word i = codepoint c) ↔ s.ReadAsWords := by
  constructor
  · intro h
    cases hs : s.chars with
    | nil => exact .inl hs
    | cons c rest =>
      have hc : c.val.toNat < 128 := by
        by_contra hlong
        exact word_zero_ne_of_long hs (by omega) (h 0 c (by rw [hs]; rfl))
      have hzeros := zeros_of_words hs hc h rest.length le_rfl
      have hlen : s.chars.length = rest.length + 1 := by rw [hs, List.length_cons]
      refine .inr ⟨⟨c, rest.length, ?_, hc⟩, fun i hi hlt => hzeros i (by omega) (by omega)⟩
      rw [hs, List.cons_inj_right, List.eq_replicate_iff]
      refine ⟨rfl, fun d hd => ?_⟩
      refine null_of_zeros (t := rest.length) (fun i b hi hb => ?_) d
        (by rw [List.take_length]; exact hd)
      rw [← (memory_of_ascii hs hc).2 i b hb]
      exact hzeros (i + 1) (by omega) (by omega)
  · rintro (hs | ⟨⟨c, n, hs, hc⟩, hbehind⟩) i d hd
    · simp [hs] at hd
    · obtain ⟨hbyte, hrest⟩ := memory_of_ascii hs hc
      have hlen : s.chars.length = n + 1 := by simp [hs]
      have hzeros : ∀ j, 1 ≤ j → j < 4 * (n + 1) → s.memory j = 0 := by
        intro j hj hlt
        by_cases hin : j < n + 1
        · obtain ⟨j, rfl⟩ : ∃ k, j = k + 1 := ⟨j - 1, by omega⟩
          refine hrest j 0 ?_
          rw [utf8_nulls, List.getElem?_replicate, if_pos (by omega)]
        · exact hbehind j (by omega) (by omega)
      rw [hs] at hd
      cases i with
      | zero =>
        cases hd
        exact (s.word_eq_iff 0 hc).mpr ⟨hbyte, fun j hj hlt => hzeros _ (by omega) (by omega)⟩
      | succ i =>
        rw [List.getElem?_cons_succ, List.getElem?_replicate] at hd
        split at hd
        next hi =>
          cases hd
          refine (s.word_eq_iff (i + 1) (n := 0) (by omega)).mpr ⟨?_, fun j hj hlt => ?_⟩
          · rw [hzeros _ (by omega) (by omega)]
            rfl
          · exact hzeros _ (by omega) (by omega)
        · cases hd

/-- A string of one character gives its codepoint at index 0. -/
theorem index_of_one (hs : s.chars = [c]) : s.index 0 = codepoint c := by
  have harray : s.toCodepointArray = [codepoint c] := by
    rw [toCodepointArray]
    cases hu : s.u32Data with
    | none => rw [Option.getD_none, hs, List.map_singleton]
    | some us => rw [Option.getD_some, s.u32 us hu, hs, List.map_singleton]
  simp only [index, hs, harray, List.length_singleton, Nat.cast_one, lt_irrefl, if_false, false_or,
    show ¬ (1 : ℤ) ≤ 0 by decide, Int.toNat_zero]
  split
  next hbytes =>
    -- One byte for one codepoint: it is an ASCII character.
    have hc : c.val.toNat < 128 := by
      by_contra hlong
      obtain ⟨b, bs, hcode, -, hshape⟩ := utf8EncodeChar_long (c := c) (by omega)
      have hlen := hbytes.2
      rw [u8Bytes, hs, utf8_cons, hcode] at hlen
      rcases hshape with ⟨b1, rfl, -⟩ | ⟨b1, b2, rfl, -⟩ | ⟨b1, b2, b3, rfl, -⟩
      all_goals simp at hlen
    have hmemory := (memory_of_ascii hs hc).1
    rw [hmemory, Int.bmod_eq_of_le (by omega) (by omega)]
    rfl
  · rfl

end NString

/-! ## Loading tokens -/

variable {g : Terminals} {tokenizer : Tokenizer} {ids : ℕ → ℤ}

/-- A codepoint is a valid character below the token ids. -/
theorem isValidChar_codepoint (c : Char) :
    0 ≤ codepoint c ∧ (codepoint c).toNat.isValidChar ∧ codepoint c < startTokId := by
  refine ⟨codepoint_nonneg c, c.valid, ?_⟩
  have hlt : c.val.toNat < 0x110000 := by
    rcases c.valid with h | h
    all_goals omega
  rw [codepoint, startTokId]
  omega

/-- A token loaded from the tokenizer has the id it returned. -/
theorem loadToken_tid {stateId : ℤ} {parser : TokenParser} {id : ℤ} {cache : Option (List Char)}
    (hparser : parser.preloadedTokens = none)
    (htok : tokenizer { parser with tokenCache := none } = some (id, cache))
    (hid : id = tokEof ∨ ∃ c, id = codepoint c) :
    ∃ r, loadToken g tokenizer stateId parser = some r ∧ r.1.tid = id := by
  obtain ⟨position, preloaded, tokenCache, line, column, ignore⟩ := parser
  cases hparser
  simp only [loadToken, htok, Option.bind_some]
  split
  · exact ⟨_, rfl, rfl⟩
  next heof =>
    obtain ⟨c, rfl⟩ := hid.resolve_left heof
    obtain ⟨hnonneg, hvalid, hlt⟩ := isValidChar_codepoint c
    have hother : codepoint c ≠ tokOther := by
      intro h
      rw [h] at hnonneg
      exact absurd hnonneg (by decide)
    rw [tokenValue, if_neg hother, if_pos hlt, stringFromCodepoint, if_pos ⟨hnonneg, hvalid⟩]
    exact ⟨_, rfl, rfl⟩

/-- A loaded token comes from one call of the tokenizer. -/
theorem tokenizer_of_loadToken {stateId : ℤ} {parser : TokenParser} {r : TokenInfo × TokenParser}
    (hparser : parser.preloadedTokens = none) (h : loadToken g tokenizer stateId parser = some r) :
    ∃ cache, tokenizer { parser with tokenCache := none } = some (r.1.tid, cache) := by
  obtain ⟨position, preloaded, tokenCache, line, column, ignore⟩ := parser
  cases hparser
  simp only [loadToken] at h
  obtain ⟨⟨id, cache⟩, htok, hrest⟩ := Option.bind_eq_some_iff.mp h
  refine ⟨cache, ?_⟩
  rw [htok]
  split at hrest
  · cases hrest
    rfl
  · obtain ⟨value, -, rfl⟩ := Option.map_eq_some_iff.mp hrest
    rfl

/-- The ids of a codepoint stream are its codepoints and the end mark. -/
theorem codepointIds_cases (chars : List Char) (position : ℕ) :
    codepointIds chars position = tokEof ∨ ∃ c, codepointIds chars position = codepoint c := by
  rw [codepointIds]
  cases chars[position]? with
  | none => exact .inl rfl
  | some c => exact .inr ⟨c, rfl⟩

/-- A stream of one-character strings gives their codepoints. -/
theorem tokenStreamStrings_ids {list : List (Option NString)} {chars : List Char}
    (h : OneCodepointEach list chars) :
    GetsIds g (tokenStreamStrings g list) (codepointIds chars) := by
  intro stateId parser hparser
  have hitem : (list[parser.position]?).map (Option.map NString.chars) =
      (chars[parser.position]?).map fun c => some [c] := by
    rw [← List.getElem?_map, h, List.getElem?_map]
  refine loadToken_tid hparser (?_ : _ = some (_, none))
    (codepointIds_cases chars parser.position)
  rw [tokenStreamStrings, codepointIds]
  cases hlist : list[parser.position]? with
  | none =>
    rw [hlist] at hitem
    rw [Option.map_eq_none_iff.mp hitem.symm]
    rfl
  | some item =>
    rw [hlist, Option.map_some] at hitem
    obtain ⟨c, hc, hone⟩ := Option.map_eq_some_iff.mp hitem.symm
    obtain ⟨value, rfl, hvalue⟩ := Option.map_eq_some_iff.mp hone.symm
    rw [hc]
    simp only [Option.join_some, hvalue, List.length_singleton, if_true, NString.index_of_one hvalue]
    rfl

/-- A codepoint stream gives its codepoints iff its words are its codepoints. -/
theorem tokenStreamCodepoints_ids_iff (s : NString) :
    GetsIds g (tokenStreamCodepoints s) (codepointIds s.chars) ↔
      ∀ i c, s.chars[i]? = some c → s.word i = codepoint c := by
  constructor
  · intro h i c hc
    obtain ⟨r, hr, hid⟩ := h 0 ⟨i, none, none, 1, 0, false⟩ rfl
    obtain ⟨cache, htok⟩ := tokenizer_of_loadToken rfl hr
    have hlt := (List.getElem?_eq_some_iff.mp hc).1
    rw [tokenStreamCodepoints, if_neg (by simpa using hlt), Option.some.injEq, Prod.mk.injEq] at htok
    rw [codepointIds, hc] at hid
    exact htok.1.trans hid
  · intro h stateId parser hparser
    refine loadToken_tid hparser (?_ : _ = some (_, none))
      (codepointIds_cases s.chars parser.position)
    rw [tokenStreamCodepoints, codepointIds]
    by_cases hlt : s.chars.length ≤ parser.position
    · rw [if_pos hlt, List.getElem?_eq_none hlt]
      rfl
    · have hc := List.getElem?_eq_getElem (l := s.chars) (i := parser.position) (by omega)
      rw [if_neg hlt, hc, h _ _ hc]
      rfl

/-- **The two ways to get tokens.** With every grammar, the one-codepoint substrings of a string
give its codepoints and the end. The string itself gives them just if it is empty, or is one ASCII
character before null characters with zeros in the memory behind them. -/
theorem tokenStreams_agree_iff (g : Terminals) (s : NString) :
    (∀ list, OneCodepointEach list s.chars →
      GetsIds g (tokenStreamStrings g list) (codepointIds s.chars)) ∧
    (GetsIds g (tokenStreamCodepoints s) (codepointIds s.chars) ↔ s.ReadAsWords) :=
  ⟨fun _ => tokenStreamStrings_ids, (tokenStreamCodepoints_ids_iff s).trans s.words_iff⟩

/-- **Two letters**: the first token is both of them. -/
theorem not_streams_agree :
    ¬ ∀ (g : Terminals) (s : NString),
      GetsIds g (tokenStreamCodepoints s) (codepointIds s.chars) := by
  intro h
  have hwords := (tokenStreamCodepoints_ids_iff _).mp (h ⟨[], fun _ => 0⟩ (.ofChars ['h', 'i']))
  exact absurd (hwords 0 'h' rfl) (by decide)

end N00b.Util
