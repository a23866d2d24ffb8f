import N00b.Adts.Allocation

/-!
# The lexer of the source preprocessor

`lex` of `tokenize.c` and its scanners. Each scanner moves a pointer `p` from `cur` to where its token
ends, and then stores `p - cur` as the length and adds it to `offset`.

## Representation

* The bytes from a pointer to `end` are a list, so `p` is how many bytes were taken and the list of
  those that are left.
* Reading the byte at `end` gives `none`, and so does storing a token that the array has no room for.
* `offset`, `line_no` and `len` have the widths of the source.

## Main results

- `lexLoop_laid`: the tokens lie one behind the other, as long as no stored number is too large.
- `Covers.printed`: tokens that cover the input print it.
-/

namespace N00b.Ncpp

/-! ## Bytes -/

abbrev tab : UInt8 := 9
abbrev newline : UInt8 := 10
abbrev blank : UInt8 := 32
abbrev doubleQuote : UInt8 := 34
abbrev hash : UInt8 := 35
abbrev singleQuote : UInt8 := 39
abbrev star : UInt8 := 42
abbrev slash : UInt8 := 47
abbrev backslash : UInt8 := 92

/-- `'0'` to `'9'`. -/
def isDigit (c : UInt8) : Bool := 48 ≤ c && c ≤ 57

/-- `is_id_char`. The switch has no case for `'K'`, and neither has the one of `lex`. -/
def isIdChar (c : UInt8) : Bool :=
  isDigit c || c == 95 || (97 ≤ c && c ≤ 122) || (65 ≤ c && c ≤ 90 && c != 75)

/-! ## Tokens -/

/-- `ttype_t`. `tok_unk` stores `TT_PUNCT`, so nothing is `TT_UNKNOWN`. -/
inductive TokType where
  | err
  | ws
  | id
  | num
  | comment
  | str
  | chr
  | punct
  | preproc
  deriving DecidableEq, Repr

/-- `tok_t` as the lexer leaves it. -/
structure Tok where
  type : TokType
  offset : BitVec 32
  len : BitVec 16
  lineNo : BitVec 16
  deriving DecidableEq, Repr

/-- `lex_t`, where `rest` are the bytes from `cur` to `end`. -/
structure LexState where
  toks : List Tok
  rest : List UInt8
  offset : BitVec 32
  lineNo : BitVec 32
  lineStart : Bool
  deriving DecidableEq, Repr

/-- Where a scanner stops: `p - cur`, the bytes from `p` on, and what it made of the state. -/
structure Scan where
  type : TokType
  taken : ℕ
  rest : List UInt8
  lineNo : BitVec 32
  lineStart : Bool
  deriving DecidableEq, Repr

/-- The number of tokens that `alloc_tokens` has room for. Both products are stored in an `int`, and
`mmap` fails when that is not positive. -/
def allocTokens (pageSize len : ℕ) : ℕ :=
  let bytes := Adts.int32 (24 * len)
  let rounded :=
    if bytes.tmod pageSize ≠ 0 then Adts.int32 ((bytes.tdiv pageSize + 1) * pageSize) else bytes
  (rounded / 24).toNat

/-- The end of a scanner: the token, and the state behind it. -/
def LexState.store (slots : ℕ) (s : LexState) (k : Scan) : Option LexState :=
  if s.toks.length < slots then
    some
      { toks := s.toks ++
          [{ type := k.type
             offset := s.offset
             len := BitVec.ofNat 16 k.taken
             lineNo := s.lineNo.setWidth 16 }]
        rest := k.rest
        offset := s.offset + BitVec.ofNat 32 k.taken
        lineNo := k.lineNo
        lineStart := k.lineStart }
  else
    none

/-! ## The scanners

Each is given the bytes behind the one at `cur`. -/

/-- `tok_punct`, and `tok_unk` too. -/
def tokPunct (s : LexState) (rest : List UInt8) : Scan :=
  { type := .punct, taken := 1, rest := rest, lineNo := s.lineNo, lineStart := false }

/-- The loop of `tok_char` and of `tok_string`. -/
def literalLoop (quote : UInt8) (type : TokType) :
    List UInt8 → ℕ → BitVec 32 → Option Scan
  | [], p, line => some ⟨.err, p, [], line, false⟩
  | c :: rest, p, line =>
    if c = quote then
      some ⟨type, p + 1, rest, line, false⟩
    else if c = backslash then
      match rest with
      | [] => none
      | d :: rest => literalLoop quote type rest (p + 2) (if d = newline then line + 1 else line)
    else if c = newline then
      some ⟨.err, p, c :: rest, line + 1, false⟩
    else
      literalLoop quote type rest (p + 1) line

/-- `tok_char`. -/
def tokChar (s : LexState) (rest : List UInt8) : Option Scan :=
  literalLoop singleQuote .chr rest 1 s.lineNo

/-- `tok_string`. -/
def tokString (s : LexState) (rest : List UInt8) : Option Scan :=
  literalLoop doubleQuote .str rest 1 s.lineNo

/-- The loop of `tok_id_or_num`. -/
def wordLoop (type : TokType) (line : BitVec 32) : List UInt8 → ℕ → Scan
  | [], p => ⟨type, p, [], line, false⟩
  | c :: rest, p =>
    if isIdChar c then wordLoop type line rest (p + 1) else ⟨type, p, c :: rest, line, false⟩

/-- `tok_id_or_num`. -/
def tokIdOrNum (s : LexState) (rest : List UInt8) (num : Bool) : Scan :=
  wordLoop (if num then .num else .id) s.lineNo rest 1

/-- The loop of `tok_ws`. -/
def wsLoop : List UInt8 → ℕ → BitVec 32 → Bool → Scan
  | [], p, line, lineStart => ⟨.ws, p, [], line, lineStart⟩
  | c :: rest, p, line, lineStart =>
    if c = blank ∨ c = tab then
      wsLoop rest (p + 1) line lineStart
    else if c = newline then
      wsLoop rest (p + 1) (line + 1) true
    else
      ⟨.ws, p, c :: rest, line, lineStart⟩

/-- `tok_ws`. A newline at `cur` does not set `line_start`. -/
def tokWs (s : LexState) (c : UInt8) (rest : List UInt8) : Scan :=
  wsLoop rest 1 (if c = newline then s.lineNo + 1 else s.lineNo) s.lineStart

/-- The loop of `tok_preproc`. -/
def preprocLoop (lineStart : Bool) : List UInt8 → ℕ → BitVec 32 → Option Scan
  | [], p, line => some ⟨.preproc, p, [], line, lineStart⟩
  | c :: rest, p, line =>
    if c = backslash then
      match rest with
      | [] => none
      | d :: rest =>
        preprocLoop lineStart rest (p + 2) (if d = newline then line + 1 else line)
    else if c = newline then
      some ⟨.preproc, p + 1, rest, line + 1, lineStart⟩
    else
      preprocLoop lineStart rest (p + 1) line

/-- `tok_preproc`. -/
def tokPreproc (s : LexState) (rest : List UInt8) : Option Scan :=
  preprocLoop s.lineStart rest 1 s.lineNo

/-- The loop of `line_comment`. -/
def lineCommentLoop (line : BitVec 32) (lineStart : Bool) : List UInt8 → ℕ → Scan
  | [], p => ⟨.comment, p, [], line, lineStart⟩
  | c :: rest, p =>
    if c = newline then
      ⟨.comment, p + 1, rest, line + 1, lineStart⟩
    else
      lineCommentLoop line lineStart rest (p + 1)

/-- `line_comment`. -/
def lineComment (s : LexState) (rest : List UInt8) : Scan :=
  lineCommentLoop s.lineNo s.lineStart rest 1

/-- The loop of `match_comment`, which stops before the last byte. -/
def matchCommentLoop (line : BitVec 32) (lineStart : Bool) : List UInt8 → ℕ → Scan
  | [], p => ⟨.err, p, [], line, lineStart⟩
  | [c], p => ⟨.err, p, [c], line, lineStart⟩
  | c :: d :: rest, p =>
    if c = star ∧ d = slash then
      ⟨.comment, p + 2, rest, line, lineStart⟩
    else
      matchCommentLoop line lineStart (d :: rest) (p + 1)

/-- `match_comment`. -/
def matchComment (s : LexState) (rest : List UInt8) : Scan :=
  matchCommentLoop s.lineNo s.lineStart rest 1

/-- `tok_comment_or_punct`. -/
def tokCommentOrPunct (s : LexState) : List UInt8 → Scan
  | [] => tokPunct s []
  | c :: rest =>
    if c = slash then lineComment s (c :: rest)
    else if c = star then matchComment s (c :: rest)
    else tokPunct s (c :: rest)

/-! ## The lexer -/

/-- The switch of `lex`, on the byte at `cur`. -/
def scanToken (s : LexState) (c : UInt8) (rest : List UInt8) : Option Scan :=
  if c = blank ∨ c = tab ∨ c = newline then some (tokWs s c rest)
  else if c = hash then
    if s.lineStart then tokPreproc s rest else some (tokPunct s rest)
  else if c = slash then some (tokCommentOrPunct s rest)
  else if isDigit c then some (tokIdOrNum s rest true)
  else if isIdChar c then some (tokIdOrNum s rest false)
  else if c = doubleQuote then tokString s rest
  else if c = singleQuote then tokChar s rest
  else some (tokPunct s rest)

/-- The loop of `lex`. -/
def lexLoop (slots : ℕ) : ℕ → LexState → Option LexState
  | fuel, s =>
    match s.rest with
    | [] => some s
    | c :: rest =>
      match fuel with
      | 0 => none
      | fuel + 1 =>
        match scanToken s c rest with
        | none => none
        | some k =>
          match s.store slots k with
          | none => none
          | some s' => lexLoop slots fuel s'

/-- The state before the first token. -/
def lexInit (input : List UInt8) : LexState :=
  { toks := [], rest := input, offset := 0, lineNo := 1, lineStart := true }

/-- `lex`. -/
def lex (fuel pageSize : ℕ) (input : List UInt8) : Option (List Tok) :=
  (lexLoop (allocTokens pageSize input.length) fuel (lexInit input)).map LexState.toks

/-- What `output_new_file` writes for a token that no transform has touched. -/
def writeToken (input : List UInt8) (t : Tok) : List UInt8 :=
  (input.drop t.offset.toInt.toNat).take t.len.toInt.toNat

/-! ## Where a scanner stops -/

/-- The scanner took at least the `p` bytes that were taken before, and left the others. -/
structure Scan.Spans (k : Scan) (p : ℕ) (rest : List UInt8) : Prop where
  taken_add : k.taken + k.rest.length = p + rest.length
  le_taken : p ≤ k.taken

variable {k : Scan}

/-- A scan that spans the rest spans it from an earlier start too. -/
theorem Scan.Spans.after {p q : ℕ} {rest after : List UInt8} (h : k.Spans q after)
    (hlen : q + after.length = p + rest.length) (hle : p ≤ q) : k.Spans p rest where
  taken_add := h.taken_add.trans hlen
  le_taken := hle.trans h.le_taken

variable {rest : List UInt8}

/-- A literal takes at least its opening quote and stays within the input. -/
theorem literalLoop_spans {quote : UInt8} {type : TokType} {p : ℕ}
    {line : BitVec 32} (h : literalLoop quote type rest p line = some k) :
    k.Spans p rest := by
  fun_induction literalLoop quote type rest p line with
  | case1 p line =>
    obtain rfl := Option.some.inj h
    exact ⟨rfl, le_refl _⟩
  | case2 rest p line =>
    obtain rfl := Option.some.inj h
    exact ⟨by simp; omega, Nat.le_succ _⟩
  | case3 => cases h
  | case4 p line hq d rest ih =>
    exact (ih h).after (by simp; omega) (Nat.le_add_right _ 2)
  | case5 rest p line =>
    obtain rfl := Option.some.inj h
    exact ⟨rfl, le_refl _⟩
  | case6 c rest p line hq hb hn ih =>
    exact (ih h).after (by simp; omega) (Nat.le_succ _)

/-- A word stays within the input. -/
theorem wordLoop_spans (type : TokType) (line : BitVec 32) (rest : List UInt8) (p : ℕ) :
    (wordLoop type line rest p).Spans p rest := by
  fun_induction wordLoop type line rest p with
  | case1 p => exact ⟨rfl, le_refl _⟩
  | case2 c rest p hc ih => exact ih.after (by simp; omega) (Nat.le_succ _)
  | case3 c rest p hc => exact ⟨rfl, le_refl _⟩

/-- White space stays within the input. -/
theorem wsLoop_spans (rest : List UInt8) (p : ℕ) (line : BitVec 32) (lineStart : Bool) :
    (wsLoop rest p line lineStart).Spans p rest := by
  fun_induction wsLoop rest p line lineStart with
  | case1 p line lineStart => exact ⟨rfl, le_refl _⟩
  | case2 c rest p line lineStart hc ih => exact ih.after (by simp; omega) (Nat.le_succ _)
  | case3 rest p line lineStart hc ih => exact ih.after (by simp; omega) (Nat.le_succ _)
  | case4 c rest p line lineStart hc hn => exact ⟨rfl, le_refl _⟩

/-- A preprocessor line stays within the input. -/
theorem preprocLoop_spans {lineStart : Bool} {p : ℕ} {line : BitVec 32}
    (h : preprocLoop lineStart rest p line = some k) : k.Spans p rest := by
  fun_induction preprocLoop lineStart rest p line with
  | case1 p line =>
    obtain rfl := Option.some.inj h
    exact ⟨rfl, le_refl _⟩
  | case2 => cases h
  | case3 p line d rest ih => exact (ih h).after (by simp; omega) (Nat.le_add_right _ 2)
  | case4 rest p line =>
    obtain rfl := Option.some.inj h
    exact ⟨by simp; omega, Nat.le_succ _⟩
  | case5 c rest p line hb hn ih => exact (ih h).after (by simp; omega) (Nat.le_succ _)

/-- A line comment stays within the input. -/
theorem lineCommentLoop_spans (line : BitVec 32) (lineStart : Bool) (rest : List UInt8) (p : ℕ) :
    (lineCommentLoop line lineStart rest p).Spans p rest := by
  fun_induction lineCommentLoop line lineStart rest p with
  | case1 p => exact ⟨rfl, le_refl _⟩
  | case2 rest p => exact ⟨by simp; omega, Nat.le_succ _⟩
  | case3 c rest p hc ih => exact ih.after (by simp; omega) (Nat.le_succ _)

/-- A block comment stays within the input. -/
theorem matchCommentLoop_spans (line : BitVec 32) (lineStart : Bool) (rest : List UInt8) (p : ℕ) :
    (matchCommentLoop line lineStart rest p).Spans p rest := by
  fun_induction matchCommentLoop line lineStart rest p with
  | case1 p => exact ⟨rfl, le_refl _⟩
  | case2 c p => exact ⟨rfl, le_refl _⟩
  | case3 rest p => exact ⟨by simp; omega, Nat.le_add_right _ 2⟩
  | case4 c d rest p hc ih => exact ih.after (by simp; omega) (Nat.le_succ _)

/-- A comment or punctuation stays within the input. -/
theorem tokCommentOrPunct_spans (s : LexState) (rest : List UInt8) :
    (tokCommentOrPunct s rest).Spans 1 rest := by
  fun_cases tokCommentOrPunct s rest with
  | case1 => exact ⟨rfl, le_refl 1⟩
  | case2 => exact lineCommentLoop_spans _ _ _ 1
  | case3 => exact matchCommentLoop_spans _ _ _ 1
  | case4 => exact ⟨rfl, le_refl 1⟩

variable {s : LexState}

/-- Every token takes at least one byte and stays within the input. -/
theorem scanToken_spans {c : UInt8}
    (h : scanToken s c rest = some k) : k.Spans 1 rest := by
  revert h
  fun_cases scanToken s c rest with
  | case1 =>
    rintro ⟨⟩
    exact wsLoop_spans rest 1 _ _
  | case2 => exact preprocLoop_spans
  | case4 =>
    rintro ⟨⟩
    exact tokCommentOrPunct_spans s rest
  | case5 | case6 =>
    rintro ⟨⟩
    exact wordLoop_spans _ _ rest 1
  | case7 | case8 => exact literalLoop_spans
  | case3 | case9 =>
    rintro ⟨⟩
    exact ⟨rfl, le_refl 1⟩

/-! ## How the tokens lie -/

/-- The tokens lie one behind the other from `p` to `e`, each number as the code stores it. -/
inductive Laid : ℕ → List Tok → ℕ → Prop where
  | nil (p : ℕ) : Laid p [] p
  | cons {p k e : ℕ} {t : Tok} {ts : List Tok} (hk : 0 < k) (ho : t.offset = BitVec.ofNat 32 p)
      (hl : t.len = BitVec.ofNat 16 k) (hts : Laid (p + k) ts e) : Laid p (t :: ts) e

/-- The tokens, read back, cover what lies between `a` and `e`: none is empty, and each begins where
the one before it ended. -/
def Covers (a : ℤ) : List Tok → ℤ → Prop
  | [], e => a = e
  | t :: ts, e => t.offset.toInt = a ∧ 0 < t.len.toInt ∧ Covers (a + t.len.toInt) ts e

/-- Tokens in a row that cover a range cover its parts. -/
theorem Covers.of_append {a e : ℤ} {xs ys : List Tok} (h : Covers a (xs ++ ys) e) :
    ∃ m, Covers a xs m ∧ Covers m ys e := by
  induction xs generalizing a with
  | nil => exact ⟨a, rfl, h⟩
  | cons t xs ih =>
    obtain ⟨ho, hl, hts⟩ := h
    obtain ⟨m, hxs, hys⟩ := ih hts
    exact ⟨m, ⟨ho, hl, hxs⟩, hys⟩

/-- Tokens that cover two ranges in a row cover both. -/
theorem Covers.append {a m e : ℤ} {xs ys : List Tok} (h : Covers a xs m) (h' : Covers m ys e) :
    Covers a (xs ++ ys) e := by
  induction xs generalizing a with
  | nil =>
    obtain rfl : a = m := h
    exact h'
  | cons t xs ih =>
    obtain ⟨ho, hl, hts⟩ := h
    exact ⟨ho, hl, ih hts⟩

variable {ts : List Tok}

/-- The end of what some tokens cover is determined by its start. -/
theorem Covers.unique {a e e' : ℤ} (h : Covers a ts e) (h' : Covers a ts e') :
    e = e' := by
  induction ts generalizing a with
  | nil => exact h.symm.trans h'
  | cons t ts ih => exact ih h.2.2 h'.2.2

theorem toInt_ofNat_le (w k : ℕ) : (BitVec.ofNat w k).toInt ≤ k := by
  have hmod : (BitVec.ofNat w k).toNat ≤ k := by
    rw [BitVec.toNat_ofNat]
    exact Nat.mod_le k _
  rw [BitVec.toInt_eq_toNat_cond]
  split
  all_goals omega

/-- A number below half the range of its type is stored as it is. -/
theorem toInt_ofNat_of_lt {w k : ℕ} (h : 2 * k < 2 ^ w) : (BitVec.ofNat w k).toInt = k := by
  have hmod : (BitVec.ofNat w k).toNat = k := by
    rw [BitVec.toNat_ofNat, Nat.mod_eq_of_lt (by omega)]
  rw [BitVec.toInt_eq_toNat_of_lt (hmod.symm ▸ h), hmod]

/-- Tokens laid from a position on cover nothing before it. -/
theorem Laid.le_of_covers {p e : ℕ} {b : ℤ} (h : Laid p ts e)
    (hc : Covers b ts e) : (p : ℤ) ≤ b := by
  induction h generalizing b with
  | nil p => exact le_of_eq hc.symm
  | @cons p k e t ts hk ho hl hts ih =>
    have hrest := ih hc.2.2
    have hle : t.len.toInt ≤ k := by
      rw [hl]
      exact toInt_ofNat_le 16 k
    push_cast at hrest
    omega

/-- A token covers its bytes iff its offset and its length fit their fields. -/
theorem Laid.covers_cons {p k e : ℕ} {t : Tok} (hk : 0 < k)
    (ho : t.offset = BitVec.ofNat 32 p) (hl : t.len = BitVec.ofNat 16 k)
    (hts : Laid (p + k) ts e) :
    Covers p (t :: ts) e ↔ (p < 2 ^ 31 ∧ k ≤ 32767) ∧ Covers ↑(p + k) ts e := by
  constructor
  · rintro ⟨hoff, hlen, hc⟩
    have hle := hts.le_of_covers hc
    have hp : (p : ℤ) < 2 ^ 31 := by
      rw [← hoff]
      exact BitVec.toInt_lt
    have hshort : t.len.toInt < 2 ^ 15 := BitVec.toInt_lt
    have hlong : t.len.toInt ≤ k := by
      rw [hl]
      exact toInt_ofNat_le 16 k
    have heq : t.len.toInt = k := by
      push_cast at hle
      omega
    refine ⟨⟨by omega, by omega⟩, ?_⟩
    rw [heq] at hc
    exact_mod_cast hc
  · rintro ⟨⟨hp, hk'⟩, hc⟩
    have hlen : t.len.toInt = k := by
      rw [hl]
      exact toInt_ofNat_of_lt (by omega)
    refine ⟨?_, by omega, ?_⟩
    · rw [ho]
      exact toInt_ofNat_of_lt (by omega)
    · rw [hlen]
      exact_mod_cast hc

/-- Behind tokens that cover their bytes, one more does iff its offset and its length fit. -/
theorem Laid.covers_append {p k e : ℕ} {a : ℤ} {t : Tok} {before ts : List Tok}
    (hcov : Covers a before p) (hk : 0 < k) (ho : t.offset = BitVec.ofNat 32 p)
    (hl : t.len = BitVec.ofNat 16 k) (hts : Laid (p + k) ts e) :
    Covers a (before ++ t :: ts) e ↔ (p < 2 ^ 31 ∧ k ≤ 32767) ∧ Covers ↑(p + k) ts e := by
  rw [← Laid.covers_cons hk ho hl hts]
  constructor
  · intro h
    obtain ⟨m, hbefore, hrest⟩ := h.of_append
    rw [hcov.unique hbefore]
    exact hrest
  · exact hcov.append

/-- Printing tokens that cover the input prints the input. -/
theorem Covers.printed {input : List UInt8} {a : ℕ}
    (h : Covers a ts input.length) : ts.flatMap (writeToken input) = input.drop a := by
  induction ts generalizing a with
  | nil =>
    have ha : (a : ℤ) = input.length := h
    rw [List.flatMap_nil, List.drop_of_length_le (by omega)]
  | cons t ts ih =>
    obtain ⟨ho, hl, hts⟩ := h
    lift t.len.toInt to ℕ using hl.le with k hk
    have hwrite : writeToken input t = (input.drop a).take k := by
      rw [writeToken, ho, ← hk, Int.toNat_natCast, Int.toNat_natCast]
    rw [List.flatMap_cons, hwrite, ih (by exact_mod_cast hts), ← List.drop_drop]
    exact List.take_append_drop k _

/-! ## Every run -/

/-- Storing a token takes a slot and records its offset and length. -/
theorem LexState.store_eq_some {slots : ℕ} {s s' : LexState}
    (h : s.store slots k = some s') :
    ∃ t : Tok, t.offset = s.offset ∧ t.len = BitVec.ofNat 16 k.taken ∧
      s.toks.length < slots ∧
      s' =
        { toks := s.toks ++ [t]
          rest := k.rest
          offset := s.offset + BitVec.ofNat 32 k.taken
          lineNo := k.lineNo
          lineStart := k.lineStart } := by
  obtain ⟨hroom, heq⟩ := Option.ite_none_right_eq_some.mp h
  exact ⟨_, rfl, rfl, hroom, (Option.some.inj heq).symm⟩

/-- One turn of the lexer scans a token, stores it and goes on. -/
theorem lexLoop_cons {slots fuel : ℕ} {c : UInt8}
    (hrest : s.rest = c :: rest) :
    lexLoop slots (fuel + 1) s =
      ((scanToken s c rest).bind (s.store slots)).bind (lexLoop slots fuel) := by
  rw [lexLoop, hrest]
  dsimp only
  rcases scanToken s c rest with _ | k
  · rfl
  · rcases hs : s.store slots k with _ | s' <;> simp [hs]

theorem lexLoop_nil {slots fuel : ℕ} (hrest : s.rest = []) :
    lexLoop slots fuel s = some s := by
  rw [lexLoop, hrest]

/-- The lexer lays its tokens over the whole rest of the input. -/
theorem lexLoop_laid {slots fuel pos : ℕ} {s s' : LexState} (h : lexLoop slots fuel s = some s')
    (hoff : s.offset = BitVec.ofNat 32 pos) :
    ∃ new, s'.toks = s.toks ++ new ∧ Laid pos new (pos + s.rest.length) := by
  induction fuel generalizing s pos with
  | zero =>
    rcases hrest : s.rest with _ | ⟨c, rest⟩
    · rw [lexLoop_nil hrest] at h
      obtain rfl := Option.some.inj h
      exact ⟨[], (List.append_nil _).symm, Laid.nil pos⟩
    · rw [lexLoop, hrest] at h
      cases h
  | succ fuel ih =>
    rcases hrest : s.rest with _ | ⟨c, rest⟩
    · rw [lexLoop_nil hrest] at h
      obtain rfl := Option.some.inj h
      exact ⟨[], (List.append_nil _).symm, Laid.nil pos⟩
    · rw [lexLoop_cons hrest, Option.bind_eq_some_iff] at h
      obtain ⟨s₁, hs₁, hloop⟩ := h
      obtain ⟨k, hk, hstore⟩ := Option.bind_eq_some_iff.mp hs₁
      obtain ⟨t, hto, htl, -, rfl⟩ := LexState.store_eq_some hstore
      have hspan := scanToken_spans hk
      have hoff₁ : s.offset + BitVec.ofNat 32 k.taken = BitVec.ofNat 32 (pos + k.taken) := by
        rw [hoff, BitVec.ofNat_add]
      obtain ⟨new, htoks, hlaid⟩ := ih hloop hoff₁
      have hend : pos + k.taken + k.rest.length = pos + (rest.length + 1) := by
        have := hspan.taken_add
        omega
      refine ⟨t :: new, ?_, Laid.cons hspan.le_taken (hto.trans hoff) htl (hend ▸ hlaid)⟩
      rw [htoks, List.append_assoc, List.singleton_append]

/-- As many turns as there are bytes left are enough. -/
theorem lexLoop_fuel {slots fuel fuel' : ℕ} (h : s.rest.length ≤ fuel)
    (h' : s.rest.length ≤ fuel') : lexLoop slots fuel s = lexLoop slots fuel' s := by
  induction fuel generalizing s fuel' with
  | zero =>
    have hrest : s.rest = [] := List.eq_nil_of_length_eq_zero (by omega)
    rw [lexLoop_nil hrest, lexLoop_nil hrest]
  | succ fuel ih =>
    rcases hrest : s.rest with _ | ⟨c, rest⟩
    · rw [lexLoop_nil hrest, lexLoop_nil hrest]
    · rw [hrest, List.length_cons] at h h'
      obtain ⟨fuel', rfl⟩ : ∃ n, fuel' = n + 1 := ⟨fuel' - 1, by omega⟩
      rw [lexLoop_cons hrest, lexLoop_cons hrest]
      refine Option.bind_congr fun s₁ hs₁ => ?_
      obtain ⟨k, hk, hstore⟩ := Option.bind_eq_some_iff.mp hs₁
      obtain ⟨-, -, -, -, rfl⟩ := LexState.store_eq_some hstore
      have hspan := scanToken_spans hk
      have htaken := hspan.taken_add
      have hpos := hspan.le_taken
      have hlen : k.rest.length ≤ fuel ∧ k.rest.length ≤ fuel' := by omega
      exact ih hlen.1 hlen.2

end N00b.Ncpp
