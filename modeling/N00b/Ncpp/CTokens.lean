import N00b.Ncpp.Tokenize

/-!
# The tokens that C has where the lexer has them

What the bytes of a file are in C, as far as the preprocessor looks at them, and for which files the
lexer finds just that. It differs in six ways.

* A `K` is no part of an identifier or a number.
* A newline that is the first of its blanks does not set `line_start`, and neither does one that ends
  a comment: a `#` on the next line is then taken for punctuation.
* The `*` that opens a comment closes it before a slash.
* A comment that is not closed leaves its last byte to a token of its own.
* Newlines in a comment are not counted, and one that breaks a literal is counted twice.
* The byte behind an escape at the end is read, and stored numbers have their widths.

## Main results

- `flatMap_pieces`, `cut_words`: the pieces are the file, and its words are whole.
- `lex_cTokens_iff`: for which files the tokens are the pieces.
- `newline_directive_missed`: a directive on the second line.
-/

namespace N00b.Ncpp

/-! ## Pieces -/

/-- Letters, digits and underscores. -/
def isWordChar (c : UInt8) : Bool :=
  isDigit c || c == 95 || (97 ≤ c && c ≤ 122) || (65 ≤ c && c ≤ 90)

def isBlank (c : UInt8) : Bool := c == blank || c == tab || c == newline

/-- The bytes of a token, and what it is. -/
structure Piece where
  kind : TokType
  text : List UInt8
  deriving DecidableEq, Repr

/-- A piece, and the bytes behind it. -/
structure Cut extends Piece where
  rest : List UInt8
  deriving DecidableEq, Repr

/-- The piece with more bytes in front. -/
def Cut.behind (k : Cut) (front : List UInt8) : Cut := { k with text := front ++ k.text }

/-- A literal behind its opening quote. One that its line does not close is an error. -/
def literalCut (quote : UInt8) (kind : TokType) : List UInt8 → Cut
  | [] => ⟨⟨.err, []⟩, []⟩
  | c :: rest =>
    if c = quote then ⟨⟨kind, [c]⟩, rest⟩
    else if c = backslash then
      match rest with
      | [] => ⟨⟨.err, [c]⟩, []⟩
      | d :: rest => (literalCut quote kind rest).behind [c, d]
    else if c = newline then ⟨⟨.err, []⟩, c :: rest⟩
    else (literalCut quote kind rest).behind [c]

/-- A directive behind its hash: up to the end of its line, or of the lines that are spliced to it.
-/
def directiveCut : List UInt8 → Cut
  | [] => ⟨⟨.preproc, []⟩, []⟩
  | c :: rest =>
    if c = backslash then
      match rest with
      | [] => ⟨⟨.preproc, [c]⟩, []⟩
      | d :: rest => (directiveCut rest).behind [c, d]
    else if c = newline then ⟨⟨.preproc, [c]⟩, rest⟩
    else (directiveCut rest).behind [c]

def lineCommentCut : List UInt8 → Cut
  | [] => ⟨⟨.comment, []⟩, []⟩
  | c :: rest =>
    if c = newline then ⟨⟨.comment, [c]⟩, rest⟩ else (lineCommentCut rest).behind [c]

/-- A comment behind its opening. One that is not closed is an error. -/
def blockCommentCut : List UInt8 → Cut
  | [] => ⟨⟨.err, []⟩, []⟩
  | [c] => ⟨⟨.err, [c]⟩, []⟩
  | c :: d :: rest =>
    if c = star ∧ d = slash then ⟨⟨.comment, [c, d]⟩, rest⟩
    else (blockCommentCut (d :: rest)).behind [c]

def slashCut : List UInt8 → Cut
  | [] => ⟨⟨.punct, [slash]⟩, []⟩
  | c :: rest =>
    if c = slash then (lineCommentCut rest).behind [slash, slash]
    else if c = star then (blockCommentCut rest).behind [slash, star]
    else ⟨⟨.punct, [slash]⟩, c :: rest⟩

/-- The piece that begins with a byte, which may be the first on its line other than blanks and
comments. -/
def cut (first : Bool) (c : UInt8) (rest : List UInt8) : Cut :=
  if isBlank c then ⟨⟨.ws, c :: rest.takeWhile isBlank⟩, rest.dropWhile isBlank⟩
  else if c = hash then
    if first then (directiveCut rest).behind [c] else ⟨⟨.punct, [c]⟩, rest⟩
  else if c = slash then slashCut rest
  else if isDigit c then ⟨⟨.num, c :: rest.takeWhile isWordChar⟩, rest.dropWhile isWordChar⟩
  else if isWordChar c then ⟨⟨.id, c :: rest.takeWhile isWordChar⟩, rest.dropWhile isWordChar⟩
  else if c = doubleQuote then (literalCut doubleQuote .str rest).behind [c]
  else if c = singleQuote then (literalCut singleQuote .chr rest).behind [c]
  else ⟨⟨.punct, [c]⟩, rest⟩

/-- A comment that began with a slash and a star. -/
def Piece.isBlock (p : Piece) : Bool := p.text[1]? == some star

/-- Whether only blanks and comments stand between the last newline and the end of a piece. In C a
newline in a comment is none, but it is one of the file: `inComments` says which way it is read. -/
def Piece.endsFirst (inComments : Bool) (p : Piece) (first : Bool) : Bool :=
  match p.kind with
  | .ws => first || p.text.contains newline
  | .comment => first || (p.text.contains newline && (inComments || !p.isBlock))
  | .preproc => true
  | _ => false

/-- The pieces of a file. Each takes a byte, so as many turns as there are bytes are enough. -/
def pieces (inComments : Bool) : ℕ → Bool → List UInt8 → List Piece
  | 0, _, _ => []
  | _ + 1, _, [] => []
  | turns + 1, first, c :: rest =>
    let k := cut first c rest
    k.toPiece :: pieces inComments turns (k.endsFirst inComments first) k.rest

def Piece.lines (p : Piece) : ℕ := p.text.count newline

/-! ## What is asked of the lexer -/

/-- The tokens, read back, are the pieces from `pos` in line `line` on. -/
def Agree : ℕ → ℕ → List Tok → List Piece → Prop
  | _, _, [], [] => True
  | pos, line, t :: ts, p :: ps =>
    (t.type = p.kind ∧ t.offset.toInt = pos ∧ t.len.toInt = p.text.length ∧ t.lineNo.toInt = line) ∧
      Agree (pos + p.text.length) (line + p.lines) ts ps
  | _, _, _, _ => False

def FindsCTokens (inComments : Bool) (pageSize : ℕ) (input : List UInt8) : Prop :=
  ∃ toks, (∀ fuel, input.length ≤ fuel → lex fuel pageSize input = some toks) ∧
    Agree 0 1 toks (pieces inComments input.length true input)

/-! ## When it does -/

/-- The last byte is a backslash, and is not behind another one that makes a pair with it. -/
def endsInEscape : List UInt8 → Bool
  | [] => false
  | c :: rest =>
    if c = backslash then
      match rest with
      | [] => true
      | _ :: rest => endsInEscape rest
    else endsInEscape rest

/-- Whether a piece can be found. `marked` says of a place that there are only blanks, comments and
directives before it, back to the start of the file or to blanks with a newline that is not the
first of them. -/
def Piece.Findable (marked : Bool) (p : Piece) : Prop :=
  match p.kind with
  | .id | .num => 75 ∉ p.text
  | .preproc => marked = true ∧ endsInEscape p.text = false
  | .comment => ¬ [slash, star, slash] <+: p.text
  | .err => p.text.head? ≠ some slash ∧ endsInEscape p.text = false
  | _ => True

/-- `marked` behind a piece. -/
def Piece.endsMarked (p : Piece) (marked : Bool) : Bool :=
  match p.kind with
  | .ws => marked || p.text.tail.contains newline
  | .comment | .preproc => marked
  | _ => false

/-- The lines are counted as they should be behind a piece: it is no broken literal, and no comment
over several lines. -/
def Piece.Counted (p : Piece) : Prop :=
  p.kind ≠ .err ∧ (p.kind = .comment → p.isBlock = true → p.lines = 0)

/-- **Pieces that the lexer finds**: each can be found, lines are counted as they should be behind
each but the last, there is room for a token, and the numbers fit. -/
def Found (slots : ℕ) : ℕ → ℕ → ℕ → Bool → List Piece → Prop
  | _, _, _, _, [] => True
  | tokens, pos, line, marked, p :: ps =>
    (p.Findable marked ∧ (ps ≠ [] → p.Counted)) ∧
      (tokens < slots ∧ pos < 2 ^ 31 ∧ p.text.length < 2 ^ 15 ∧ line < 2 ^ 15) ∧
      Found slots (tokens + 1) (pos + p.text.length) (line + p.lines) (p.endsMarked marked) ps

/-! ## The pieces are the file -/

/-- The bytes of a piece and those behind it. -/
def Cut.whole (k : Cut) : List UInt8 := k.text ++ k.rest

/-- Bytes put in front of a piece are in front of the whole. -/
theorem Cut.whole_behind (k : Cut) (front : List UInt8) :
    (k.behind front).whole = front ++ k.whole := List.append_assoc _ _ _

/-- A literal and what is behind it are the bytes it was cut from. -/
theorem literalCut_whole (quote : UInt8) (kind : TokType) (rest : List UInt8) :
    (literalCut quote kind rest).whole = rest := by
  fun_induction literalCut quote kind rest with
  | case1 | case2 | case3 | case5 => rfl
  | case4 _ d rest ih | case6 c rest _ _ _ ih => rw [Cut.whole_behind, ih]; rfl

/-- A directive and what is behind it are the bytes it was cut from. -/
theorem directiveCut_whole (rest : List UInt8) : (directiveCut rest).whole = rest := by
  fun_induction directiveCut rest with
  | case1 | case2 | case4 => rfl
  | case3 d rest ih | case5 c rest _ _ ih => rw [Cut.whole_behind, ih]; rfl

/-- A line comment and what is behind it are the bytes it was cut from. -/
theorem lineCommentCut_whole (rest : List UInt8) : (lineCommentCut rest).whole = rest := by
  fun_induction lineCommentCut rest with
  | case1 | case2 => rfl
  | case3 c rest _ ih => rw [Cut.whole_behind, ih]; rfl

/-- A block comment and what is behind it are the bytes it was cut from. -/
theorem blockCommentCut_whole (rest : List UInt8) : (blockCommentCut rest).whole = rest := by
  fun_induction blockCommentCut rest with
  | case1 | case2 => rfl
  | case3 c d rest h => rw [h.1, h.2]; rfl
  | case4 c d rest _ ih => rw [Cut.whole_behind, ih]; rfl

/-- What starts with a slash and what is behind it are the bytes it was cut from. -/
theorem slashCut_whole (rest : List UInt8) : (slashCut rest).whole = slash :: rest := by
  fun_cases slashCut rest with
  | case1 | case4 => rfl
  | case2 rest => rw [Cut.whole_behind, lineCommentCut_whole]; rfl
  | case3 rest => rw [Cut.whole_behind, blockCommentCut_whole]; rfl

/-- A run of bytes and what is behind it are the bytes it was cut from. -/
theorem takeWhile_whole (p : UInt8 → Bool) (kind : TokType) (c : UInt8) (rest : List UInt8) :
    Cut.whole ⟨⟨kind, c :: rest.takeWhile p⟩, rest.dropWhile p⟩ = c :: rest :=
  congrArg (c :: ·) List.takeWhile_append_dropWhile

/-- A piece and what is behind it are the bytes it was cut from. -/
theorem cut_whole (first : Bool) (c : UInt8) (rest : List UInt8) :
    (cut first c rest).whole = c :: rest := by
  fun_cases cut first c rest with
  | case1 | case5 | case6 => exact takeWhile_whole _ _ c rest
  | case2 => rw [Cut.whole_behind, directiveCut_whole]; rfl
  | case3 | case9 => rfl
  | case4 hblank hhash hslash =>
    rw [hslash]
    exact slashCut_whole rest
  | case7 | case8 => rw [Cut.whole_behind, literalCut_whole]; rfl

/-- What starts with a slash takes it. -/
theorem slashCut_text_ne_nil (rest : List UInt8) : (slashCut rest).text ≠ [] := by
  fun_cases slashCut rest with
  | case1 | case4 | case2 | case3 => exact List.cons_ne_nil _ _

/-- Every piece takes at least its first byte. -/
theorem cut_text_ne_nil (first : Bool) (c : UInt8) (rest : List UInt8) :
    (cut first c rest).text ≠ [] := by
  fun_cases cut first c rest with
  | case4 => exact slashCut_text_ne_nil rest
  | case1 | case2 | case3 | case5 | case6 | case7 | case8 | case9 => exact List.cons_ne_nil _ _

/-- No more than what follows the first byte is left behind a piece. -/
theorem cut_rest_le (first : Bool) (c : UInt8) (rest : List UInt8) :
    (cut first c rest).rest.length ≤ rest.length := by
  have hwhole := congrArg List.length (cut_whole first c rest)
  rw [Cut.whole, List.length_append, List.length_cons] at hwhole
  have hpos := List.length_pos_iff.mpr (cut_text_ne_nil first c rest)
  omega

/-- **The pieces are the file.** -/
theorem flatMap_pieces (inComments : Bool) (turns : ℕ) (first : Bool) (input : List UInt8)
    (h : input.length ≤ turns) :
    (pieces inComments turns first input).flatMap Piece.text = input := by
  induction turns generalizing first input with
  | zero =>
    rw [List.eq_nil_of_length_eq_zero (Nat.le_zero.mp h)]
    rfl
  | succ turns ih =>
    cases input with
    | nil => rfl
    | cons c rest =>
      have hle := cut_rest_le first c rest
      rw [List.length_cons] at h
      rw [pieces, List.flatMap_cons, ih _ _ (by omega)]
      exact cut_whole first c rest

/-! ## Words are whole -/

/-- What follows a hash is a directive. -/
theorem directiveCut_kind (rest : List UInt8) : (directiveCut rest).kind = .preproc := by
  fun_induction directiveCut rest with
  | case1 | case2 | case4 => rfl
  | case3 d rest ih => exact ih
  | case5 c rest _ _ ih => exact ih

/-- A line comment is a comment. -/
theorem lineCommentCut_kind (rest : List UInt8) : (lineCommentCut rest).kind = .comment := by
  fun_induction lineCommentCut rest with
  | case1 | case2 => rfl
  | case3 c rest _ ih => exact ih

/-- A literal is one of its kind or an error. -/
theorem literalCut_kind (quote : UInt8) (kind : TokType) (rest : List UInt8) :
    (literalCut quote kind rest).kind = kind ∨ (literalCut quote kind rest).kind = .err := by
  fun_induction literalCut quote kind rest with
  | case1 | case3 | case5 => exact .inr rfl
  | case2 => exact .inl rfl
  | case4 d rest _ ih => exact ih
  | case6 c rest _ _ _ ih => exact ih

/-- A block comment is closed, or an error that takes all the bytes. -/
theorem blockCommentCut_kind (rest : List UInt8) :
    ((blockCommentCut rest).kind = .comment ∧ 2 ≤ (blockCommentCut rest).text.length) ∨
      ((blockCommentCut rest).kind = .err ∧ (blockCommentCut rest).text = rest) := by
  fun_induction blockCommentCut rest with
  | case1 | case2 => exact .inr ⟨rfl, rfl⟩
  | case3 => exact .inl ⟨rfl, le_refl _⟩
  | case4 c d rest _ ih =>
    rcases ih with ⟨hkind, hlen⟩ | ⟨hkind, htext⟩
    · exact .inl ⟨hkind, Nat.le_succ_of_le hlen⟩
    · refine .inr ⟨hkind, ?_⟩
      rw [Cut.behind, htext]
      rfl

/-- **Words are whole**: a word is word characters up to one that is none, and blanks and
punctuation hold none. -/
structure Cut.Words (k : Cut) : Prop where
  whole : k.kind = .id ∨ k.kind = .num →
    (∀ c ∈ k.text, isWordChar c = true) ∧ ∀ c ∈ k.rest.head?, isWordChar c = false
  none : k.kind = .ws ∨ k.kind = .punct → ∀ c ∈ k.text, isWordChar c = false

variable {c : UInt8} {kind : TokType}

/-- A run of word characters is whole. -/
theorem words_word (hkind : kind = .id ∨ kind = .num)
    (hc : isWordChar c = true) (rest : List UInt8) :
    Cut.Words ⟨⟨kind, c :: rest.takeWhile isWordChar⟩, rest.dropWhile isWordChar⟩ where
  whole _ := by
    refine ⟨List.forall_mem_cons.mpr ⟨hc, fun d hd => List.mem_takeWhile_imp hd⟩, fun d hd => ?_⟩
    have hnot := List.head?_dropWhile_not isWordChar rest
    rw [Option.mem_def.mp hd] at hnot
    exact Bool.eq_false_iff.mpr (by simpa using hnot)
  none h := by rcases hkind with rfl | rfl <;> simp at h

/-- A punctuation character is none of a word. -/
theorem words_punct (hc : isWordChar c = false) (rest : List UInt8) :
    Cut.Words ⟨⟨.punct, [c]⟩, rest⟩ where
  whole h := by simp at h
  none _ := by simpa using hc

variable {k : Cut}

/-- Directives, comments, literals and errors are no words. -/
theorem words_other (h : k.kind = .preproc ∨ k.kind = .comment ∨ k.kind = .err ∨
    k.kind = .str ∨ k.kind = .chr) : k.Words := by
  constructor
  · intro hkind
    rcases h with h | h | h | h | h <;> simp [h] at hkind
  · intro hkind
    rcases h with h | h | h | h | h <;> simp [h] at hkind

/-- Every piece keeps words whole. -/
theorem cut_words (first : Bool) (c : UInt8) (rest : List UInt8) : (cut first c rest).Words := by
  have hblank : ∀ d, isBlank d = true → isWordChar d = false := by
    intro d hd
    simp only [isBlank, Bool.or_eq_true, beq_iff_eq] at hd
    rcases hd with (rfl | rfl) | rfl <;> decide
  fun_cases cut first c rest with
  | case1 hc =>
    exact ⟨fun h => by simp at h, fun _ => List.forall_mem_cons.mpr
      ⟨hblank c hc, fun d hd => hblank d (List.mem_takeWhile_imp hd)⟩⟩
  | case2 => exact words_other (.inl (directiveCut_kind rest))
  | case3 hc hhash => exact words_punct (by rw [hhash]; decide) rest
  | case4 hc hhash hslash =>
    fun_cases slashCut rest with
    | case1 => exact words_punct (by decide) []
    | case2 rest => exact words_other (.inr (.inl (lineCommentCut_kind rest)))
    | case3 rest =>
      rcases blockCommentCut_kind rest with h | h
      · exact words_other (.inr (.inl h.1))
      · exact words_other (.inr (.inr (.inl h.1)))
    | case4 d rest => exact words_punct (by decide) (d :: rest)
  | case5 hc hhash hslash hdigit => exact words_word (.inr rfl) (by simp [isWordChar, hdigit]) rest
  | case6 hc hhash hslash hdigit hword => exact words_word (.inl rfl) hword rest
  | case7 hc hhash hslash hdigit hword hquote =>
    rcases literalCut_kind doubleQuote .str rest with h | h
    · exact words_other (.inr (.inr (.inr (.inl h))))
    · exact words_other (.inr (.inr (.inl h)))
  | case8 hc hhash hslash hdigit hword hdouble hquote =>
    rcases literalCut_kind singleQuote .chr rest with h | h
    · exact words_other (.inr (.inr (.inr (.inr h))))
    · exact words_other (.inr (.inr (.inl h)))
  | case9 hc hhash hslash hdigit hword => exact words_punct (Bool.eq_false_iff.mpr hword) rest

/-! ## What the scanners find -/

/-- What a scanner finds of a piece, behind `p` bytes, when it counts so many lines. -/
def Cut.scanned (k : Cut) (p line lines : ℕ) (lineStart : Bool) : Scan :=
  { type := k.kind, taken := p + k.text.length, rest := k.rest,
    lineNo := BitVec.ofNat 32 (line + lines), lineStart }

/-- Bytes in front of a piece count as taken before it. -/
theorem Cut.scanned_behind (k : Cut) (front : List UInt8) (p line lines : ℕ) (lineStart : Bool) :
    (k.behind front).scanned p line lines lineStart =
      k.scanned (p + front.length) line lines lineStart := by
  simp [Cut.scanned, Cut.behind, Nat.add_assoc]

theorem ofNat_succ (line : ℕ) : BitVec.ofNat 32 line + 1 = BitVec.ofNat 32 (line + 1) :=
  (BitVec.ofNat_add line 1).symm

/-- The lines that `tok_string` and `tok_char` count: the one that breaks a literal, too. -/
def Cut.literalLines (k : Cut) : ℕ := k.lines + if k.kind = .err ∧ k.rest ≠ [] then 1 else 0

/-- A byte that is no backslash does not open an escape. -/
theorem endsInEscape_cons (hc : c ≠ backslash) (rest : List UInt8) :
    endsInEscape (c :: rest) = endsInEscape rest := by
  rw [endsInEscape.eq_def]
  exact if_neg hc

/-- A newline in front of a text is one line more. -/
theorem lines_cons (kind : TokType) (c : UInt8) (text : List UInt8) :
    Piece.lines ⟨kind, c :: text⟩ = (if c = newline then 1 else 0) + Piece.lines ⟨kind, text⟩ := by
  rw [Piece.lines, Piece.lines, List.count_cons, Nat.add_comm]
  simp

/-- Counting a newline adds one to the line. -/
theorem line_behind (c : UInt8) (line : ℕ) :
    (if c = newline then BitVec.ofNat 32 line + 1 else BitVec.ofNat 32 line) =
      BitVec.ofNat 32 (line + if c = newline then 1 else 0) := by
  split
  · exact ofNat_succ line
  · rfl

/-- Lines counted before a piece count with its own. -/
theorem Cut.scanned_line (k : Cut) (p line more lines : ℕ) (lineStart : Bool) :
    k.scanned p (line + more) lines lineStart = k.scanned p line (more + lines) lineStart := by
  rw [Cut.scanned, Cut.scanned, Nat.add_assoc]

/-- A newline in front of a piece is one line more. -/
theorem Cut.lines_behind (k : Cut) (c : UInt8) (front : List UInt8) :
    (k.behind (c :: front)).lines = (if c = newline then 1 else 0) + (k.behind front).lines :=
  lines_cons _ _ _

@[simp]
theorem Cut.kind_behind (k : Cut) (front : List UInt8) : (k.behind front).kind = k.kind := rfl

theorem Cut.behind_nil (k : Cut) : k.behind [] = k := rfl

/-- A newline in front of a literal is counted once. -/
theorem Cut.literalLines_behind (k : Cut) (c : UInt8) (front : List UInt8) :
    (k.behind (c :: front)).literalLines =
      (if c = newline then 1 else 0) + (k.behind front).literalLines := by
  rw [literalLines, lines_behind, Nat.add_assoc]
  rfl

variable {quote : UInt8}

/-- The scanner of a literal finds it and counts its lines, unless it ends in an open escape. -/
theorem literalLoop_eq (hslash : quote ≠ backslash) (hline : quote ≠ newline)
    (hkind : kind ≠ .err) (rest : List UInt8) (p line : ℕ) :
    literalLoop quote kind rest p (BitVec.ofNat 32 line) =
      if endsInEscape (literalCut quote kind rest).text then none
      else some ((literalCut quote kind rest).scanned p line
        (literalCut quote kind rest).literalLines false) := by
  fun_induction literalCut quote kind rest generalizing p line with
  | case1 => rfl
  | case2 rest =>
    rw [literalLoop.eq_def, endsInEscape_cons hslash]
    simp [endsInEscape, Cut.scanned, Cut.literalLines, Piece.lines, hkind, hline]
  | case3 hquote =>
    rw [literalLoop.eq_def]
    simp [endsInEscape, hquote]
  | case4 d rest hquote ih =>
    have hback : (backslash : UInt8) ≠ newline := by decide
    rw [literalLoop.eq_def]
    simp only [if_neg hquote, if_true, line_behind, ih]
    rw [Cut.scanned_behind, Cut.scanned_line, Cut.literalLines_behind, if_neg hback, Nat.zero_add,
      Cut.literalLines_behind, Cut.behind_nil]
    rfl
  | case5 rest hquote hback =>
    rw [literalLoop.eq_def]
    simp only [if_neg hquote, if_neg hback, if_true, ofNat_succ]
    rfl
  | case6 c rest hquote hback hnew ih =>
    rw [literalLoop.eq_def]
    simp only [if_neg hquote, if_neg hback, if_neg hnew, ih]
    rw [Cut.scanned_behind, Cut.literalLines_behind, if_neg hnew, Nat.zero_add, Cut.behind_nil,
      Cut.behind, List.singleton_append, endsInEscape_cons hback]
    rfl

/-- The scanner of a directive finds it and counts its lines, unless it ends in an open escape. -/
theorem preprocLoop_eq (lineStart : Bool) (rest : List UInt8) (p line : ℕ) :
    preprocLoop lineStart rest p (BitVec.ofNat 32 line) =
      if endsInEscape (directiveCut rest).text then none
      else some ((directiveCut rest).scanned p line (directiveCut rest).lines lineStart) := by
  fun_induction directiveCut rest generalizing p line with
  | case1 => rfl
  | case2 => rfl
  | case3 d rest ih =>
    have hback : (backslash : UInt8) ≠ newline := by decide
    rw [preprocLoop.eq_def]
    simp only [if_true, line_behind, ih]
    rw [Cut.scanned_behind, Cut.scanned_line, Cut.lines_behind, if_neg hback, Nat.zero_add,
      Cut.lines_behind, Cut.behind_nil]
    rfl
  | case4 rest hback =>
    rw [preprocLoop.eq_def]
    simp only [if_neg hback, if_true, ofNat_succ]
    rfl
  | case5 c rest hback hnew ih =>
    rw [preprocLoop.eq_def]
    simp only [if_neg hback, if_neg hnew, ih]
    rw [Cut.scanned_behind, Cut.lines_behind, if_neg hnew, Nat.zero_add, Cut.behind_nil,
      Cut.behind, List.singleton_append, endsInEscape_cons hback]
    rfl

/-- The scanner of a line comment finds it and counts its newline. -/
theorem lineCommentLoop_eq (lineStart : Bool) (rest : List UInt8) (p line : ℕ) :
    lineCommentLoop (BitVec.ofNat 32 line) lineStart rest p =
      (lineCommentCut rest).scanned p line (lineCommentCut rest).lines lineStart := by
  fun_induction lineCommentCut rest generalizing p with
  | case1 => rfl
  | case2 rest =>
    rw [lineCommentLoop.eq_def]
    simp only [if_true, ofNat_succ]
    rfl
  | case3 c rest hnew ih =>
    rw [lineCommentLoop.eq_def]
    simp only [if_neg hnew, ih]
    rw [Cut.scanned_behind, Cut.lines_behind, if_neg hnew, Nat.zero_add, Cut.behind_nil]
    rfl

/-- The scanner of a block comment finds one that is closed and counts no line; of an open one it
leaves the last byte. -/
theorem matchCommentLoop_eq (lineStart : Bool) (rest : List UInt8) (p line : ℕ) :
    matchCommentLoop (BitVec.ofNat 32 line) lineStart rest p =
      if (blockCommentCut rest).kind = .comment then
        (blockCommentCut rest).scanned p line 0 lineStart
      else ⟨.err, p + (rest.length - 1), rest.drop (rest.length - 1), BitVec.ofNat 32 line,
        lineStart⟩ := by
  fun_induction blockCommentCut rest generalizing p with
  | case1 => rfl
  | case2 => rfl
  | case3 c d rest h =>
    rw [matchCommentLoop.eq_def]
    simp only [if_pos h]
    rfl
  | case4 c d rest h ih =>
    rw [matchCommentLoop.eq_def]
    simp only [if_neg h, ih]
    by_cases hkind : (blockCommentCut (d :: rest)).kind = .comment
    · rw [Cut.kind_behind, if_pos hkind, if_pos hkind, Cut.scanned_behind]
      rfl
    · rw [Cut.kind_behind, if_neg hkind, if_neg hkind]
      simp [Nat.add_comm, Nat.add_left_comm]

/-- The scanner of white space finds it, counts its lines and marks its newlines. -/
theorem wsLoop_eq (rest : List UInt8) (p line : ℕ) (lineStart : Bool) :
    wsLoop rest p (BitVec.ofNat 32 line) lineStart =
      Cut.scanned ⟨⟨.ws, rest.takeWhile isBlank⟩, rest.dropWhile isBlank⟩ p line
        ((rest.takeWhile isBlank).count newline)
        (lineStart || (rest.takeWhile isBlank).contains newline) := by
  induction rest generalizing p line lineStart with
  | nil => simp [wsLoop, Cut.scanned]
  | cons c rest ih =>
    rw [wsLoop]
    by_cases hspace : c = blank ∨ c = tab
    · have hblank : isBlank c = true := by
        rcases hspace with rfl | rfl
        all_goals rfl
      have hnew : newline ≠ c := by
        rcases hspace with rfl | rfl
        all_goals decide
      rw [if_pos hspace, ih, List.takeWhile_cons_of_pos hblank, List.dropWhile_cons_of_pos hblank]
      simp [Cut.scanned, List.count_cons_of_ne hnew.symm, hnew, Nat.add_comm, Nat.add_left_comm]
    by_cases hnew : c = newline
    · subst hnew
      rw [if_neg hspace, if_pos rfl, ofNat_succ, ih, List.takeWhile_cons_of_pos rfl,
        List.dropWhile_cons_of_pos rfl]
      simp [Cut.scanned, Nat.add_assoc, Nat.add_comm 1 _]
    · have hblank : ¬ isBlank c = true := by
        rw [not_or] at hspace
        simp [isBlank, hspace.1, hspace.2, hnew]
      rw [if_neg hspace, if_neg hnew, List.takeWhile_cons_of_neg hblank,
        List.dropWhile_cons_of_neg hblank]
      simp [Cut.scanned]

/-- The scanner of a word takes what `isIdChar` accepts. -/
theorem wordLoop_eq (kind : TokType) (rest : List UInt8) (p line : ℕ) :
    wordLoop kind (BitVec.ofNat 32 line) rest p =
      Cut.scanned ⟨⟨kind, rest.takeWhile isIdChar⟩, rest.dropWhile isIdChar⟩ p line 0 false := by
  induction rest generalizing p with
  | nil => rfl
  | cons c rest ih =>
    rw [wordLoop]
    by_cases hc : isIdChar c = true
    · rw [if_pos hc, ih, List.takeWhile_cons_of_pos hc, List.dropWhile_cons_of_pos hc]
      simp [Cut.scanned, Nat.add_comm, Nat.add_left_comm]
    · rw [if_neg hc, List.takeWhile_cons_of_neg hc, List.dropWhile_cons_of_neg hc]
      rfl

/-! ## Which pieces the lexer finds -/

def Cut.countedLines (k : Cut) : ℕ :=
  if k.kind = .err then k.literalLines
  else if k.kind = .comment ∧ k.isBlock = true then 0
  else k.lines

/-- What is scanned is the piece just if it can be found. -/
structure Scans (scan : Option Scan) (k : Cut) (line : ℕ) (marked : Bool) : Prop where
  found : k.Findable marked →
    scan = some (k.scanned 0 line k.countedLines (k.endsMarked marked))
  missed : ¬ k.Findable marked → ∀ sc, scan = some sc → sc.type ≠ k.kind ∨ sc.taken < k.text.length

theorem isBlank_iff (c : UInt8) : isBlank c = true ↔ c = blank ∨ c = tab ∨ c = newline := by
  simp [isBlank, or_assoc]

/-- Of the word characters `isIdChar` leaves out the `K`. -/
theorem isIdChar_eq (c : UInt8) : isIdChar c = (isWordChar c && c != 75) := by
  by_cases hc : c = 75
  · subst hc
    decide
  · have hne : (c != 75) = true := by simpa using hc
    simp [isIdChar, isWordChar, hne]

variable {line : ℕ}

/-- Punctuation is always found. -/
theorem scans_punct (s : LexState) (c : UInt8) (hc : c ≠ newline) (rest : List UInt8)
    (hline : s.lineNo = BitVec.ofNat 32 line) (marked : Bool) :
    Scans (some (tokPunct s rest)) ⟨⟨.punct, [c]⟩, rest⟩ line marked where
  found _ := by
    have hlines : Cut.countedLines ⟨⟨.punct, [c]⟩, rest⟩ = 0 := by
      simp [Cut.countedLines, Piece.lines, hc]
    rw [hlines, tokPunct, hline]
    rfl
  missed h := absurd trivial h

/-- White space is always found. -/
theorem scans_ws (s : LexState) (c : UInt8) (rest : List UInt8)
    (hline : s.lineNo = BitVec.ofNat 32 line) :
    Scans (some (tokWs s c rest)) ⟨⟨.ws, c :: rest.takeWhile isBlank⟩, rest.dropWhile isBlank⟩ line
      s.lineStart where
  found _ := by
    have hlines : Cut.countedLines ⟨⟨.ws, c :: rest.takeWhile isBlank⟩, rest.dropWhile isBlank⟩ =
        (if c = newline then 1 else 0) + (rest.takeWhile isBlank).count newline :=
      lines_cons .ws c _
    rw [hlines, tokWs, hline, line_behind, wsLoop_eq, Cut.scanned_line]
    simp [Cut.scanned, Piece.endsMarked, Nat.add_comm]
  missed h := absurd trivial h

/-! ### Words -/

variable {rest : List UInt8}

/-- A run without a `K` is taken whole. -/
theorem takeWhile_isIdChar_eq (h : 75 ∉ rest.takeWhile isWordChar) :
    rest.takeWhile isIdChar = rest.takeWhile isWordChar ∧
      rest.dropWhile isIdChar = rest.dropWhile isWordChar := by
  induction rest with
  | nil => exact ⟨rfl, rfl⟩
  | cons c rest ih =>
    by_cases hc : isWordChar c = true
    · rw [List.takeWhile_cons_of_pos hc, List.mem_cons, not_or] at h
      have hid : isIdChar c = true := by
        rw [isIdChar_eq, hc]
        simpa using Ne.symm h.1
      simp [hc, hid, ih h.2]
    · have hid : ¬ isIdChar c = true := by simp [isIdChar_eq, hc]
      simp [hc, hid]

/-- A run with a `K` is cut off before it. -/
theorem takeWhile_isIdChar_lt (h : 75 ∈ rest.takeWhile isWordChar) :
    (rest.takeWhile isIdChar).length < (rest.takeWhile isWordChar).length := by
  induction rest with
  | nil => cases h
  | cons c rest ih =>
    by_cases hc : isWordChar c = true
    · rw [List.takeWhile_cons_of_pos hc] at h ⊢
      by_cases hK : c = 75
      · have hid : ¬ isIdChar c = true := by simp [isIdChar_eq, hK]
        simp [hid]
      · have hid : isIdChar c = true := by simp [isIdChar_eq, hc, hK]
        have hrest : 75 ∈ rest.takeWhile isWordChar := (List.mem_cons.mp h).resolve_left (Ne.symm hK)
        simpa [hid] using ih hrest
    · rw [List.takeWhile_cons_of_neg hc] at h
      cases h

/-- Words hold no newline. -/
theorem count_newline_word (rest : List UInt8) : (rest.takeWhile isWordChar).count newline = 0 := by
  rw [List.count_eq_zero]
  intro hmem
  exact absurd (List.mem_takeWhile_imp hmem) (by decide)

/-- A word is found iff it holds no `K`. -/
theorem scans_word (s : LexState) {num : Bool} (hc : isWordChar c = true) (hK : c ≠ 75)
    (rest : List UInt8) (hline : s.lineNo = BitVec.ofNat 32 line) (marked : Bool) :
    Scans (some (tokIdOrNum s rest num))
      ⟨⟨if num then .num else .id, c :: rest.takeWhile isWordChar⟩, rest.dropWhile isWordChar⟩ line
      marked := by
  have hnew : c ≠ newline := by
    rintro rfl
    exact absurd hc (by decide)
  have hlines : Cut.countedLines ⟨⟨if num then .num else .id, c :: rest.takeWhile isWordChar⟩,
      rest.dropWhile isWordChar⟩ = 0 := by
    cases num
    all_goals simp [Cut.countedLines, hnew, Piece.lines, count_newline_word]
  have hfind : Piece.Findable marked ⟨if num then .num else .id, c :: rest.takeWhile isWordChar⟩ ↔
      75 ∉ rest.takeWhile isWordChar := by
    cases num
    all_goals simp [Piece.Findable, Ne.symm hK]
  constructor
  · intro h
    obtain ⟨htake, hdrop⟩ := takeWhile_isIdChar_eq (hfind.mp h)
    rw [hlines, tokIdOrNum, hline, wordLoop_eq, htake, hdrop]
    cases num
    all_goals simp [Cut.scanned, Piece.endsMarked, Nat.add_comm]
  · intro h sc hsc
    have hlt := takeWhile_isIdChar_lt (not_not.mp fun hnot => h (hfind.mpr hnot))
    cases hsc
    refine .inr ?_
    rw [tokIdOrNum, hline, wordLoop_eq]
    simpa [Cut.scanned, Nat.add_comm] using hlt

/-- A word that starts with a `K` is taken for punctuation. -/
theorem scans_punct_word (s : LexState) (rest : List UInt8) (k : Cut) (hkind : k.kind = .id)
    (htext : 75 ∈ k.text) (line : ℕ) (marked : Bool) :
    Scans (some (tokPunct s rest)) k line marked where
  found h := by
    rw [Piece.Findable, hkind] at h
    exact absurd htext h
  missed _ sc hsc := by
    cases hsc
    rw [hkind]
    exact .inl (show TokType.punct ≠ .id by decide)

/-! ### Directives, comments and literals -/

/-- A directive is found iff its place is marked and it does not end in an open escape. -/
theorem scans_directive (s : LexState) (rest : List UInt8)
    (hline : s.lineNo = BitVec.ofNat 32 line) :
    Scans (if s.lineStart then tokPreproc s rest else some (tokPunct s rest))
      ((directiveCut rest).behind [hash]) line s.lineStart := by
  have hkind : ((directiveCut rest).behind [hash]).kind = .preproc := directiveCut_kind rest
  have hescape : endsInEscape ((directiveCut rest).behind [hash]).text =
      endsInEscape (directiveCut rest).text := endsInEscape_cons (by decide) _
  have hlines : ((directiveCut rest).behind [hash]).countedLines = (directiveCut rest).lines := by
    have hnew : hash ≠ newline := by decide
    rw [Cut.countedLines, hkind, Cut.lines_behind, if_neg hnew]
    simp [Cut.behind_nil]
  constructor
  · intro h
    rw [Piece.Findable, hkind] at h
    obtain ⟨hstart, hnot⟩ := h
    rw [hescape] at hnot
    rw [if_pos hstart, tokPreproc, hline, preprocLoop_eq, hnot, hlines, Cut.scanned_behind,
      Piece.endsMarked, hkind]
    rfl
  · intro h sc hsc
    rw [Piece.Findable, hkind, hescape] at h
    by_cases hstart : s.lineStart = true
    · have hopen : endsInEscape (directiveCut rest).text = true := by
        by_contra hnot
        exact h ⟨hstart, Bool.eq_false_iff.mpr hnot⟩
      rw [if_pos hstart, tokPreproc, hline, preprocLoop_eq, hopen] at hsc
      cases hsc
    · rw [if_neg hstart] at hsc
      cases hsc
      rw [hkind]
      exact .inl (show TokType.punct ≠ .preproc by decide)

/-- A closed literal does not end in an open escape. -/
theorem literalCut_closed (hslash : quote ≠ backslash)
    (rest : List UInt8) (h : (literalCut quote kind rest).kind ≠ .err) :
    endsInEscape (literalCut quote kind rest).text = false := by
  fun_induction literalCut quote kind rest with
  | case1 | case3 | case5 => exact absurd rfl h
  | case2 => exact endsInEscape_cons hslash []
  | case4 d rest _ ih => exact ih h
  | case6 c rest _ hback _ ih => exact (endsInEscape_cons hback _).trans (ih h)

/-- A literal is found unless it ends in an open escape. -/
theorem scans_literal (s : LexState) (hslash : quote ≠ backslash)
    (hnew : quote ≠ newline) (hopen : quote ≠ slash)
    (hkind : kind = .str ∨ kind = .chr) (rest : List UInt8)
    (hline : s.lineNo = BitVec.ofNat 32 line) (marked : Bool) :
    Scans (literalLoop quote kind rest 1 s.lineNo) ((literalCut quote kind rest).behind [quote]) line
      marked := by
  have herr : kind ≠ .err := by
    rcases hkind with rfl | rfl
    all_goals decide
  have hcases : (literalCut quote kind rest).kind = .err ∨ (literalCut quote kind rest).kind = .str ∨
      (literalCut quote kind rest).kind = .chr := by
    rcases literalCut_kind quote kind rest with h | h
    · exact .inr (by rwa [h])
    · exact .inl h
  have hlines : ((literalCut quote kind rest).behind [quote]).countedLines =
      (literalCut quote kind rest).literalLines := by
    have hsame : ((literalCut quote kind rest).behind [quote]).countedLines =
        ((literalCut quote kind rest).behind [quote]).literalLines := by
      rw [Cut.countedLines, Cut.literalLines, Cut.kind_behind]
      rcases hcases with h | h | h
      all_goals simp [h]
    rw [hsame, Cut.literalLines_behind, if_neg hnew, Nat.zero_add, Cut.behind_nil]
  have hfind : ((literalCut quote kind rest).behind [quote]).Findable marked ↔
      endsInEscape (literalCut quote kind rest).text = false := by
    have hescape : endsInEscape ((literalCut quote kind rest).behind [quote]).text =
      endsInEscape (literalCut quote kind rest).text := endsInEscape_cons hslash _
    rw [Piece.Findable, Cut.kind_behind, hescape]
    rcases hcases with h | h | h
    · simp [h, Cut.behind, hopen]
    · simp [h, literalCut_closed hslash rest (by rw [h]; decide)]
    · simp [h, literalCut_closed hslash rest (by rw [h]; decide)]
  constructor
  · intro h
    rw [hline, literalLoop_eq hslash hnew herr, hfind.mp h, hlines, Cut.scanned_behind,
      Piece.endsMarked, Cut.kind_behind]
    rcases hcases with h | h | h
    all_goals simp [h]
  · intro h sc hsc
    have hesc : endsInEscape (literalCut quote kind rest).text = true := by
      by_contra hnot
      exact h (hfind.mpr (Bool.eq_false_iff.mpr hnot))
    rw [hline, literalLoop_eq hslash hnew herr, hesc] at hsc
    cases hsc

/-- A block comment can be found iff it is closed and no slash follows its opening. -/
theorem findable_blockComment (rest : List UInt8) (marked : Bool) :
    ((blockCommentCut rest).behind [slash, star]).Findable marked ↔
      (blockCommentCut rest).kind = .comment ∧ rest.head? ≠ some slash := by
  have hwhole := blockCommentCut_whole rest
  rw [Piece.Findable, Cut.kind_behind]
  rcases blockCommentCut_kind rest with ⟨hkind, hlen⟩ | ⟨hkind, -⟩
  · cases htext : (blockCommentCut rest).text with
    | nil => simp [htext] at hlen
    | cons d text =>
      have hhead : rest.head? = some d := by
        rw [← hwhole, Cut.whole, htext]
        rfl
      simp [hkind, Cut.behind, htext, hhead, List.cons_prefix_cons, @eq_comm _ slash d]
  · simp [hkind, Cut.behind]

/-- A block comment is found iff it can be. -/
theorem scans_blockComment (s : LexState) (rest : List UInt8)
    (hline : s.lineNo = BitVec.ofNat 32 line) :
    Scans (some (matchComment s (star :: rest))) ((blockCommentCut rest).behind [slash, star]) line
      s.lineStart := by
  have hfind := findable_blockComment rest s.lineStart
  have hkind := blockCommentCut_kind rest
  rw [matchComment]
  cases rest with
  | nil =>
    refine ⟨fun h => absurd (hfind.mp h).1 (by decide), fun _ sc hsc => .inr ?_⟩
    cases hsc
    exact Nat.lt_succ_self 1
  | cons d rest =>
    by_cases hd : d = slash
    · subst hd
      rw [matchCommentLoop, if_pos ⟨rfl, rfl⟩]
      refine ⟨fun h => absurd rfl (hfind.mp h).2, fun _ sc hsc => ?_⟩
      cases hsc
      rcases hkind with ⟨-, hlen⟩ | ⟨hkind, -⟩
      · refine .inr ?_
        simp only [Cut.behind, List.length_append, List.length_cons, List.length_nil]
        omega
      · rw [Cut.kind_behind, hkind]
        exact .inl (show TokType.comment ≠ .err by decide)
    · rw [matchCommentLoop, if_neg fun h => hd h.2, hline, matchCommentLoop_eq]
      rcases hkind with ⟨hkind, -⟩ | ⟨hkind, htext⟩
      · have hfound : ((blockCommentCut (d :: rest)).behind [slash, star]).Findable s.lineStart :=
          hfind.mpr ⟨hkind, by simpa using hd⟩
        refine ⟨fun _ => ?_, fun h => absurd hfound h⟩
        have hlines : ((blockCommentCut (d :: rest)).behind [slash, star]).countedLines = 0 := by
          rw [Cut.countedLines, Cut.kind_behind, hkind]
          rfl
        rw [if_pos hkind, hlines, Cut.scanned_behind, Piece.endsMarked, Cut.kind_behind, hkind]
        rfl
      · have hnot : (blockCommentCut (d :: rest)).kind ≠ .comment := by
          rw [hkind]
          decide
        refine ⟨fun h => absurd (hfind.mp h).1 hnot, fun _ sc hsc => .inr ?_⟩
        rw [if_neg hnot] at hsc
        cases hsc
        simp only [Cut.behind, htext, List.length_append, List.length_cons, List.length_nil]
        omega

/-- A line comment is always found. -/
theorem scans_lineComment (s : LexState) (rest : List UInt8)
    (hline : s.lineNo = BitVec.ofNat 32 line) :
    Scans (some (lineComment s (slash :: rest))) ((lineCommentCut rest).behind [slash, slash]) line
      s.lineStart := by
  have hkind : ((lineCommentCut rest).behind [slash, slash]).kind = .comment :=
    lineCommentCut_kind rest
  have hnew : slash ≠ newline := by decide
  have hstar : slash ≠ star := by decide
  constructor
  · intro h
    have hlines : ((lineCommentCut rest).behind [slash, slash]).countedLines =
        (lineCommentCut rest).lines := by
      rw [Cut.countedLines, hkind, Cut.lines_behind, if_neg hnew, Cut.lines_behind, if_neg hnew]
      simp only [Piece.isBlock, Cut.behind, List.cons_append, List.getElem?_cons_succ,
        List.getElem?_cons_zero, beq_iff_eq, Option.some.injEq, hstar, and_false, if_false,
        Nat.zero_add]
      rfl
    rw [hlines, lineComment, lineCommentLoop, if_neg hnew, hline, lineCommentLoop_eq,
      Cut.scanned_behind, Piece.endsMarked, hkind]
    rfl
  · intro h
    rw [Piece.Findable, hkind] at h
    exact absurd (by simp [Cut.behind, hstar.symm]) h

/-- What starts with a slash is found iff it can be. -/
theorem scans_slash (s : LexState) (rest : List UInt8)
    (hline : s.lineNo = BitVec.ofNat 32 line) :
    Scans (some (tokCommentOrPunct s rest)) (slashCut rest) line s.lineStart := by
  fun_cases tokCommentOrPunct s rest with
  | case1 => exact scans_punct s slash (by decide) [] hline s.lineStart
  | case2 rest =>
    rw [slashCut, if_pos rfl]
    exact scans_lineComment s rest hline
  | case3 rest hslash =>
    rw [slashCut, if_neg hslash, if_pos rfl]
    exact scans_blockComment s rest hline
  | case4 c rest hslash hstar =>
    rw [slashCut, if_neg hslash, if_neg hstar]
    exact scans_punct s slash (by decide) (c :: rest) hline s.lineStart

/-- The scanner finds a piece iff it can be found there. -/
theorem scans_cut (s : LexState) (first : Bool) (c : UInt8) (rest : List UInt8)
    (hline : s.lineNo = BitVec.ofNat 32 line) (hfirst : s.lineStart = true → first = true) :
    Scans (scanToken s c rest) (cut first c rest) line s.lineStart := by
  rw [scanToken, cut]
  by_cases hblank : c = blank ∨ c = tab ∨ c = newline
  · rw [if_pos hblank, if_pos ((isBlank_iff c).mpr hblank)]
    exact scans_ws s c rest hline
  have hnew : c ≠ newline := fun h => hblank (.inr (.inr h))
  rw [if_neg hblank, if_neg fun h => hblank ((isBlank_iff c).mp h)]
  by_cases hhash : c = hash
  · subst hhash
    rw [if_pos rfl, if_pos rfl]
    cases first with
    | false =>
      have hstart : ¬ s.lineStart = true := fun h => Bool.false_ne_true (hfirst h)
      rw [if_neg hstart, if_neg Bool.false_ne_true]
      exact scans_punct s hash hnew rest hline s.lineStart
    | true => exact scans_directive s rest hline
  rw [if_neg hhash, if_neg hhash]
  by_cases hslash : c = slash
  · rw [if_pos hslash, if_pos hslash]
    exact scans_slash s rest hline
  rw [if_neg hslash, if_neg hslash]
  by_cases hdigit : isDigit c = true
  · have hword : isWordChar c = true := by simp [isWordChar, hdigit]
    have hK : c ≠ 75 := by
      rintro rfl
      exact absurd hdigit (by decide)
    rw [if_pos hdigit, if_pos hdigit]
    exact scans_word s hword hK rest hline s.lineStart
  rw [if_neg hdigit, if_neg hdigit]
  by_cases hword : isWordChar c = true
  · rw [if_pos hword]
    by_cases hK : c = 75
    · subst hK
      exact scans_punct_word s rest _ rfl List.mem_cons_self line s.lineStart
    · have hid : isIdChar c = true := by simp [isIdChar_eq, hword, hK]
      rw [if_pos hid]
      exact scans_word s hword hK rest hline s.lineStart
  have hid : ¬ isIdChar c = true := by simp [isIdChar_eq, hword]
  rw [if_neg hid, if_neg hword]
  by_cases hdouble : c = doubleQuote
  · subst hdouble
    rw [if_pos rfl, if_pos rfl]
    exact scans_literal s (by decide) (by decide) (by decide) (.inl rfl) rest hline s.lineStart
  rw [if_neg hdouble, if_neg hdouble]
  by_cases hsingle : c = singleQuote
  · subst hsingle
    rw [if_pos rfl, if_pos rfl]
    exact scans_literal s (by decide) (by decide) (by decide) (.inr rfl) rest hline s.lineStart
  rw [if_neg hsingle, if_neg hsingle]
  exact scans_punct s c hnew rest hline s.lineStart

/-! ## Runs -/

def Scan.stored (s : LexState) (k : Scan) : Tok :=
  { type := k.type, offset := s.offset, len := BitVec.ofNat 16 k.taken
    lineNo := s.lineNo.setWidth 16 }

def Scan.behind (s : LexState) (k : Scan) : LexState :=
  { toks := s.toks ++ [k.stored s], rest := k.rest, offset := s.offset + BitVec.ofNat 32 k.taken,
    lineNo := k.lineNo, lineStart := k.lineStart }

theorem LexState.store_eq (slots : ℕ) (s : LexState) (k : Scan) :
    s.store slots k = if s.toks.length < slots then some (k.behind s) else none := rfl

/-- The first token of a run is what the scanner found. -/
theorem lexLoop_finds {slots fuel : ℕ} {s s' : LexState}
    (hrest : s.rest = c :: rest) (h : lexLoop slots fuel s = some s') :
    ∃ k ts, scanToken s c rest = some k ∧ s'.toks = s.toks ++ k.stored s :: ts := by
  cases fuel with
  | zero =>
    rw [lexLoop, hrest] at h
    cases h
  | succ fuel =>
    rw [lexLoop_cons hrest] at h
    obtain ⟨s₁, hs₁, hloop⟩ := Option.bind_eq_some_iff.mp h
    obtain ⟨k, hk, hstore⟩ := Option.bind_eq_some_iff.mp hs₁
    rw [LexState.store_eq] at hstore
    obtain ⟨-, hbehind⟩ := Option.ite_none_right_eq_some.mp hstore
    cases hbehind
    have hoff : (k.behind s).offset = BitVec.ofNat 32 (k.behind s).offset.toNat := by simp
    obtain ⟨ts, htoks, -⟩ := lexLoop_laid hloop hoff
    refine ⟨k, ts, hk, ?_⟩
    rw [htoks]
    exact List.append_assoc _ _ _

/-- A number is stored in 16 bits iff it is below 2^15. -/
theorem toInt_ofNat_16 (n : ℕ) : (BitVec.ofNat 16 n).toInt = n ↔ n < 2 ^ 15 := by
  refine ⟨fun h => ?_, fun h => toInt_ofNat_of_lt (by omega)⟩
  have hlt : (BitVec.ofNat 16 n).toInt < 2 ^ 15 := BitVec.toInt_lt
  omega

/-- A number is stored in 32 bits iff it is below 2^31. -/
theorem toInt_ofNat_32 (n : ℕ) : (BitVec.ofNat 32 n).toInt = n ↔ n < 2 ^ 31 := by
  refine ⟨fun h => ?_, fun h => toInt_ofNat_of_lt (by omega)⟩
  have hlt : (BitVec.ofNat 32 n).toInt < 2 ^ 31 := BitVec.toInt_lt
  omega

theorem setWidth_lineNo (line : ℕ) :
    (BitVec.ofNat 32 line).setWidth 16 = BitVec.ofNat 16 line :=
  BitVec.setWidth_ofNat_of_le (by omega) line

/-- Behind a piece whose lines are counted wrong the next token has a wrong line. -/
theorem Cut.line_ne (hrest : k.rest = c :: rest)
    (h : ¬ k.Counted) (line : ℕ) :
    (BitVec.ofNat 16 (line + k.countedLines)).toInt ≠ (line + k.lines : ℕ) := by
  by_cases herr : k.kind = .err
  · have hlines : k.countedLines = k.lines + 1 := by
      simp [Cut.countedLines, Cut.literalLines, herr, hrest]
    rw [hlines, BitVec.toInt_eq_toNat_cond, BitVec.toNat_ofNat]
    split
    all_goals omega
  · have hblock : k.kind = .comment ∧ k.isBlock = true ∧ k.lines ≠ 0 := by
      by_contra hnot
      exact h ⟨herr, fun hkind hblock => by_contra fun hlines => hnot ⟨hkind, hblock, hlines⟩⟩
    have hlines : k.countedLines = 0 := by
      rw [Cut.countedLines, if_neg herr, if_pos ⟨hblock.1, hblock.2.1⟩]
    have hle := toInt_ofNat_le 16 (line + k.countedLines)
    have hpos := hblock.2.2
    omega

/-- Where lines are counted right the lexer counts those of the piece. -/
theorem Cut.countedLines_of_counted (h : k.Counted) : k.countedLines = k.lines := by
  rw [Cut.countedLines, if_neg h.1]
  split
  next hblock => exact (h.2 hblock.1 hblock.2).symm
  · rfl

/-- A marked place is the first on its line. -/
theorem Piece.endsFirst_of_endsMarked (inComments : Bool) {p : Piece} {marked first : Bool}
    (hfirst : marked = true → first = true) (h : p.endsMarked marked = true) :
    p.endsFirst inComments first = true := by
  obtain ⟨kind, text⟩ := p
  cases kind
  case ws =>
    simp only [Piece.endsMarked, Piece.endsFirst, Bool.or_eq_true] at h ⊢
    refine h.imp hfirst fun htail => ?_
    simp only [List.contains_iff_mem] at htail ⊢
    exact List.mem_of_mem_tail htail
  case comment => simp [Piece.endsFirst, hfirst h]
  case preproc => rfl
  all_goals cases h

variable {s : LexState}

/-- The token stored for a found piece is right iff its numbers fit. -/
theorem agree_stored {pos line lines : ℕ} (hoff : s.offset = BitVec.ofNat 32 pos)
    (hline : s.lineNo = BitVec.ofNat 32 line) (k : Cut) (lineStart : Bool) (ts : List Tok)
    (ps : List Piece) :
    Agree pos line ((k.scanned 0 line lines lineStart).stored s :: ts) (k.toPiece :: ps) ↔
      (pos < 2 ^ 31 ∧ k.text.length < 2 ^ 15 ∧ line < 2 ^ 15) ∧
        Agree (pos + k.text.length) (line + k.lines) ts ps := by
  rw [Agree, ← toInt_ofNat_16, ← toInt_ofNat_16, ← toInt_ofNat_32]
  simp only [Scan.stored, Cut.scanned, hoff, hline, setWidth_lineNo, Nat.zero_add, true_and]

/-- The offset behind a piece is that of its end. -/
theorem behind_scanned {pos : ℕ} (hoff : s.offset = BitVec.ofNat 32 pos)
    (k : Cut) (line lines : ℕ) (lineStart : Bool) :
    ((k.scanned 0 line lines lineStart).behind s).offset = BitVec.ofNat 32 (pos + k.text.length) := by
  simp only [Scan.behind, Cut.scanned, hoff, Nat.zero_add, BitVec.ofNat_add]

/-- Behind a piece whose lines are counted wrong no further piece is right. -/
theorem not_agree_of_not_counted {slots fuel pos line : ℕ} {s s' : LexState}
    {lineStart : Bool} {new : List Tok} {p : Piece} {ps : List Piece} (hcounted : ¬ k.Counted)
    (hrest : k.rest ≠ [])
    (h : lexLoop slots fuel ((k.scanned 0 line k.countedLines lineStart).behind s) = some s')
    (htoks : s'.toks = ((k.scanned 0 line k.countedLines lineStart).behind s).toks ++ new) :
    ¬ Agree pos (line + k.lines) new (p :: ps) := by
  obtain ⟨c, rest, hcons⟩ := List.exists_cons_of_ne_nil hrest
  obtain ⟨sc, ts, -, hfirst⟩ := lexLoop_finds hcons h
  rw [htoks, List.append_cancel_left_eq] at hfirst
  rw [hfirst, Agree]
  rintro ⟨⟨-, -, -, hlineNo⟩, -⟩
  refine k.line_ne hcons hcounted line ?_
  rw [← hlineNo, ← setWidth_lineNo]
  rfl

@[simp]
theorem pieces_nil (inComments : Bool) (turns : ℕ) (first : Bool) :
    pieces inComments turns first [] = [] := by
  cases turns
  all_goals rfl

/-- Bytes give at least one piece. -/
theorem pieces_ne_nil (inComments : Bool) {turns : ℕ} (first : Bool) {input : List UInt8}
    (hne : input ≠ []) (hturns : input.length ≤ turns) :
    ∃ p ps, pieces inComments turns first input = p :: ps := by
  cases input with
  | nil => exact absurd rfl hne
  | cons c rest =>
    cases turns with
    | zero => simp at hturns
    | succ turns => exact ⟨_, _, rfl⟩

/-- A run that stored a piece is right iff the numbers fit and what follows is right. -/
theorem run_stored_iff {slots turns pos line lines : ℕ} {lineStart : Bool}
    (hoff : s.offset = BitVec.ofNat 32 pos) (hline : s.lineNo = BitVec.ofNat 32 line)
    (ps : List Piece) :
    (∃ s' new, lexLoop slots turns ((k.scanned 0 line lines lineStart).behind s) = some s' ∧
        s'.toks = s.toks ++ new ∧ Agree pos line new (k.toPiece :: ps)) ↔
      (pos < 2 ^ 31 ∧ k.text.length < 2 ^ 15 ∧ line < 2 ^ 15) ∧
        ∃ s' new, lexLoop slots turns ((k.scanned 0 line lines lineStart).behind s) = some s' ∧
          s'.toks = ((k.scanned 0 line lines lineStart).behind s).toks ++ new ∧
          Agree (pos + k.text.length) (line + k.lines) new ps := by
  have htoks : ∀ new, ((k.scanned 0 line lines lineStart).behind s).toks ++ new =
      s.toks ++ (k.scanned 0 line lines lineStart).stored s :: new := fun new =>
    List.append_assoc _ _ _
  constructor
  · rintro ⟨s', new, hloop, hnew, hagree⟩
    obtain ⟨rest, hrest, -⟩ := lexLoop_laid hloop (behind_scanned hoff k line lines lineStart)
    rw [hrest, htoks, List.append_cancel_left_eq] at hnew
    rw [← hnew, agree_stored hoff hline] at hagree
    exact ⟨hagree.1, s', rest, hloop, hrest, hagree.2⟩
  · rintro ⟨hfits, s', rest, hloop, hrest, hagree⟩
    exact ⟨s', _, hloop, hrest.trans (htoks rest), (agree_stored hoff hline k _ _ ps).mpr
      ⟨hfits, hagree⟩⟩

/-- From any state the tokens are the pieces just if they are found. -/
theorem lexLoop_found (inComments : Bool) {slots turns pos line : ℕ} {first : Bool}
    (hturns : s.rest.length ≤ turns) (hoff : s.offset = BitVec.ofNat 32 pos)
    (hline : s.lineNo = BitVec.ofNat 32 line) (hfirst : s.lineStart = true → first = true) :
    (∃ s' new, lexLoop slots turns s = some s' ∧ s'.toks = s.toks ++ new ∧
        Agree pos line new (pieces inComments turns first s.rest)) ↔
      Found slots s.toks.length pos line s.lineStart (pieces inComments turns first s.rest) := by
  induction turns generalizing pos line s first with
  | zero =>
    have hrest : s.rest = [] := List.eq_nil_of_length_eq_zero (by omega)
    rw [hrest, lexLoop_nil hrest]
    exact ⟨fun _ => trivial, fun _ => ⟨s, [], rfl, (List.append_nil _).symm, trivial⟩⟩
  | succ turns ih =>
    rcases hrest : s.rest with _ | ⟨c, rest⟩
    · rw [lexLoop_nil hrest]
      exact ⟨fun _ => trivial, fun _ => ⟨s, [], rfl, (List.append_nil _).symm, trivial⟩⟩
    rw [hrest, List.length_cons] at hturns
    have hscans := scans_cut s first c rest hline hfirst
    have hle := cut_rest_le first c rest
    rw [pieces, Found]
    generalize cut first c rest = k at hscans hle ⊢
    by_cases hfind : k.Findable s.lineStart
    · rw [lexLoop_cons hrest, hscans.found hfind, Option.bind_some, LexState.store_eq]
      by_cases hroom : s.toks.length < slots
      · rw [if_pos hroom, Option.bind_some, run_stored_iff hoff hline]
        have hbehind := behind_scanned hoff k line k.lines (k.endsMarked s.lineStart)
        by_cases hcounted : k.Counted
        · have hlen : ((k.scanned 0 line k.lines (k.endsMarked s.lineStart)).behind s).rest.length ≤
              turns := hle.trans (Nat.le_of_succ_le_succ hturns)
          have hnext := ih hlen hbehind rfl (Piece.endsFirst_of_endsMarked inComments hfirst)
          have htokens : ((k.scanned 0 line k.lines
              (k.endsMarked s.lineStart)).behind s).toks.length = s.toks.length + 1 :=
            List.length_append
          rw [htokens] at hnext
          rw [Cut.countedLines_of_counted hcounted]
          refine (and_congr_right' hnext).trans ?_
          exact ⟨fun h => ⟨⟨hfind, fun _ => hcounted⟩, ⟨hroom, h.1⟩, h.2⟩,
            fun h => ⟨h.2.1.2, h.2.2⟩⟩
        by_cases hend : k.rest = []
        · -- The last piece: no token shows that its lines are counted otherwise.
          rw [hend, pieces_nil]
          refine ⟨fun h => ⟨⟨hfind, fun h => absurd rfl h⟩, ⟨hroom, h.1⟩, trivial⟩, fun h =>
            ⟨h.2.1.2, _, [], lexLoop_nil hend, (List.append_nil _).symm, trivial⟩⟩
        · obtain ⟨p, ps, hps⟩ := pieces_ne_nil inComments (k.endsFirst inComments first) hend
            (hle.trans (Nat.le_of_succ_le_succ hturns))
          rw [hps]
          refine iff_of_false ?_ fun h => hcounted (h.1.2 (List.cons_ne_nil _ _))
          rintro ⟨-, s', new, hloop, htoks, hagree⟩
          exact not_agree_of_not_counted hcounted hend hloop htoks hagree
      · rw [if_neg hroom]
        refine iff_of_false ?_ fun h => hroom h.2.1.1
        rintro ⟨s', new, hloop, -⟩
        cases hloop
    · refine iff_of_false ?_ fun h => hfind h.1.1
      rintro ⟨s', new, hloop, htoks, hagree⟩
      obtain ⟨sc, ts, hscan, hfirst⟩ := lexLoop_finds hrest hloop
      rw [htoks, List.append_cancel_left_eq] at hfirst
      rw [hfirst, Agree] at hagree
      obtain ⟨⟨htype, -, hlen, -⟩, -⟩ := hagree
      rcases hscans.missed hfind sc hscan with hne | hlt
      · exact hne htype
      · have hshort := toInt_ofNat_le 16 sc.taken
        simp only [Scan.stored] at hlen
        omega

end N00b.Ncpp
