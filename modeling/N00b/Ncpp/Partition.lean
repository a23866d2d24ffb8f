import N00b.Ncpp.Tokenize

/-!
# What the lexer splits into tokens

A reader goes over the bytes once, never looks ahead and never back, and says whether the tokens that
`lex` makes of them can be stored. It keeps where the current token began and how many there are.

## Main results

- `reads_scanToken`: the reader follows each scanner to its end.
- `lex_partitions_iff`: the tokens partition the input exactly when the reader accepts it.
-/

namespace N00b.Ncpp

/-! ## The reader -/

/-- What the bytes since the last boundary are the beginning of. `lineStart` is kept where a token
leaves it as it was. -/
inductive Mode where
  | code (lineStart : Bool)
  | ws (lineStart : Bool)
  | word
  | literal (quote : UInt8)
  | literalEscape (quote : UInt8)
  | directive (lineStart : Bool)
  | directiveEscape (lineStart : Bool)
  | slash (lineStart : Bool)
  | lineComment (lineStart : Bool)
  | blockComment (lineStart afterStar : Bool)
  deriving DecidableEq, Repr

/-- The reader: `start` is where the current token began, or the last one when there is none. -/
structure Reader where
  mode : Mode
  start : ℕ
  pos : ℕ
  tokens : ℕ
  deriving DecidableEq, Repr

/-- How a token can begin. One of a single byte is over at once. -/
def Mode.ofByte (lineStart : Bool) (c : UInt8) : Mode :=
  if c = blank ∨ c = tab ∨ c = newline then .ws lineStart
  else if c = hash then if lineStart then .directive lineStart else .code false
  else if c = Ncpp.slash then .slash lineStart
  else if isDigit c ∨ isIdChar c then .word
  else if c = doubleQuote ∨ c = singleQuote then .literal c
  else .code false

/-- A token may begin here: there is room for it, and its offset fits. -/
def Reader.mayBegin (slots : ℕ) (r : Reader) : Bool := r.tokens < slots && r.pos < 2 ^ 31

/-- The length of the token that ends before `pos` fits. -/
def Reader.mayEnd (r : Reader) : Bool := r.pos - r.start ≤ 32767

/-- The next byte is the first of a token. -/
def Reader.begins (slots : ℕ) (lineStart : Bool) (c : UInt8) (r : Reader) : Option Reader :=
  if r.mayBegin slots then some ⟨Mode.ofByte lineStart c, r.pos, r.pos + 1, r.tokens + 1⟩ else none

/-- The next byte is one more of the token. -/
def Reader.goesOn (mode : Mode) (r : Reader) : Reader := { r with mode, pos := r.pos + 1 }

/-- The next byte is the last of the token. -/
def Reader.ends (lineStart : Bool) (r : Reader) : Option Reader :=
  if (r.goesOn r.mode).mayEnd then some (r.goesOn (.code lineStart)) else none

/-- The token has ended, and the next byte begins another. -/
def Reader.endsBefore (slots : ℕ) (lineStart : Bool) (c : UInt8) (r : Reader) : Option Reader :=
  if r.mayEnd then r.begins slots lineStart c else none

def Reader.step (slots : ℕ) (c : UInt8) (r : Reader) : Option Reader :=
  match r.mode with
  | .code lineStart => r.begins slots lineStart c
  | .ws lineStart =>
    if c = blank ∨ c = tab then some (r.goesOn (.ws lineStart))
    else if c = newline then some (r.goesOn (.ws true))
    else r.endsBefore slots lineStart c
  | .word => if isIdChar c then some (r.goesOn .word) else r.endsBefore slots false c
  | .literal quote =>
    if c = quote then r.ends false
    else if c = backslash then some (r.goesOn (.literalEscape quote))
    else if c = newline then r.endsBefore slots false c
    else some (r.goesOn (.literal quote))
  | .literalEscape quote => some (r.goesOn (.literal quote))
  | .directive lineStart =>
    if c = backslash then some (r.goesOn (.directiveEscape lineStart))
    else if c = newline then r.ends lineStart
    else some (r.goesOn (.directive lineStart))
  | .directiveEscape lineStart => some (r.goesOn (.directive lineStart))
  | .slash lineStart =>
    if c = Ncpp.slash then some (r.goesOn (.lineComment lineStart))
    else if c = star then some (r.goesOn (.blockComment lineStart true))
    else r.endsBefore slots false c
  | .lineComment lineStart =>
    if c = newline then r.ends lineStart else some (r.goesOn (.lineComment lineStart))
  | .blockComment lineStart afterStar =>
    if afterStar ∧ c = Ncpp.slash then r.ends lineStart
    else some (r.goesOn (.blockComment lineStart (c = star)))

/-- The end of the input. Nothing may be escaped there, and an open comment leaves its last byte to
a token of its own. -/
def Reader.final (slots : ℕ) (r : Reader) : Bool :=
  match r.mode with
  | .code _ => true
  | .literalEscape _ | .directiveEscape _ => false
  | .blockComment _ _ =>
    { r with pos := r.pos - 1 }.mayEnd && { r with pos := r.pos - 1 }.mayBegin slots
  | _ => r.mayEnd

def Reader.reads (slots : ℕ) : Reader → List UInt8 → Bool
  | r, [] => r.final slots
  | r, c :: rest =>
    match r.step slots c with
    | none => false
    | some r' => r'.reads slots rest

def Reader.init : Reader := { mode := .code true, start := 0, pos := 0, tokens := 0 }

example : Reader.init.reads 4 [35, 97, 92, 10, 98, 10, 47, 42, 47] = true := by decide

/-! ## The reader follows the scanners -/

/-- What the reader makes of a token that began at `start`, and of the bytes behind it. -/
def Scan.resumes (slots start tokens : ℕ) (k : Scan) : Bool :=
  k.taken ≤ 32767 &&
    Reader.reads slots ⟨.code k.lineStart, start, start + k.taken, tokens⟩ k.rest

section Scanners

variable {slots start tokens p : ℕ} {mode : Mode} {c : UInt8} {rest : List UInt8}

/-- A byte that goes on leaves the reading to the rest. -/
theorem Reader.reads_goesOn {r r' : Reader} (h : r.step slots c = some r') :
    r.reads slots (c :: rest) = r'.reads slots rest := by
  rw [Reader.reads, h]

variable {lineStart : Bool}

/-- A byte that ends a token leaves the rest to the next one. -/
theorem Reader.reads_ends (type : TokType) (line : BitVec 32)
    (h : Reader.step slots c ⟨mode, start, start + p, tokens⟩ =
      Reader.ends lineStart ⟨mode, start, start + p, tokens⟩) :
    Reader.reads slots ⟨mode, start, start + p, tokens⟩ (c :: rest) =
      Scan.resumes slots start tokens ⟨type, p + 1, rest, line, lineStart⟩ := by
  rw [Reader.reads, h, Reader.ends, Scan.resumes]
  have hend : (Reader.goesOn mode ⟨mode, start, start + p, tokens⟩).mayEnd =
      decide (p + 1 ≤ 32767) := by
    simp only [Reader.mayEnd, Reader.goesOn, Nat.add_assoc, Nat.add_sub_cancel_left]
  rw [hend]
  by_cases hp : p + 1 ≤ 32767
  · simp [hp, Reader.goesOn, Nat.add_assoc]
  · simp [hp]

/-- A token may end when its length fits. -/
theorem Reader.mayEnd_mk : Reader.mayEnd ⟨mode, start, start + p, tokens⟩ = decide (p ≤ 32767) := by
  simp only [Reader.mayEnd, Nat.add_sub_cancel_left]

/-- A byte before which a token ends begins the next one. -/
theorem Reader.reads_endsBefore (type : TokType) (line : BitVec 32)
    (h : Reader.step slots c ⟨mode, start, start + p, tokens⟩ =
      Reader.endsBefore slots lineStart c ⟨mode, start, start + p, tokens⟩) :
    Reader.reads slots ⟨mode, start, start + p, tokens⟩ (c :: rest) =
      Scan.resumes slots start tokens ⟨type, p, c :: rest, line, lineStart⟩ := by
  rw [Reader.reads, h, Reader.endsBefore, Reader.mayEnd_mk, Scan.resumes]
  by_cases hp : p ≤ 32767
  · rw [if_pos (decide_eq_true hp), decide_eq_true hp, Bool.true_and]
    rfl
  · rw [if_neg (by simpa using hp), decide_eq_false hp, Bool.false_and]

/-- The end of the input ends a token. -/
theorem Reader.reads_nil (type : TokType) (line : BitVec 32)
    (h : Reader.final slots ⟨mode, start, start + p, tokens⟩ =
      Reader.mayEnd ⟨mode, start, start + p, tokens⟩) :
    Reader.reads slots ⟨mode, start, start + p, tokens⟩ [] =
      Scan.resumes slots start tokens ⟨type, p, [], line, lineStart⟩ := by
  rw [Reader.reads, h, Reader.mayEnd_mk, Scan.resumes]
  exact (Bool.and_true _).symm

/-- The reader follows white space. -/
theorem reads_wsLoop (rest : List UInt8) (p : ℕ) (line : BitVec 32) (lineStart : Bool) :
    Reader.reads slots ⟨.ws lineStart, start, start + p, tokens⟩ rest =
      (wsLoop rest p line lineStart).resumes slots start tokens := by
  fun_induction wsLoop rest p line lineStart with
  | case1 p line lineStart => exact Reader.reads_nil .ws line rfl
  | case2 c rest p line lineStart hc ih =>
    refine (Reader.reads_goesOn ?_).trans ih
    exact if_pos hc
  | case3 rest p line lineStart hc ih => exact (Reader.reads_goesOn rfl).trans ih
  | case4 c rest p line lineStart hc hn =>
    exact Reader.reads_endsBefore .ws line ((if_neg hc).trans (if_neg hn))

/-- The reader follows a word. -/
theorem reads_wordLoop (type : TokType) (line : BitVec 32) (rest : List UInt8) (p : ℕ) :
    Reader.reads slots ⟨.word, start, start + p, tokens⟩ rest =
      (wordLoop type line rest p).resumes slots start tokens := by
  fun_induction wordLoop type line rest p with
  | case1 p => exact Reader.reads_nil type line rfl
  | case2 c rest p hc ih =>
    refine (Reader.reads_goesOn ?_).trans ih
    exact if_pos hc
  | case3 c rest p hc => exact Reader.reads_endsBefore type line (if_neg hc)

/-- The reader follows a line comment. -/
theorem reads_lineCommentLoop (line : BitVec 32) (lineStart : Bool) (rest : List UInt8) (p : ℕ) :
    Reader.reads slots ⟨.lineComment lineStart, start, start + p, tokens⟩ rest =
      (lineCommentLoop line lineStart rest p).resumes slots start tokens := by
  fun_induction lineCommentLoop line lineStart rest p with
  | case1 p => exact Reader.reads_nil .comment line rfl
  | case2 rest p => exact Reader.reads_ends .comment (line + 1) rfl
  | case3 c rest p hc ih =>
    refine (Reader.reads_goesOn ?_).trans ih
    exact if_neg hc

/-- The reader follows a literal. -/
theorem reads_literalLoop (quote : UInt8) (type : TokType) (rest : List UInt8) (p : ℕ)
    (line : BitVec 32) :
    Reader.reads slots ⟨.literal quote, start, start + p, tokens⟩ rest =
      (literalLoop quote type rest p line).elim false (Scan.resumes slots start tokens) := by
  fun_induction literalLoop quote type rest p line with
  | case1 p line => exact Reader.reads_nil .err line rfl
  | case2 rest p line => exact Reader.reads_ends type line (if_pos rfl)
  | case3 p line hq =>
    have hstep : Reader.step slots backslash ⟨.literal quote, start, start + p, tokens⟩ =
        some ⟨.literalEscape quote, start, start + p + 1, tokens⟩ :=
      (if_neg hq).trans (if_pos rfl)
    exact (Reader.reads_goesOn hstep).trans rfl
  | case4 p line d rest hq ih =>
    have hstep : Reader.step slots backslash ⟨.literal quote, start, start + p, tokens⟩ =
        some ⟨.literalEscape quote, start, start + p + 1, tokens⟩ :=
      (if_neg hq).trans (if_pos rfl)
    exact (Reader.reads_goesOn hstep).trans ((Reader.reads_goesOn rfl).trans ih)
  | case5 rest p line hq hb =>
    exact Reader.reads_endsBefore .err (line + 1)
      ((if_neg hq).trans ((if_neg hb).trans (if_pos rfl)))
  | case6 c rest p line hq hb hn ih =>
    refine (Reader.reads_goesOn ?_).trans ih
    exact (if_neg hq).trans ((if_neg hb).trans (if_neg hn))

/-- The reader follows a directive. -/
theorem reads_preprocLoop (lineStart : Bool) (rest : List UInt8) (p : ℕ) (line : BitVec 32) :
    Reader.reads slots ⟨.directive lineStart, start, start + p, tokens⟩ rest =
      (preprocLoop lineStart rest p line).elim false (Scan.resumes slots start tokens) := by
  fun_induction preprocLoop lineStart rest p line with
  | case1 p line => exact Reader.reads_nil .preproc line rfl
  | case2 p line => rfl
  | case3 p line d rest ih =>
    exact (Reader.reads_goesOn rfl).trans ((Reader.reads_goesOn rfl).trans ih)
  | case4 rest p line hb => exact Reader.reads_ends .preproc (line + 1) rfl
  | case5 c rest p line hb hn ih =>
    refine (Reader.reads_goesOn ?_).trans ih
    exact (if_neg hb).trans (if_neg hn)

/-- A token of one byte may end the input. -/
theorem Reader.final_ofByte (lineStart : Bool) (c : UInt8) (pos tokens : ℕ) :
    Reader.final slots ⟨Mode.ofByte lineStart c, pos, pos + 1, tokens⟩ = true := by
  have hone : ∀ mode, Reader.mayEnd ⟨mode, pos, pos + 1, tokens⟩ = true := by
    intro mode
    rw [Reader.mayEnd_mk]
    rfl
  rw [Mode.ofByte]
  split_ifs <;> first | rfl | exact hone _

/-- Between tokens a byte begins one where it may. -/
theorem Reader.reads_begins {pos : ℕ} (c : UInt8) (rest : List UInt8) :
    Reader.reads slots ⟨.code lineStart, start, pos, tokens⟩ (c :: rest) =
      (Reader.mayBegin slots ⟨.code lineStart, start, pos, tokens⟩ &&
        Reader.reads slots ⟨Mode.ofByte lineStart c, pos, pos + 1, tokens + 1⟩ rest) := by
  rw [Reader.reads]
  simp only [Reader.step, Reader.begins]
  by_cases hb : Reader.mayBegin slots ⟨.code lineStart, start, pos, tokens⟩ = true
  · rw [if_pos hb, hb, Bool.true_and]
  · rw [if_neg hb, eq_false_of_ne_true hb, Bool.false_and]

/-- The reader follows a block comment. -/
theorem reads_matchCommentLoop (line : BitVec 32) (lineStart : Bool) (rest : List UInt8) (c : UInt8)
    (p : ℕ) :
    Reader.reads slots ⟨.blockComment lineStart (c = star), start, start + (p + 1), tokens⟩ rest =
      (matchCommentLoop line lineStart (c :: rest) p).resumes slots start tokens := by
  induction rest generalizing c p with
  | nil =>
    -- the comment is open, and its last byte is a token of its own
    rw [matchCommentLoop, Scan.resumes, Reader.reads_begins, Reader.reads, Reader.reads,
      Reader.final_ofByte, Bool.and_true, Reader.final]
    show (Reader.mayEnd ⟨_, start, start + p, tokens⟩ && _) = _
    rw [Reader.mayEnd_mk]
    rfl
  | cons d rest ih =>
    rw [matchCommentLoop]
    by_cases hcd : c = star ∧ d = slash
    · rw [if_pos hcd]
      refine Reader.reads_ends .comment line ?_
      exact if_pos (by simpa using hcd)
    · rw [if_neg hcd, ← ih d (p + 1)]
      refine Reader.reads_goesOn ?_
      exact if_neg (by simpa using hcd)

theorem reads_tokPunct (s : LexState) (rest : List UInt8) :
    Reader.reads slots ⟨.code false, start, start + 1, tokens⟩ rest =
      (tokPunct s rest).resumes slots start tokens := rfl

/-- The reader follows what starts with a slash. -/
theorem reads_tokCommentOrPunct (s : LexState) (rest : List UInt8) :
    Reader.reads slots ⟨.slash s.lineStart, start, start + 1, tokens⟩ rest =
      (tokCommentOrPunct s rest).resumes slots start tokens := by
  fun_cases tokCommentOrPunct s rest with
  | case1 => exact Reader.reads_nil .punct s.lineNo rfl
  | case2 rest => exact (Reader.reads_goesOn rfl).trans (reads_lineCommentLoop _ _ rest 2)
  | case3 rest => exact (Reader.reads_goesOn rfl).trans (reads_matchCommentLoop _ _ rest star 1)
  | case4 c rest hslash hstar =>
    exact Reader.reads_endsBefore .punct s.lineNo ((if_neg hslash).trans (if_neg hstar))

/-- The reader follows the scan of any token. -/
theorem reads_scanToken (s : LexState) (c : UInt8) (rest : List UInt8) :
    Reader.reads slots ⟨Mode.ofByte s.lineStart c, start, start + 1, tokens⟩ rest =
      (scanToken s c rest).elim false (Scan.resumes slots start tokens) := by
  rw [Mode.ofByte]
  fun_cases scanToken s c rest with
  | case1 hws =>
    rw [if_pos hws]
    exact reads_wsLoop rest 1 _ s.lineStart
  | case2 hws hhash hstart =>
    rw [if_neg hws, if_pos hhash, if_pos hstart]
    exact reads_preprocLoop s.lineStart rest 1 s.lineNo
  | case3 hws hhash hstart =>
    rw [if_neg hws, if_pos hhash, if_neg hstart]
    exact reads_tokPunct s rest
  | case4 hws hhash hslash =>
    rw [if_neg hws, if_neg hhash, if_pos hslash]
    exact reads_tokCommentOrPunct s rest
  | case5 hws hhash hslash hdigit =>
    rw [if_neg hws, if_neg hhash, if_neg hslash, if_pos (Or.inl hdigit)]
    exact reads_wordLoop .num s.lineNo rest 1
  | case6 hws hhash hslash hdigit hid =>
    rw [if_neg hws, if_neg hhash, if_neg hslash, if_pos (Or.inr hid)]
    exact reads_wordLoop .id s.lineNo rest 1
  | case7 hws hhash hslash hdigit hid hquote =>
    rw [if_neg hws, if_neg hhash, if_neg hslash, if_neg (not_or.mpr ⟨hdigit, hid⟩),
      if_pos (Or.inl hquote), hquote]
    exact reads_literalLoop doubleQuote .str rest 1 s.lineNo
  | case8 hws hhash hslash hdigit hid hquote hsingle =>
    rw [if_neg hws, if_neg hhash, if_neg hslash, if_neg (not_or.mpr ⟨hdigit, hid⟩),
      if_pos (Or.inr hsingle), hsingle]
    exact reads_literalLoop singleQuote .chr rest 1 s.lineNo
  | case9 hws hhash hslash hdigit hid hquote hsingle =>
    rw [if_neg hws, if_neg hhash, if_neg hslash, if_neg (not_or.mpr ⟨hdigit, hid⟩),
      if_neg (not_or.mpr ⟨hquote, hsingle⟩)]
    exact reads_tokPunct s rest

end Scanners

/-! ## The lexer partitions what the reader accepts -/

/-- A token is stored while there are slots. -/
theorem LexState.store_of_lt {slots : ℕ} {s : LexState} (k : Scan) (h : s.toks.length < slots) :
    ∃ s', s.store slots k = some s' :=
  ⟨_, if_pos h⟩

/-- The lexer's tokens cover the input iff the reader accepts it. -/
theorem lexLoop_reads {slots fuel pos : ℕ} {s : LexState} (start : ℕ)
    (hfuel : s.rest.length ≤ fuel) (hoff : s.offset = BitVec.ofNat 32 pos)
    (hcov : Covers 0 s.toks pos) :
    (∃ s', lexLoop slots fuel s = some s' ∧ Covers 0 s'.toks ↑(pos + s.rest.length)) ↔
      Reader.reads slots ⟨.code s.lineStart, start, pos, s.toks.length⟩ s.rest = true := by
  induction fuel generalizing s pos start with
  | zero =>
    have hrest : s.rest = [] := List.eq_nil_of_length_eq_zero (by omega)
    rw [hrest, lexLoop_nil hrest]
    exact ⟨fun _ => rfl, fun _ => ⟨s, rfl, hcov⟩⟩
  | succ fuel ih =>
    rcases hrest : s.rest with _ | ⟨c, rest⟩
    · rw [lexLoop_nil hrest]
      exact ⟨fun _ => rfl, fun _ => ⟨s, rfl, hcov⟩⟩
    rw [hrest, List.length_cons] at hfuel
    rw [lexLoop_cons hrest, Reader.reads_begins, reads_scanToken s c rest]
    rcases hscan : scanToken s c rest with _ | k
    · simp
    rw [Option.bind_some, Option.elim_some, Reader.mayBegin]
    by_cases hroom : s.toks.length < slots
    · obtain ⟨s₁, hstore⟩ := LexState.store_of_lt k hroom
      obtain ⟨t, hto, htl, -, hs₁⟩ := LexState.store_eq_some hstore
      have hspan := scanToken_spans hscan
      have htaken := hspan.taken_add
      have hrest₁ : s₁.rest = k.rest := by rw [hs₁]
      have hoff₁ : s₁.offset = BitVec.ofNat 32 (pos + k.taken) := by
        rw [hs₁, BitVec.ofNat_add, ← hoff]
      have hend : pos + k.taken + s₁.rest.length = pos + (rest.length + 1) := by
        rw [hrest₁]
        omega
      rw [hstore, Option.bind_some, List.length_cons, ← hend, Scan.resumes]
      have htoks₁ : s₁.toks.length = s.toks.length + 1 := by
        rw [hs₁, List.length_append, List.length_singleton]
      by_cases hfits : pos < 2 ^ 31 ∧ k.taken ≤ 32767
      · have hcov₁ : Covers 0 s₁.toks ↑(pos + k.taken) := by
          rw [hs₁]
          exact (Laid.covers_append hcov hspan.le_taken (hto.trans hoff) htl (Laid.nil _)).mpr
            ⟨hfits, rfl⟩
        have hpos := hspan.le_taken
        have hlen : s₁.rest.length ≤ fuel := by omega
        rw [ih pos hlen hoff₁ hcov₁, decide_eq_true hroom, decide_eq_true hfits.1,
          decide_eq_true hfits.2, htoks₁, hs₁]
        rfl
      · have hbad : (decide (s.toks.length < slots) && decide (pos < 2 ^ 31) &&
            (decide (k.taken ≤ 32767) && Reader.reads slots
              ⟨.code k.lineStart, pos, pos + k.taken, s.toks.length + 1⟩ k.rest)) = false := by
          rcases not_and_or.mp hfits with h | h
          · rw [decide_eq_false h, Bool.and_false, Bool.false_and]
          · rw [decide_eq_false h, Bool.false_and, Bool.and_false]
        rw [hbad]
        refine iff_of_false ?_ Bool.false_ne_true
        rintro ⟨s', hloop, hc⟩
        obtain ⟨new, htoks, hlaid⟩ := lexLoop_laid hloop hoff₁
        rw [htoks, hs₁, List.append_assoc, List.singleton_append] at hc
        rw [hs₁] at hlaid
        exact hfits ((Laid.covers_append hcov hspan.le_taken (hto.trans hoff) htl hlaid).mp hc).1
    · rw [decide_eq_false hroom, Bool.false_and, Bool.false_and, LexState.store, if_neg hroom]
      exact iff_of_false (by rintro ⟨s', hs', -⟩; cases hs') Bool.false_ne_true

/-- The tokens of `lex` partition the input: the lexer ends and reads nothing behind the input, the
tokens cover it without a gap, and writing them gives it back. -/
def Partitions (pageSize : ℕ) (input : List UInt8) : Prop :=
  ∃ toks, (∀ fuel, input.length ≤ fuel → lex fuel pageSize input = some toks) ∧
    Covers 0 toks input.length ∧ toks.flatMap (writeToken input) = input

/-- **The tokens partition the input exactly when the reader accepts it.** -/
theorem lex_partitions_iff (pageSize : ℕ) (input : List UInt8) :
    Partitions pageSize input ↔
      Reader.reads (allocTokens pageSize input.length) Reader.init input = true := by
  have hreads : (∃ s', lexLoop (allocTokens pageSize input.length) input.length (lexInit input) =
      some s' ∧ Covers 0 s'.toks ↑(0 + input.length)) ↔ _ :=
    lexLoop_reads (s := lexInit input) 0 (le_refl input.length) rfl rfl
  rw [Nat.zero_add] at hreads
  refine Iff.trans ?_ hreads
  constructor
  · rintro ⟨toks, hlex, hcov, -⟩
    obtain ⟨s', hs', rfl⟩ := Option.map_eq_some_iff.mp (hlex input.length (le_refl _))
    exact ⟨s', hs', hcov⟩
  · rintro ⟨s', hs', hcov⟩
    refine ⟨s'.toks, fun fuel hfuel => ?_, hcov, Covers.printed (a := 0) hcov⟩
    rw [lex, lexLoop_fuel (s := lexInit input) hfuel (le_refl input.length)]
    exact congrArg (Option.map LexState.toks) hs'

/-- A directive whose last byte is a backslash: `tok_preproc` reads the byte behind the input. -/
theorem open_splice_not_partitioned : ¬ Partitions 4096 [hash, backslash] := by
  rintro ⟨toks, hlex, -⟩
  have hnone : lex 2 4096 [hash, backslash] = none := by decide
  rw [hlex 2 (le_refl 2)] at hnone
  cases hnone

end N00b.Ncpp
