import N00b.Lib.Utf8

/-!
# Strings and substring search

string.nc: `n00b_find_base`.

## Representation

* A string is its bytes, with those of the memory that follow them: a 0, or what was cut off by
  `n00b_string_strip`. A valid one is made of characters. A pointer into it is a position.
* `utf8proc_iterate` is a parameter with what is known of it.
* The `data` of a string that is searched is not NULL, as that of `n00b_string_empty` is: the end of the
  search would be a byte in front of it.
* A function that raises an exception or fails an assertion has no result.
-/

namespace N00b.Text

open N00b.Lib

/-- `utf8proc_iterate`, for four bytes at most: the length and the code point of the next character,
or a negative length. -/
structure Utf8Iterate where
  iterate : List UInt8 → ℤ × ℤ
  iterate_char : ∀ (c : Char) (more : List UInt8),
    iterate ((String.utf8EncodeChar c ++ more).take 4) = ((c.utf8Size : ℤ), (c.toNat : ℤ))
  iterate_neg : ∀ bytes : List UInt8, (∀ c more, bytes ≠ String.utf8EncodeChar c ++ more) →
    (iterate (bytes.take 4)).1 < 0

def utf8IterateSpec : Utf8Iterate where
  iterate := decodeUtf8
  iterate_char := decodeUtf8_char
  iterate_neg := fun _ => decodeUtf8_none

/-- `n00b_string_t`: its bytes, and the memory behind them. -/
structure StringT where
  bytes : List UInt8
  after : List UInt8
  codepoints : ℕ
deriving DecidableEq, Repr

namespace StringT

/-- `u8_bytes`. -/
def u8Bytes (s : StringT) : ℕ := s.bytes.length

/-- The memory from `data` on. -/
def mem (s : StringT) : List UInt8 := s.bytes ++ s.after

end StringT

/-- A valid string. -/
structure Str where
  chars : List Char
  after : List UInt8
deriving DecidableEq, Repr

namespace Str

/-- `codepoints`. -/
def codepoints (s : Str) : ℕ := s.chars.length

def bytes (s : Str) : List UInt8 := utf8 s.chars

/-- `u8_bytes`. -/
def u8Bytes (s : Str) : ℕ := s.bytes.length

/-- The memory from `data` on. -/
def mem (s : Str) : List UInt8 := s.bytes ++ s.after

def stringT (s : Str) : StringT := ⟨s.bytes, s.after, s.codepoints⟩

def new (cs : List Char) : Str := ⟨cs, [0]⟩

@[simp] theorem stringT_codepoints (s : Str) : s.stringT.codepoints = s.codepoints := rfl

@[simp] theorem stringT_bytes (s : Str) : s.stringT.bytes = s.bytes := rfl

@[simp] theorem stringT_u8Bytes (s : Str) : s.stringT.u8Bytes = s.u8Bytes := rfl

@[simp] theorem stringT_mem (s : Str) : s.stringT.mem = s.mem := rfl

end Str

instance : Coe Str StringT := ⟨Str.stringT⟩

/-! ## The search -/

section

variable (u : Utf8Iterate) (mem : List UInt8)

def lengthAt (p : ℕ) : ℤ := (u.iterate ((mem.drop p).take 4)).1

/-- A loop that goes on by so many characters. -/
def walk : ℕ → ℕ → Option ℕ
  | 0, p => some p
  | n + 1, p => if lengthAt u mem p < 0 then none else walk n (p + (lengthAt u mem p).toNat)

/-- The loop of `n00b_find_base`. Every pass goes on, so there are no more passes than positions. -/
def findLoop (sub : List UInt8) (endp : ℤ) : ℕ → ℕ → ℤ → Option ℤ
  | 0, next, _ => if (next : ℤ) < endp then none else some (-1)
  | passes + 1, next, pos =>
    if (next : ℤ) < endp then
      if sub.isPrefixOf (mem.drop next) then some pos
      else if lengthAt u mem next ≤ 0 then none
      else findLoop sub endp passes (next + (lengthAt u mem next).toNat) (pos + 1)
    else some (-1)

end

/-- A `start` that is negative counts from the end, -/
def normStart (strcp : ℕ) (start : ℤ) : ℤ := if start < 0 then start + strcp else start

/-- and so does an `end`. -/
def normStop (strcp : ℕ) (stop : ℤ) : ℤ := if stop < 0 then stop + strcp + 1 else stop

@[simp] theorem normStart_nat (strcp i : ℕ) : normStart strcp i = i :=
  if_neg (Int.natCast_nonneg i).not_gt

@[simp] theorem normStop_nat (strcp i : ℕ) : normStop strcp i = i :=
  if_neg (Int.natCast_nonneg i).not_gt

/-- `n00b_find_base`. -/
def findBase (u : Utf8Iterate) (s sub : StringT) (start stop : ℤ) : Option ℤ :=
  let start := normStart s.codepoints start
  if start < 0 then some (-1)
  else
    let stop := normStop s.codepoints stop
    if stop ≤ start then some (-1)
    else
      let stop := if (s.codepoints : ℤ) < stop then (s.codepoints : ℤ) else stop
      if sub.codepoints = 0 then some start
      else if s.codepoints = s.u8Bytes then
        findLoop u s.mem sub.bytes (stop - sub.codepoints + 1) (stop - sub.codepoints + 1).toNat
          start.toNat start
      else do
        let next ← walk u s.mem start.toNat 0
        let endp ← walk u s.mem (stop - start + 1).toNat next
        findLoop u s.mem sub.bytes endp endp next start

/-! ## Positions of characters -/

def offset (cs : List Char) (i : ℕ) : ℕ := (utf8 (cs.take i)).length

@[simp] theorem offset_zero (cs : List Char) : offset cs 0 = 0 := by
  simp [offset]

/-- Behind so many characters of a buffer are the others. -/
theorem drop_offset (cs : List Char) (rest : List UInt8) (i : ℕ) :
    (utf8 cs ++ rest).drop (offset cs i) = utf8 (cs.drop i) ++ rest := by
  conv_lhs => rw [← List.take_append_drop i cs, utf8_append, List.append_assoc]
  rw [offset, List.drop_left']
  rw [List.take_append_drop]

variable {cs : List Char}

/-- The next character is as many bytes on as it has. -/
theorem offset_succ {i : ℕ} {c : Char} {more : List Char}
    (h : cs.drop i = c :: more) : offset cs (i + 1) = offset cs i + c.utf8Size := by
  have htake : cs.take (i + 1) = cs.take i ++ [c] := by
    rw [List.take_add, h]
    rfl
  rw [offset, htake, utf8_append, List.length_append, utf8_singleton, String.length_utf8EncodeChar]
  rfl

theorem exists_drop_eq_cons {i : ℕ} (h : i < cs.length) :
    ∃ c more, cs.drop i = c :: more := by
  rw [List.drop_eq_getElem_cons h]
  exact ⟨_, _, rfl⟩

/-- A character has a byte at least. -/
theorem le_offset {cs : List Char} {i : ℕ} (hi : i ≤ cs.length) : i ≤ offset cs i := by
  have hle := length_le_utf8 (cs.take i)
  rw [List.length_take] at hle
  unfold offset
  omega

/-- Offsets grow. -/
theorem offset_lt {i j : ℕ} (hij : i < j) (hj : j ≤ cs.length) :
    offset cs i < offset cs j := by
  induction j, hij using Nat.le_induction with
  | base =>
    obtain ⟨c, more, hdrop⟩ := exists_drop_eq_cons (show i < cs.length by omega)
    have hpos := c.utf8Size_pos
    rw [offset_succ hdrop]
    omega
  | succ j hij ih =>
    obtain ⟨c, more, hdrop⟩ := exists_drop_eq_cons (show j < cs.length by omega)
    have hlt := ih (by omega)
    rw [offset_succ hdrop]
    omega

section

variable {u : Utf8Iterate} {cs : List Char} {rest : List UInt8}

/-- The character at an offset has its own length. -/
theorem lengthAt_offset {i : ℕ} {c : Char} {more : List Char} (h : cs.drop i = c :: more) :
    lengthAt u (utf8 cs ++ rest) (offset cs i) = c.utf8Size := by
  rw [lengthAt, drop_offset, h, utf8_cons, List.append_assoc, u.iterate_char]

/-- **Walking** over characters goes to the offset behind them. -/
theorem walk_offset {i n : ℕ} (h : i + n ≤ cs.length) :
    walk u (utf8 cs ++ rest) n (offset cs i) = some (offset cs (i + n)) := by
  induction n generalizing i with
  | zero => rfl
  | succ n ih =>
    obtain ⟨c, more, hdrop⟩ := exists_drop_eq_cons (show i < cs.length by omega)
    rw [walk, lengthAt_offset hdrop, if_neg (by omega), Int.toNat_natCast, ← offset_succ hdrop,
      ih (by omega), Nat.add_right_comm, Nat.add_assoc]

/-- What was walked over is characters. -/
theorem exists_of_walk {mem : List UInt8} {n p q : ℕ} (h : walk u mem n p = some q) :
    ∃ l, l.length = n ∧ utf8 l <+: mem.drop p := by
  induction n generalizing p with
  | zero => exact ⟨[], rfl, List.nil_prefix⟩
  | succ n ih =>
    rw [walk] at h
    split at h
    · cases h
    next hlen =>
      rcases utf8EncodeChar_or (mem.drop p) with ⟨c, more, hbytes⟩ | hnone
      · have hsize : lengthAt u mem p = c.utf8Size := by
          rw [lengthAt, hbytes, u.iterate_char]
        rw [hsize, Int.toNat_natCast] at h
        obtain ⟨l, hl, m, hprefix⟩ := ih h
        have hmore : mem.drop (p + c.utf8Size) = more := by
          rw [← List.drop_drop, hbytes, List.drop_left' (String.length_utf8EncodeChar c)]
        refine ⟨c :: l, by rw [List.length_cons, hl], m, ?_⟩
        rw [utf8_cons, List.append_assoc, hprefix, hmore, hbytes]
      · exact absurd (u.iterate_neg _ hnone) hlen

/-- The first place from `lo` on and before `hi` where `P` holds, or -1. -/
def First (P : ℕ → Prop) (lo hi : ℕ) (r : ℤ) : Prop :=
  (∃ i : ℕ, r = i ∧ lo ≤ i ∧ i < hi ∧ P i ∧ ∀ j, lo ≤ j → j < i → ¬ P j) ∨
    (r = -1 ∧ ∀ j, lo ≤ j → j < hi → ¬ P j)

/-- **The loop of the search** ends at the first match, or at the end. -/
theorem findLoop_first {sub : List UInt8} {i stop passes : ℕ} (hi : i ≤ stop)
    (hstop : stop ≤ cs.length) (hpasses : stop - i ≤ passes) :
    ∃ r, findLoop u (utf8 cs ++ rest) sub (offset cs stop) passes (offset cs i) i = some r ∧
      First (fun j => sub <+: utf8 (cs.drop j) ++ rest) i stop r := by
  induction passes generalizing i with
  | zero =>
    obtain rfl : i = stop := by omega
    refine ⟨-1, ?_, .inr ⟨rfl, fun j hj hj' => absurd hj (by omega)⟩⟩
    rw [findLoop, if_neg (by omega)]
  | succ passes ih =>
    rcases Nat.eq_or_lt_of_le hi with rfl | hlt
    · refine ⟨-1, ?_, .inr ⟨rfl, fun j hj hj' => absurd hj (by omega)⟩⟩
      rw [findLoop, if_neg (by omega)]
    · have hoffset := offset_lt hlt hstop
      rw [findLoop, if_pos (by omega), drop_offset]
      by_cases hmatch : sub <+: utf8 (cs.drop i) ++ rest
      · refine ⟨i, by rw [if_pos (List.isPrefixOf_iff_prefix.mpr hmatch)], .inl ?_⟩
        exact ⟨i, rfl, le_rfl, hlt, hmatch, fun j hj hj' => absurd hj (by omega)⟩
      · obtain ⟨c, more, hdrop⟩ := exists_drop_eq_cons (show i < cs.length by omega)
        have hpos := c.utf8Size_pos
        obtain ⟨r, hr, hfirst⟩ := ih (i := i + 1) hlt (by omega)
        rw [if_neg (by rwa [List.isPrefixOf_iff_prefix]), lengthAt_offset hdrop,
          if_neg (by omega), Int.toNat_natCast, ← offset_succ hdrop]
        refine ⟨r, by exact_mod_cast hr, ?_⟩
        rcases hfirst with ⟨k, rfl, hk, hk', hmatch', hbefore⟩ | ⟨rfl, hbefore⟩
        · refine .inl ⟨k, rfl, by omega, hk', hmatch', fun j hj hj' => ?_⟩
          rcases Nat.eq_or_lt_of_le hj with rfl | hj
          · exact hmatch
          · exact hbefore j hj hj'
        · refine .inr ⟨rfl, fun j hj hj' => ?_⟩
          rcases Nat.eq_or_lt_of_le hj with rfl | hj
          · exact hmatch
          · exact hbefore j hj hj'

/-- At the end there is nothing to find. -/
theorem findLoop_done {mem sub : List UInt8} {endp pos : ℤ} {next : ℕ} (h : endp ≤ next)
    (passes : ℕ) : findLoop u mem sub endp passes next pos = some (-1) := by
  cases passes with
  | zero | succ passes => rw [findLoop, if_neg (by omega)]

/-- A walk is one behind the other. -/
theorem walk_add (mem : List UInt8) (n m p : ℕ) :
    walk u mem (n + m) p = (walk u mem n p).bind (walk u mem m) := by
  induction n generalizing p with
  | zero => rw [Nat.zero_add, walk, Option.bind_some]
  | succ n ih =>
    rw [Nat.succ_add, walk, walk]
    split
    · rfl
    · exact ih _

/-- Where all is ASCII an offset is an index. -/
theorem offset_ascii (h : cs.length = (utf8 cs).length) {i : ℕ} (hi : i ≤ cs.length) :
    offset cs i = i := by
  have htake := le_offset hi
  have hdrop := length_le_utf8 (cs.drop i)
  have hall : (utf8 cs).length = offset cs i + (utf8 (cs.drop i)).length := by
    conv_lhs => rw [← List.take_append_drop i cs, utf8_append, List.length_append]
    rfl
  rw [List.length_drop] at hdrop
  omega

end

/-! ## What a search finds -/

section

variable {P : ℕ → Prop} {lo hi hi' : ℕ} {r : ℤ}

/-- The first place depends on the places up to the end only. -/
theorem First.congr {Q : ℕ → Prop} (h : ∀ j, lo ≤ j → j < hi → (P j ↔ Q j)) :
    First P lo hi r ↔ First Q lo hi r := by
  unfold First
  refine or_congr (exists_congr fun i => ?_) (and_congr_right fun _ => ?_)
  · constructor
    · rintro ⟨rfl, hlo, hhi, hi, hbefore⟩
      exact ⟨rfl, hlo, hhi, (h i hlo hhi).mp hi,
        fun j hj hj' hq => hbefore j hj hj' ((h j hj (by omega)).mpr hq)⟩
    · rintro ⟨rfl, hlo, hhi, hi, hbefore⟩
      exact ⟨rfl, hlo, hhi, (h i hlo hhi).mpr hi,
        fun j hj hj' hq => hbefore j hj hj' ((h j hj (by omega)).mp hq)⟩
  · exact forall₃_congr fun j hj hj' => not_congr (h j hj hj')

/-- It is the first of fewer places too, if one of them matches or none behind them does. -/
theorem First.shorter_iff (hle : hi ≤ hi') (h : First P lo hi' r) :
    First P lo hi r ↔
      (∃ j, lo ≤ j ∧ j < hi ∧ P j) ∨ ∀ j, lo ≤ j → hi ≤ j → j < hi' → ¬ P j := by
  rcases h with ⟨i, rfl, hlo, hi', hi, hbefore⟩ | ⟨rfl, hnone⟩
  · constructor
    · rintro (⟨k, -, hk⟩ | ⟨hr, -⟩)
      · exact .inl ⟨k, hk.1, hk.2.1, hk.2.2.1⟩
      · omega
    · rintro (⟨j, hj, hjhi, hpj⟩ | hbehind)
      · have hij : i ≤ j := by
          by_contra hlt
          exact hbefore j hj (by omega) hpj
        exact .inl ⟨i, rfl, hlo, by omega, hi, hbefore⟩
      · refine .inl ⟨i, rfl, hlo, ?_, hi, hbefore⟩
        by_contra hge
        exact hbehind i hlo (by omega) hi' hi
  · constructor
    · exact fun _ => .inr fun j hj _ hj' => hnone j hj hj'
    · exact fun _ => .inr ⟨rfl, fun j hj hj' => hnone j hj (by omega)⟩

end

/-- The substring occurs at `p`, from `start` on and with its end not behind `end`. In front of the
string there is no place to start. -/
def Occurs (s sub : Str) (start stop : ℤ) (p : ℕ) : Prop :=
  0 ≤ normStart s.codepoints start ∧ normStart s.codepoints start ≤ p ∧
    (p : ℤ) + sub.codepoints ≤ min (normStop s.codepoints stop) s.codepoints ∧
    sub.chars <+: s.chars.drop p

/-- The least place where the substring occurs, or -1. -/
def FindsLeast (s sub : Str) (start stop : ℤ) (r : ℤ) : Prop :=
  (∃ p : ℕ, r = p ∧ Occurs s sub start stop p ∧ ∀ q < p, ¬ Occurs s sub start stop q) ∨
    (r = -1 ∧ ∀ p, ¬ Occurs s sub start stop p)

/-- There are so many characters in front. -/
def Reads (bytes : List UInt8) (n : ℕ) : Prop :=
  ∃ cs : List Char, cs.length = n ∧ utf8 cs <+: bytes

/-- The searches that are right. Where `s` is not ASCII, the loop goes on up to `end`, and not only
to the last place in front of it; it can then find the bytes of `sub` at one that goes on behind
`end`. And it decodes the character at `end`, or up to `start`, even behind the string. -/
def FindKept (s sub : Str) (start stop : ℤ) : Prop :=
  s.codepoints = s.u8Bytes ∨ normStart s.codepoints start < 0 ∨
    normStop s.codepoints stop ≤ normStart s.codepoints start ∨
    (Reads s.after
        (max (normStart s.codepoints start) (min (normStop s.codepoints stop) s.codepoints + 1)
          - s.codepoints).toNat ∧
      ((∃ p, Occurs s sub start stop p) ∨
        ∀ p : ℕ, normStart s.codepoints start ≤ p →
          p ≤ min (normStop s.codepoints stop) s.codepoints →
          min (normStop s.codepoints stop) s.codepoints < p + sub.codepoints →
          ¬ sub.bytes <+: utf8 (s.chars.drop p) ++ s.after))

section

variable {s sub : Str} {start stop : ℤ}

/-- In front of the string nothing occurs. -/
theorem not_occurs_of_neg (h : normStart s.codepoints start < 0) (p : ℕ) :
    ¬ Occurs s sub start stop p :=
  fun hp => absurd hp.1 (by omega)

theorem not_occurs_of_empty (hsub : sub.chars ≠ [])
    (h : normStop s.codepoints stop ≤ normStart s.codepoints start) (p : ℕ) :
    ¬ Occurs s sub start stop p := by
  rintro ⟨-, hstart, hstop, -⟩
  have hpos := List.length_pos_iff.mpr hsub
  unfold Str.codepoints at *
  omega

/-- Where nothing occurs nothing is found. -/
theorem finds_nothing_iff (h : ∀ p, ¬ Occurs s sub start stop p) (r : ℤ) :
    FindsLeast s sub start stop r ↔ r = -1 := by
  constructor
  · rintro (⟨p, -, hp, -⟩ | ⟨hr, -⟩)
    · exact absurd hp (h p)
    · exact hr
  · exact fun hr => .inr ⟨hr, h⟩

/-- An occurrence is a match of the bytes between the ends. -/
theorem occurs_iff (h : 0 ≤ normStart s.codepoints start) (p : ℕ) :
    Occurs s sub start stop p ↔
      (normStart s.codepoints start).toNat ≤ p ∧
        p < (min (normStop s.codepoints stop) s.codepoints - sub.codepoints + 1).toNat ∧
          sub.bytes <+: utf8 (s.chars.drop p) ++ s.after := by
  have hlength : (p : ℤ) + sub.codepoints ≤ min (normStop s.codepoints stop) s.codepoints →
      sub.chars.length ≤ (s.chars.drop p).length := by
    intro hle
    rw [List.length_drop]
    unfold Str.codepoints at hle
    omega
  unfold Occurs Str.bytes
  constructor
  · rintro ⟨-, hstart, hle, hprefix⟩
    exact ⟨by omega, by omega, (utf8_prefix_iff (hlength hle) _).mpr hprefix⟩
  · rintro ⟨hstart, hlt, hprefix⟩
    have hle : (p : ℤ) + sub.codepoints ≤ min (normStop s.codepoints stop) s.codepoints := by omega
    exact ⟨h, by omega, hle, (utf8_prefix_iff (hlength hle) _).mp hprefix⟩

/-- The leftmost occurrence is the first such match. -/
theorem finds_iff (h : 0 ≤ normStart s.codepoints start) (r : ℤ) :
    FindsLeast s sub start stop r ↔
      First (fun j => sub.bytes <+: utf8 (s.chars.drop j) ++ s.after)
        (normStart s.codepoints start).toNat
        (min (normStop s.codepoints stop) s.codepoints - sub.codepoints + 1).toNat r := by
  unfold FindsLeast First
  simp only [occurs_iff h]
  refine or_congr (exists_congr fun p => and_congr_right fun _ => ?_) (and_congr_right fun _ => ?_)
  · constructor
    · rintro ⟨⟨hlo, hhi, hp⟩, hbefore⟩
      exact ⟨hlo, hhi, hp, fun j hj hj' hq => hbefore j hj' ⟨hj, by omega, hq⟩⟩
    · rintro ⟨hlo, hhi, hp, hbefore⟩
      exact ⟨⟨hlo, hhi, hp⟩, fun j hj hq => hbefore j hq.1 hj hq.2.2⟩
  · exact forall_congr' fun j => ⟨fun hq hj hj' hp => hq ⟨hj, hj', hp⟩, fun hq hp =>
      hq hp.1 hp.2.1 hp.2.2⟩

/-! ### The two ways -/

variable {u : Utf8Iterate}

theorem findBase_empty (hstart : ¬ normStart s.codepoints start < 0)
    (hstop : normStop s.codepoints stop ≤ normStart s.codepoints start) :
    findBase u s sub start stop = some (-1) :=
  (if_neg hstart).trans (if_pos hstop)

/-- Which loop is run, and from where to where. -/
theorem findBase_eq (hstart : 0 ≤ normStart s.codepoints start)
    (hstop : normStart s.codepoints start < normStop s.codepoints stop) (hsub : sub.chars ≠ []) :
    findBase u s sub start stop =
      if s.codepoints = s.u8Bytes then
        findLoop u s.mem sub.bytes
          (min (normStop s.codepoints stop) s.codepoints - sub.codepoints + 1)
          (min (normStop s.codepoints stop) s.codepoints - sub.codepoints + 1).toNat
          (normStart s.codepoints start).toNat (normStart s.codepoints start)
      else
        (walk u s.mem (normStart s.codepoints start).toNat 0).bind fun next =>
          (walk u s.mem
            (min (normStop s.codepoints stop) s.codepoints - normStart s.codepoints start + 1).toNat
            next).bind fun endp =>
              findLoop u s.mem sub.bytes endp endp next (normStart s.codepoints start) := by
  have hcodepoints : sub.codepoints ≠ 0 := fun h => hsub (List.eq_nil_of_length_eq_zero h)
  have hmin : (if (s.stringT.codepoints : ℤ) < normStop s.stringT.codepoints stop then
      (s.stringT.codepoints : ℤ) else normStop s.stringT.codepoints stop) =
        min (normStop s.codepoints stop) s.codepoints := by
    rw [Str.stringT_codepoints]
    split <;> omega
  unfold findBase
  rw [if_neg (show ¬ normStart s.stringT.codepoints start < 0 from not_lt.mpr hstart),
    if_neg (show ¬ normStop s.stringT.codepoints stop ≤ normStart s.stringT.codepoints start from
      not_le.mpr hstop),
    if_neg (show sub.stringT.codepoints ≠ 0 from hcodepoints), hmin]
  rfl

/-- **The search in ASCII** finds the leftmost occurrence. -/
theorem find_ascii (u : Utf8Iterate) (hascii : s.codepoints = s.u8Bytes)
    (hstart : 0 ≤ normStart s.codepoints start)
    (hstop : normStart s.codepoints start < normStop s.codepoints stop) (hsub : sub.chars ≠ []) :
    ∃ r, findBase u s sub start stop = some r ∧ FindsLeast s sub start stop r := by
  have hpos := List.length_pos_iff.mpr hsub
  rw [findBase_eq hstart hstop hsub, if_pos hascii]
  simp only [finds_iff hstart]
  generalize hlo : (normStart s.codepoints start).toNat = lo
  generalize hhi : min (normStop s.codepoints stop) s.codepoints - (sub.codepoints : ℤ) + 1 = hi
  have hn : hi ≤ s.chars.length := by
    unfold Str.codepoints at *
    omega
  have hlo' : normStart s.codepoints start = lo := by omega
  rw [hlo']
  rcases Int.lt_or_le hi lo with hlt | hle
  · refine ⟨-1, findLoop_done hlt.le _, .inr ⟨rfl, fun j hj hj' => absurd hj' (by omega)⟩⟩
  · obtain ⟨r, hr, hfirst⟩ := @findLoop_first u s.chars s.after sub.bytes lo hi.toNat hi.toNat
      (by omega) (by omega) (by omega)
    rw [offset_ascii hascii (by omega), offset_ascii hascii (by omega)] at hr
    refine ⟨r, ?_, hfirst⟩
    rw [show ((hi.toNat : ℕ) : ℤ) = hi by omega] at hr
    exact hr

/-- **The search elsewhere** finds the first match up to one place too far. -/
theorem find_utf8 (u : Utf8Iterate) (hascii : s.codepoints ≠ s.u8Bytes)
    (hstart : 0 ≤ normStart s.codepoints start)
    (hstop : normStart s.codepoints start < normStop s.codepoints stop) (hsub : sub.chars ≠ [])
    (hreads : Reads s.after
      (max (normStart s.codepoints start) (min (normStop s.codepoints stop) s.codepoints + 1)
        - s.codepoints).toNat) :
    ∃ r, findBase u s sub start stop = some r ∧
      First (fun j => sub.bytes <+: utf8 (s.chars.drop j) ++ s.after)
        (normStart s.codepoints start).toNat
        (max (normStart s.codepoints start)
          (min (normStop s.codepoints stop) s.codepoints + 1)).toNat r := by
  rw [findBase_eq hstart hstop hsub, if_neg hascii]
  obtain ⟨cs, hcs, rest, hrest⟩ := hreads
  have hmem : s.mem = utf8 (s.chars ++ cs) ++ rest := by
    rw [Str.mem, Str.bytes, ← hrest, utf8_append, List.append_assoc]
  have hlength : (s.chars ++ cs).length = s.codepoints + cs.length := List.length_append
  generalize hlo : (normStart s.codepoints start).toNat = lo at *
  have hlo' : normStart s.codepoints start = lo := by omega
  rw [hlo'] at hcs hstop ⊢
  generalize hE : min (normStop s.codepoints stop) s.codepoints = last at *
  have hnext := @walk_offset u (s.chars ++ cs) rest 0 lo (by omega)
  have hendp := @walk_offset u (s.chars ++ cs) rest lo (last - lo + 1).toNat (by omega)
  rw [offset_zero, Nat.zero_add] at hnext
  rw [hmem, hnext, Option.bind_some, hendp, Option.bind_some]
  obtain ⟨r, hr, hfirst⟩ := @findLoop_first u (s.chars ++ cs) rest sub.bytes lo
    (lo + (last - lo + 1).toNat) (offset (s.chars ++ cs) (lo + (last - lo + 1).toNat)) (by omega)
    (by omega) (by have := @le_offset (s.chars ++ cs) (lo + (last - lo + 1).toNat) (by omega); omega)
  refine ⟨r, hr, ?_⟩
  rw [show (max (lo : ℤ) (last + 1)).toNat = lo + (last - lo + 1).toNat by omega]
  refine (First.congr fun j hj hj' => ?_).mp hfirst
  have hj : j ≤ s.chars.length := by
    unfold Str.codepoints at *
    omega
  rw [← hrest, ← List.append_assoc, ← utf8_append, List.drop_append_of_le_length hj]

/-- A search that ends could read behind the string. -/
theorem reads_of_find (hascii : s.codepoints ≠ s.u8Bytes)
    (hstart : 0 ≤ normStart s.codepoints start)
    (hstop : normStart s.codepoints start < normStop s.codepoints stop) (hsub : sub.chars ≠ [])
    {r : ℤ} (hr : findBase u s sub start stop = some r) :
    Reads s.after
      (max (normStart s.codepoints start) (min (normStop s.codepoints stop) s.codepoints + 1)
        - s.codepoints).toNat := by
  rw [findBase_eq hstart hstop hsub, if_neg hascii] at hr
  obtain ⟨next, hnext, hr⟩ := Option.bind_eq_some_iff.mp hr
  obtain ⟨endp, hendp, -⟩ := Option.bind_eq_some_iff.mp hr
  have hwalk := walk_add (u := u) s.mem (normStart s.codepoints start).toNat
    (min (normStop s.codepoints stop) s.codepoints - normStart s.codepoints start + 1).toNat 0
  rw [hnext, Option.bind_some, hendp] at hwalk
  obtain ⟨l, hl, hprefix⟩ := exists_of_walk hwalk
  rw [List.drop_zero, Str.mem, Str.bytes] at hprefix
  refine ⟨l.drop s.codepoints, by rw [List.length_drop]; omega, ?_⟩
  rcases Nat.lt_or_ge s.codepoints l.length with hlt | hle
  · -- its characters are those of the string, and then more
    have htake : l.take s.codepoints = s.chars := by
      have htakelen : (l.take s.codepoints).length = s.chars.length := by
        rw [List.length_take]
        exact Nat.min_eq_left hlt.le
      have hpre : utf8 (l.take s.codepoints) <+: utf8 s.chars ++ s.after := by
        refine List.IsPrefix.trans ?_ hprefix
        conv_rhs => rw [← List.take_append_drop s.codepoints l, utf8_append]
        exact List.prefix_append _ _
      exact ((utf8_prefix_iff htakelen.le _).mp hpre).eq_of_length htakelen
    rw [← List.take_append_drop s.codepoints l, htake, utf8_append] at hprefix
    exact (List.prefix_append_right_inj _).mp hprefix
  · rw [List.drop_of_length_le hle]
    exact List.nil_prefix

/-- The first match is the leftmost occurrence just if it lies inside. -/
theorem finds_of_first_iff (hstart : 0 ≤ normStart s.codepoints start) (hsub : sub.chars ≠ [])
    {r : ℤ}
    (hfirst : First (fun j => sub.bytes <+: utf8 (s.chars.drop j) ++ s.after)
      (normStart s.codepoints start).toNat
      (max (normStart s.codepoints start)
        (min (normStop s.codepoints stop) s.codepoints + 1)).toNat r) :
    FindsLeast s sub start stop r ↔
      (∃ p, Occurs s sub start stop p) ∨
        ∀ p : ℕ, normStart s.codepoints start ≤ p →
          p ≤ min (normStop s.codepoints stop) s.codepoints →
          min (normStop s.codepoints stop) s.codepoints < p + sub.codepoints →
          ¬ sub.bytes <+: utf8 (s.chars.drop p) ++ s.after := by
  have hpos := List.length_pos_iff.mpr hsub
  rw [finds_iff hstart, First.shorter_iff _ hfirst]
  · refine or_congr (exists_congr fun p => (occurs_iff hstart p).symm) ?_
    refine forall_congr' fun p => ?_
    constructor
    · intro h hlo hhi hbehind
      exact h (by omega) (by omega) (by omega)
    · intro h hlo hbehind hhi
      exact h (by omega) (by omega) (by omega)
  · unfold Str.codepoints at *
    omega

/-- **A search finds the first occurrence** just if it goes through ASCII, has nowhere to look, or
neither reads nor finds something behind the end. -/
theorem findBase_iff (u : Utf8Iterate) (s sub : Str) (start stop : ℤ) (hsub : sub.chars ≠ []) :
    (∃ r, findBase u s sub start stop = some r ∧ FindsLeast s sub start stop r) ↔
      FindKept s sub start stop := by
  unfold FindKept
  by_cases hstart : normStart s.codepoints start < 0
  · refine iff_of_true ⟨-1, if_pos hstart, ?_⟩ (.inr (.inl hstart))
    exact (finds_nothing_iff (not_occurs_of_neg hstart) _).mpr rfl
  · by_cases hstop : normStop s.codepoints stop ≤ normStart s.codepoints start
    · refine iff_of_true ⟨-1, findBase_empty hstart hstop, ?_⟩
        (.inr (.inr (.inl hstop)))
      exact (finds_nothing_iff (not_occurs_of_empty hsub hstop) _).mpr rfl
    · rw [not_lt] at hstart
      rw [not_le] at hstop
      by_cases hascii : s.codepoints = s.u8Bytes
      · exact iff_of_true (find_ascii u hascii hstart hstop hsub) (.inl hascii)
      · rw [or_iff_right hascii, or_iff_right (by omega), or_iff_right (by omega)]
        constructor
        · rintro ⟨r, hr, hleast⟩
          have hreads := reads_of_find hascii hstart hstop hsub hr
          obtain ⟨r', hr', hfirst⟩ := find_utf8 u hascii hstart hstop hsub hreads
          obtain rfl : r = r' := by rwa [hr, Option.some.injEq] at hr'
          exact ⟨hreads, (finds_of_first_iff hstart hsub hfirst).mp hleast⟩
        · rintro ⟨hreads, hfound⟩
          obtain ⟨r, hr, hfirst⟩ := find_utf8 u hascii hstart hstop hsub hreads
          exact ⟨r, hr, (finds_of_first_iff hstart hsub hfirst).mpr hfound⟩

theorem findBase_iff_abab :
    (Str.new ['b']).chars ≠ [] ∧
      ((∃ r, findBase utf8IterateSpec (Str.new ['a', 'b', 'a', 'b']) (Str.new ['b']) 2 (-1) = some r ∧
          FindsLeast (Str.new ['a', 'b', 'a', 'b']) (Str.new ['b']) 2 (-1) r) ↔
        FindKept (Str.new ['a', 'b', 'a', 'b']) (Str.new ['b']) 2 (-1)) :=
  ⟨List.cons_ne_nil _ _, findBase_iff _ _ _ _ _ (List.cons_ne_nil _ _)⟩

/-- "b" in "éab", before 2: the loop goes on to where it is. -/
theorem not_findBase :
    ¬ ∀ (u : Utf8Iterate) (s sub : Str) (start stop : ℤ), sub.chars ≠ [] →
      ∃ r, findBase u s sub start stop = some r ∧ FindsLeast s sub start stop r := by
  intro h
  obtain ⟨r, hr, hleast⟩ :=
    h utf8IterateSpec (Str.new ['é', 'a', 'b']) (Str.new ['b']) 0 2 (List.cons_ne_nil _ _)
  have htwo : findBase utf8IterateSpec (Str.new ['é', 'a', 'b']) (Str.new ['b']) 0 2 = some 2 := by
    decide
  obtain rfl : 2 = r := by rwa [htwo, Option.some.injEq] at hr
  rcases hleast with ⟨p, hp, ⟨-, -, hstop, -⟩, -⟩ | ⟨h, -⟩
  · have hsum : (p : ℤ) + 1 ≤ 2 := hstop
    omega
  · exact absurd h (by decide)

end

end N00b.Text
