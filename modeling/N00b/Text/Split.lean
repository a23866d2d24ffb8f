import N00b.Lib.Splits
import N00b.Text.Strings

/-!
# Splitting and joining strings

string.nc: `n00b_string_slice`, `n00b_string_concat`, `n00b_string_join`, `n00b_string_split`;
string.h: `n00b_string_replace`.

## Representation

Slices and joined strings are their characters. Their styles are left out; so is the check for NUL
that a slice with styles makes. A slice of a string that is not ASCII allocates four bytes for each of
its `codepoints`, a product of type `int`: strings stay below 2^29 codepoints.

## Main results

* `splitLoop_split`: what the loop finds is a split, but for the last piece.
-/

namespace N00b.Text

open N00b.Lib

/-- `n00b_string_slice`. -/
def slice (cs : List Char) (start stop : ℤ) : List Char :=
  if cs.length = 0 then []
  else
    let stop :=
      if stop < 0 then stop + cs.length + 1
      else if (cs.length : ℤ) < stop then (cs.length : ℤ) else stop
    if 0 ≤ start ∧ cs.length ≤ start then []
    else
      let start := if start < 0 then start + cs.length else start
      if start < 0 ∨ stop < 0 ∨ stop ≤ start then []
      else (cs.drop start.toNat).take (stop - start).toNat

/-- `n00b_string_sanity_check`, which aborts at a NUL. -/
def sane (cs : List Char) : Bool := !cs.contains '\x00'

/-- `n00b_string_concat`. -/
def concat (s1 s2 : List Char) : Option (List Char) :=
  if sane s1 ∧ sane s2 then
    if s1 = [] then some s2
    else if s2 = [] then some s1
    else some (s1 ++ s2)
  else none

/-- A turn of the loop of `n00b_string_join`. -/
def joinTurn (joiner result tmp : List Char) : Option (List Char) := do
  let result ← if joiner.length ≠ 0 then concat result joiner else some result
  concat result tmp

/-- `n00b_string_join`. -/
def join (l : List (List Char)) (joiner : List Char) (addTrailing : Bool) : Option (List Char) :=
  match l with
  | [] => some []
  | first :: more => do
    let result ← more.foldlM (joinTurn joiner) first
    if addTrailing then concat result joiner else some result

/-- The loop of `n00b_string_split`. Every pass goes on in the string, or is one of the last two. -/
def splitLoop (u : Utf8Iterate) (s sub : Str) : ℕ → ℤ → Option (List (List Char))
  | 0, _ => none
  | passes + 1, lastEnd => do
    let found ← findBase u s sub lastEnd s.codepoints
    let ix := if found = -1 then (s.codepoints : ℤ) else found
    let piece := slice s.chars lastEnd ix
    if ix + sub.codepoints = s.codepoints then some [piece, []]
    else if found = -1 then some [piece]
    else return piece :: (← splitLoop u s sub passes (ix + sub.codepoints))

/-- `n00b_string_split`. -/
def split (u : Utf8Iterate) (s sub : Str) : Option (List (List Char)) :=
  if sub.codepoints = 0 then
    some ((List.range s.codepoints).map fun i => slice s.chars i (i + 1))
  else splitLoop u s sub (s.codepoints + 2) 0

/-- `n00b_string_replace`. -/
def replace (u : Utf8Iterate) (base old new : Str) : Option (List Char) := do
  join (← split u base old) new.chars false

/-! ## Joining -/

theorem sane_iff {cs : List Char} : sane cs = true ↔ '\x00' ∉ cs := by
  simp [sane]

/-- Two strings are concatenated if neither has a NUL. -/
theorem concat_eq (s1 s2 : List Char) :
    concat s1 s2 = if sane s1 ∧ sane s2 then some (s1 ++ s2) else none := by
  unfold concat
  split
  · split
    next h => rw [h, List.nil_append]
    split
    next h => rw [h, List.append_nil]
    rfl
  · rfl

theorem sane_append (l m : List Char) : sane (l ++ m) = true ↔ sane l = true ∧ sane m = true := by
  simp [sane_iff, not_or]

section

variable {joiner : List Char} (hjoiner : joiner ≠ [])
include hjoiner

/-- A turn of the join adds the separator and a piece. -/
theorem joinTurn_eq (result tmp : List Char) :
    joinTurn joiner result tmp =
      if sane (result ++ joiner ++ tmp) then some (result ++ joiner ++ tmp) else none := by
  have hlength : joiner.length ≠ 0 := fun h => hjoiner (List.eq_nil_of_length_eq_zero h)
  unfold joinTurn
  rw [if_pos hlength, concat_eq]
  by_cases h : sane result = true ∧ sane joiner = true
  · rw [if_pos h, Option.bind_eq_bind, Option.bind_some]
    simp only [concat_eq, sane_append, h, true_and, and_self]
  · rw [if_neg h, if_neg]
    · rfl
    · simp only [sane_append]
      exact fun hs => h hs.1

omit hjoiner in
theorem intercalate_join (result tmp : List Char) (more : List (List Char)) :
    joiner.intercalate (result :: tmp :: more) =
      joiner.intercalate ((result ++ joiner ++ tmp) :: more) := by
  rw [List.intercalate_cons_cons]
  cases more with
  | nil => simp
  | cons next more => simp [List.intercalate_cons_cons]

/-- All turns join the pieces. -/
theorem join_fold (more : List (List Char)) (result : List Char) :
    more.foldlM (joinTurn joiner) result =
      if more = [] ∨ sane (joiner.intercalate (result :: more)) then
        some (joiner.intercalate (result :: more))
      else none := by
  induction more generalizing result with
  | nil => simp
  | cons tmp more ih =>
    rw [List.foldlM_cons, joinTurn_eq hjoiner, intercalate_join]
    by_cases hsane : sane (result ++ joiner ++ tmp) = true
    · rw [if_pos hsane, Option.bind_eq_bind, Option.bind_some, ih]
      cases more with
      | nil => simpa using hsane
      | cons next more => simp
    · rw [if_neg hsane, if_neg]
      · rfl
      · rintro (h | h)
        · cases h
        · cases more with
          | nil => exact hsane (by simpa using h)
          | cons next more =>
            rw [List.intercalate_cons_cons, sane_append, sane_append] at h
            exact hsane h.1.1

/-- **A join** is the pieces with the separator between them. -/
theorem join_eq {l : List (List Char)} (hl : l ≠ []) (hsane : sane (joiner.intercalate l)) :
    join l joiner false = some (joiner.intercalate l) := by
  cases l with
  | nil => exact absurd rfl hl
  | cons first more =>
    rw [join, join_fold hjoiner, if_pos (.inr hsane)]
    rfl

end

/-! ## One search -/

/-- A slice between two places is what lies between them. -/
theorem slice_eq {cs : List Char} {i j : ℕ} (hij : i ≤ j) (hj : j ≤ cs.length) :
    slice cs i j = (cs.drop i).take (j - i) := by
  unfold slice
  split
  next h => simp [List.eq_nil_of_length_eq_zero h]
  · simp only [show ¬ (j : ℤ) < 0 by omega, show ¬ (cs.length : ℤ) < j by omega,
      show ¬ (i : ℤ) < 0 by omega, if_false, Int.natCast_nonneg, true_and, false_or]
    split
    next h =>
      rw [List.drop_of_length_le (by omega), List.take_nil]
    · split
      next h => rw [show j - i = 0 by omega, List.take_zero]
      · rw [Int.toNat_natCast, show ((j : ℤ) - i).toNat = j - i by omega]

/-- Behind the end there is nothing. -/
theorem slice_behind {cs : List Char} {i : ℕ} (h : cs.length ≤ i) (stop : ℤ) :
    slice cs i stop = [] := by
  unfold slice
  split
  · rfl
  · dsimp only
    rw [if_pos ⟨by omega, by omega⟩]

/-- The bytes of the separator do not begin in the last characters and go on behind them. Where all
is ASCII, nothing is read behind the end. -/
def Clean (s sub : Str) (t : List Char) : Prop :=
  s.codepoints = s.u8Bytes ∨
    ∀ t₂, t₂ <:+ t → t₂.length < sub.codepoints → ¬ sub.bytes <+: utf8 t₂ ++ s.after

/-- What a search from a position finds: the first separator, or none, or the bytes of one that goes
on behind the end. -/
inductive Found (s sub : Str) (lastEnd : ℕ) : ℤ → Prop where
  | here (i : ℕ) (hi : lastEnd ≤ i) (hfits : i + sub.codepoints ≤ s.codepoints)
      (hmatch : sub.chars <+: s.chars.drop i)
      (hleft : ∀ j, lastEnd ≤ j → j < i → ¬ sub.chars <+: s.chars.drop j) : Found s sub lastEnd i
  | nothing (hnone : ∀ j, lastEnd ≤ j → ¬ sub.chars <+: s.chars.drop j)
      (hclean : Clean s sub (s.chars.drop lastEnd)) : Found s sub lastEnd (-1)
  | behind (i : ℕ) (hi : lastEnd ≤ i) (hend : i ≤ s.codepoints)
      (hlong : s.codepoints < i + sub.codepoints)
      (hnone : ∀ j, lastEnd ≤ j → ¬ sub.chars <+: s.chars.drop j)
      (hclean : ¬ Clean s sub (s.chars.drop lastEnd)) : Found s sub lastEnd i

section

variable {s sub : Str} {lastEnd : ℕ}

/-- A match lies inside. -/
theorem fits_of_match (hsub : sub.chars ≠ []) {j : ℕ} (h : sub.chars <+: s.chars.drop j) :
    j + sub.codepoints ≤ s.codepoints := by
  have hpos := List.length_pos_iff.mpr hsub
  have hle := h.length_le
  rw [List.length_drop] at hle
  unfold Str.codepoints
  omega

/-- Inside of the string a match of the bytes is one of the characters. -/
theorem bytes_prefix_iff {j : ℕ} (h : j + sub.codepoints ≤ s.codepoints) :
    sub.bytes <+: utf8 (s.chars.drop j) ++ s.after ↔ sub.chars <+: s.chars.drop j := by
  refine utf8_prefix_iff ?_ _
  rw [List.length_drop]
  unfold Str.codepoints at h
  omega

/-- Nothing goes on behind the end just if no match of the bytes does. -/
theorem clean_iff (hascii : s.codepoints ≠ s.u8Bytes) (hlast : lastEnd ≤ s.codepoints) :
    Clean s sub (s.chars.drop lastEnd) ↔
      ∀ j, lastEnd ≤ j → j ≤ s.codepoints → s.codepoints < j + sub.codepoints →
        ¬ sub.bytes <+: utf8 (s.chars.drop j) ++ s.after := by
  unfold Clean
  rw [or_iff_right hascii]
  constructor
  · intro h j hj hend hlong
    refine h _ ?_ ?_
    · rw [← Nat.add_sub_cancel' hj, ← List.drop_drop]
      exact List.drop_suffix _ _
    · rw [List.length_drop]
      unfold Str.codepoints at *
      omega
  · intro h t₂ ht₂ hshort
    have hle := ht₂.length_le
    rw [List.length_drop] at hle
    have hsuffix := List.suffix_iff_eq_drop.mp ht₂
    rw [List.drop_drop, List.length_drop] at hsuffix
    unfold Str.codepoints at *
    rw [hsuffix]
    exact h _ (by omega) (by omega) (by omega)

/-- An occurrence up to the end is a match that lies inside. -/
theorem occurs_at_iff {p : ℕ} :
    Occurs s sub lastEnd s.codepoints p ↔
      lastEnd ≤ p ∧ p + sub.codepoints ≤ s.codepoints ∧ sub.chars <+: s.chars.drop p := by
  unfold Occurs
  rw [normStart_nat, normStop_nat, min_self]
  constructor
  · rintro ⟨-, hstart, hfits, hmatch⟩
    exact ⟨by omega, by omega, hmatch⟩
  · rintro ⟨hstart, hfits, hmatch⟩
    exact ⟨by omega, by omega, by omega, hmatch⟩

/-- **A search** finds the next separator, none, or one that goes on behind the end. -/
theorem find_found (u : Utf8Iterate) (hsub : sub.chars ≠ []) (hlast : lastEnd < s.codepoints)
    (hreads : s.codepoints = s.u8Bytes ∨ Reads s.after 1) :
    ∃ r, findBase u s sub lastEnd s.codepoints = some r ∧ Found s sub lastEnd r := by
  have hstart := normStart_nat s.codepoints lastEnd
  have hstop := normStop_nat s.codepoints s.codepoints
  by_cases hascii : s.codepoints = s.u8Bytes
  · obtain ⟨r, hr, hleast⟩ := @find_ascii s sub lastEnd s.codepoints u hascii (by omega) (by omega)
      hsub
    refine ⟨r, hr, ?_⟩
    rcases hleast with ⟨p, rfl, hp, hbefore⟩ | ⟨rfl, hnone⟩
    · obtain ⟨hstart', hfits, hmatch⟩ := occurs_at_iff.mp hp
      refine .here p hstart' hfits hmatch fun j hj hj' hmatch' => ?_
      exact hbefore j hj' (occurs_at_iff.mpr ⟨hj, by omega, hmatch'⟩)
    · refine .nothing (fun j hj hmatch => ?_) (.inl hascii)
      exact hnone j (occurs_at_iff.mpr ⟨hj, fits_of_match hsub hmatch, hmatch⟩)
  · have hreads := hreads.resolve_left hascii
    obtain ⟨r, hr, hfirst⟩ := @find_utf8 s sub lastEnd s.codepoints u hascii (by omega) (by omega)
      hsub (by
        rw [hstart, hstop, min_self]
        rwa [show (max (lastEnd : ℤ) (s.codepoints + 1) - s.codepoints).toNat = 1 by omega])
    refine ⟨r, hr, ?_⟩
    rw [hstart, hstop, min_self, Int.toNat_natCast,
      show (max (lastEnd : ℤ) (s.codepoints + 1)).toNat = s.codepoints + 1 by omega] at hfirst
    have hbytes : ∀ {j}, sub.chars <+: s.chars.drop j →
        sub.bytes <+: utf8 (s.chars.drop j) ++ s.after := fun hmatch =>
      (bytes_prefix_iff (fits_of_match hsub hmatch)).mpr hmatch
    rcases hfirst with ⟨i, rfl, hi, hend, hmatch, hbefore⟩ | ⟨rfl, hnone⟩
    · rcases Nat.lt_or_ge s.codepoints (i + sub.codepoints) with hlong | hfits
      · -- nothing else occurs behind it, as it would fit
        have hnone : ∀ j, lastEnd ≤ j → ¬ sub.chars <+: s.chars.drop j := by
          intro j hj hmatch'
          have hfits := fits_of_match hsub hmatch'
          exact hbefore j hj (by omega) (hbytes hmatch')
        refine .behind i hi (by omega) hlong hnone ?_
        rw [clean_iff hascii hlast.le]
        exact fun hclean => hclean i hi (by omega) hlong hmatch
      · refine .here i hi hfits ((bytes_prefix_iff hfits).mp hmatch) fun j hj hj' hmatch' => ?_
        exact hbefore j hj hj' (hbytes hmatch')
    · have hpos := List.length_pos_iff.mpr hsub
      refine .nothing (fun j hj hmatch => ?_) ?_
      · have hfits := fits_of_match hsub hmatch
        unfold Str.codepoints at *
        exact hnone j hj (by omega) (hbytes hmatch)
      · rw [clean_iff hascii hlast.le]
        exact fun j hj hend _ => hnone j hj (by omega)

/-! ## The loop -/

/-- A pass of the loop. -/
theorem splitLoop_succ {u : Utf8Iterate} {r : ℤ}
    (hr : findBase u s sub lastEnd s.codepoints = some r) (passes : ℕ) :
    splitLoop u s sub (passes + 1) lastEnd =
      if (if r = -1 then (s.codepoints : ℤ) else r) + sub.codepoints = s.codepoints then
        some [slice s.chars lastEnd (if r = -1 then (s.codepoints : ℤ) else r), []]
      else if r = -1 then
        some [slice s.chars lastEnd (if r = -1 then (s.codepoints : ℤ) else r)]
      else
        (splitLoop u s sub passes ((if r = -1 then (s.codepoints : ℤ) else r) + sub.codepoints)).map
          (slice s.chars lastEnd (if r = -1 then (s.codepoints : ℤ) else r) :: ·) := by
  rw [splitLoop, hr]
  simp only [Option.bind_eq_bind, Option.bind_some, Option.map_eq_bind]
  rfl

/-- Behind the end it finds an empty piece. -/
theorem splitLoop_behind (u : Utf8Iterate) (hsub : sub.chars ≠ []) (h : s.codepoints ≤ lastEnd)
    (passes : ℕ) : splitLoop u s sub (passes + 1) lastEnd = some [[]] := by
  have hpos := List.length_pos_iff.mpr hsub
  have hfind : findBase u s sub lastEnd s.codepoints = some (-1) :=
    findBase_empty (by rw [normStart_nat]; omega) (by rw [normStart_nat, normStop_nat]; omega)
  have hne : ¬ (s.codepoints : ℤ) + sub.codepoints = s.codepoints := by
    unfold Str.codepoints
    omega
  rw [splitLoop_succ hfind]
  simp only [if_true]
  rw [if_neg hne, slice_behind h]

def LastFound (s sub : Str) (t : List Char) : Prop := t = [] ∨ Clean s sub t

/-- What is left is cut at a separator. -/
theorem drop_cut {i : ℕ} (hi : lastEnd ≤ i) (hmatch : sub.chars <+: s.chars.drop i) :
    s.chars.drop lastEnd = (s.chars.drop lastEnd).take (i - lastEnd) ++
      (sub.chars ++ s.chars.drop (i + sub.codepoints)) := by
  obtain ⟨rest, hrest⟩ := hmatch
  have hbehind : s.chars.drop (i + sub.codepoints) = rest := by
    rw [← List.drop_drop, ← hrest]
    exact List.drop_left
  conv_lhs => rw [← List.take_append_drop (i - lastEnd) (s.chars.drop lastEnd)]
  rw [List.drop_drop, Nat.add_sub_cancel' hi, hbehind, hrest]

/-- Pieces that are those of a split, if its last piece is found; otherwise they are too long. -/
def PiecesFound (s sub : Str) (l : List Char) (out : List (List Char)) : Prop :=
  ∃ pieces t, IsSplit sub.chars l pieces ∧ pieces.getLast? = some t ∧
    (LastFound s sub t ∧ out = pieces ∨
      ¬ LastFound s sub t ∧ out ≠ [] ∧ l.length < (sub.chars.intercalate out).length)

/-- A piece in front of a separator. -/
theorem PiecesFound.cut {piece rest : List Char} {out : List (List Char)}
    (hleft : ∀ i < piece.length, ¬ sub.chars <+: (piece ++ (sub.chars ++ rest)).drop i)
    (h : PiecesFound s sub rest out) :
    PiecesFound s sub (piece ++ (sub.chars ++ rest)) (piece :: out) := by
  obtain ⟨pieces, t, hsplit, hlast, hout⟩ := h
  refine ⟨piece :: pieces, t, .cut hleft hsplit, ?_, ?_⟩
  · rw [List.getLast?_cons_of_ne_nil hsplit.ne_nil, hlast]
  · rcases hout with ⟨hfound, rfl⟩ | ⟨hfound, hne, hlong⟩
    · exact .inl ⟨hfound, rfl⟩
    · refine .inr ⟨hfound, List.cons_ne_nil _ _, ?_⟩
      rw [List.intercalate_cons_of_ne_nil hne]
      simp only [List.length_append] at hlong ⊢
      omega

theorem PiecesFound.nil (hsub : sub.chars ≠ []) : PiecesFound s sub [] [[]] := by
  refine ⟨[[]], [], .last fun i => ?_, rfl, .inl ⟨.inl rfl, rfl⟩⟩
  rw [List.drop_nil, List.prefix_nil]
  exact hsub

theorem PiecesFound.last {l : List Char} (hnone : ∀ i, ¬ sub.chars <+: l.drop i)
    (hfound : LastFound s sub l) : PiecesFound s sub l [l] :=
  ⟨[l], l, .last hnone, rfl, .inl ⟨hfound, rfl⟩⟩

/-- **The loop** finds the pieces of the split, if the last one is found. -/
theorem splitLoop_split (u : Utf8Iterate) (hsub : sub.chars ≠ [])
    (hreads : s.codepoints = s.u8Bytes ∨ Reads s.after 1) {passes : ℕ}
    (hlast : lastEnd < s.codepoints) (hpasses : s.codepoints - lastEnd + 1 ≤ passes) :
    ∃ out, splitLoop u s sub passes lastEnd = some out ∧
      PiecesFound s sub (s.chars.drop lastEnd) out := by
  induction passes generalizing lastEnd with
  | zero => omega
  | succ passes ih =>
    have hpos := List.length_pos_iff.mpr hsub
    obtain ⟨r, hr, hfound⟩ := find_found u hsub hlast hreads
    rw [splitLoop_succ hr]
    cases hfound with
    | here i hi hfits hmatch hleft =>
      have hpiece : slice s.chars lastEnd i = (s.chars.drop lastEnd).take (i - lastEnd) :=
        slice_eq hi (Nat.le_trans (Nat.le_add_right _ _) hfits)
      have hleft' : ∀ j < (slice s.chars lastEnd i).length,
          ¬ sub.chars <+: (s.chars.drop lastEnd).drop j := by
        intro j hj
        rw [hpiece, List.length_take] at hj
        rw [List.drop_drop]
        exact hleft _ (by omega) (by omega)
      rw [if_neg (show ¬ (i : ℤ) = -1 by omega), if_neg (show ¬ (i : ℤ) = -1 by omega)]
      rw [drop_cut hi hmatch, ← hpiece] at hleft' ⊢
      split
      next hend =>
        have hdrop : s.chars.drop (i + sub.codepoints) = [] :=
          List.drop_of_length_le (by unfold Str.codepoints at *; omega)
        refine ⟨_, rfl, PiecesFound.cut hleft' ?_⟩
        rw [hdrop]
        exact PiecesFound.nil hsub
      next hend =>
        unfold Str.codepoints at *
        obtain ⟨out, hout, hpieces⟩ := @ih (i + sub.chars.length) (by omega) (by omega)
        refine ⟨slice s.chars lastEnd i :: out, ?_, PiecesFound.cut hleft' hpieces⟩
        rw [← Nat.cast_add, hout, Option.map_some]
    | nothing hnone hclean =>
      have hpiece : slice s.chars lastEnd s.codepoints = s.chars.drop lastEnd := by
        rw [slice_eq hlast.le le_rfl]
        exact List.take_of_length_le (by rw [List.length_drop]; rfl)
      rw [if_pos rfl, if_pos rfl, if_neg (by unfold Str.codepoints; omega), hpiece]
      refine ⟨_, rfl, PiecesFound.last (fun j => ?_) (.inr hclean)⟩
      rw [List.drop_drop]
      exact hnone _ (by omega)
    | behind i hi hend hlong hnone hclean =>
      have hpiece : slice s.chars lastEnd i = (s.chars.drop lastEnd).take (i - lastEnd) :=
        slice_eq hi hend
      obtain ⟨passes, rfl⟩ : ∃ p, passes = p + 1 := ⟨passes - 1, by omega⟩
      rw [if_neg (show ¬ (i : ℤ) = -1 by omega), if_neg (show ¬ (i : ℤ) = -1 by omega),
        if_neg (by omega), ← Nat.cast_add, splitLoop_behind u hsub hlong.le, Option.map_some, hpiece]
      refine ⟨_, rfl, [s.chars.drop lastEnd], s.chars.drop lastEnd, .last fun j => ?_, rfl,
        .inr ⟨?_, List.cons_ne_nil _ _, ?_⟩⟩
      · rw [List.drop_drop]
        exact hnone _ (by omega)
      · rintro (hnil | hfound)
        · have hlen := congrArg List.length hnil
          rw [List.length_drop, List.length_nil] at hlen
          unfold Str.codepoints at *
          omega
        · exact hclean hfound
      · -- the bytes that go on behind the end are taken for the separator
        unfold Str.codepoints at *
        rw [List.intercalate_cons_cons, List.intercalate_singleton, List.append_nil,
          List.length_append, List.length_take, List.length_drop]
        omega

theorem find_of_splitLoop {u : Utf8Iterate} {passes : ℕ} {out : List (List Char)}
    (h : splitLoop u s sub passes lastEnd = some out) :
    ∃ r, findBase u s sub lastEnd s.codepoints = some r := by
  cases passes with
  | zero => cases h
  | succ passes =>
    obtain ⟨r, hr, -⟩ := Option.bind_eq_some_iff.mp h
    exact ⟨r, hr⟩

/-! ## Splitting and joining again -/

/-- The pieces lie between the leftmost occurrences, and they are joined to the string again. -/
def SplitsAndJoins (u : Utf8Iterate) (s sub : Str) : Prop :=
  (∃ pieces, split u s sub = some pieces ∧ IsSplit sub.chars s.chars pieces ∧
    join pieces sub.chars false = some s.chars) ∧
  replace u s sub sub = some s.chars

/-- The strings for which this is so: what is ASCII; and otherwise a character can be read behind
the string, and in what is left behind the last separator, unless that is empty, no bytes of one
begin that go on behind the string. -/
def SplitKept (s sub : Str) : Prop :=
  s.codepoints = s.u8Bytes ∨
    Reads s.after 1 ∧
      ∀ pieces, IsSplit sub.chars s.chars pieces → ∀ t ∈ pieces.getLast?, t ≠ [] →
        ∀ t₂, t₂ <:+ t → t₂.length < sub.codepoints → ¬ sub.bytes <+: utf8 t₂ ++ s.after

/-- So it is for what a NUL stands behind, when the separator has none. -/
theorem splitKept_of_terminated {more : List UInt8} (hafter : s.after = 0 :: more)
    (hsane : sane sub.chars) : SplitKept s sub := by
  have hnul : utf8 ['\x00'] ++ more = s.after := hafter.symm
  refine .inr ⟨⟨['\x00'], rfl, more, hnul⟩, fun pieces _ t _ _ t₂ _ hshort hprefix => ?_⟩
  rw [← hnul, ← List.append_assoc, ← utf8_append] at hprefix
  -- as many characters of the separator as are read up to the NUL
  have hbytes : utf8 (sub.chars.take (t₂.length + 1)) <+: utf8 (t₂ ++ ['\x00']) ++ more := by
    refine List.IsPrefix.trans ⟨utf8 (sub.chars.drop (t₂.length + 1)), ?_⟩ hprefix
    rw [← utf8_append, List.take_append_drop]
    rfl
  have hlength : (sub.chars.take (t₂.length + 1)).length = (t₂ ++ ['\x00']).length := by
    rw [List.length_take, List.length_append, List.length_singleton]
    exact min_eq_left hshort
  have htake := ((utf8_prefix_iff hlength.le more).mp hbytes).eq_of_length hlength
  refine sane_iff.mp hsane (List.mem_of_mem_take (i := t₂.length + 1) ?_)
  rw [htake]
  exact List.mem_append_right _ (List.mem_singleton_self _)

theorem split_eq (u : Utf8Iterate) (hsub : sub.chars ≠ []) :
    split u s sub = splitLoop u s sub (s.codepoints + 2) (0 : ℕ) := by
  have hcodepoints : sub.codepoints ≠ 0 := fun h => hsub (List.eq_nil_of_length_eq_zero h)
  rw [split, if_neg hcodepoints]
  rfl

theorem ascii_of_nil (h : s.chars = []) : s.codepoints = s.u8Bytes := by
  rw [Str.codepoints, Str.u8Bytes, Str.bytes, h]
  rfl

/-- A loop that ends could read behind the string. -/
theorem reads_of_split {u : Utf8Iterate} (hascii : s.codepoints ≠ s.u8Bytes) (hsub : sub.chars ≠ [])
    (hpos : 0 < s.codepoints) {passes : ℕ} {out : List (List Char)}
    (hout : splitLoop u s sub passes (0 : ℕ) = some out) : Reads s.after 1 := by
  obtain ⟨r, hr⟩ := find_of_splitLoop hout
  have hstart := normStart_nat s.codepoints 0
  have hstop := normStop_nat s.codepoints s.codepoints
  have hreads := reads_of_find hascii (by omega) (by omega) hsub hr
  rw [hstart, hstop, min_self] at hreads
  rwa [show (max ((0 : ℕ) : ℤ) (s.codepoints + 1) - s.codepoints).toNat = 1 by omega] at hreads

/-- Pieces of the split are joined to the string again. -/
theorem splits_of_found (u : Utf8Iterate) (hsane : sane s.chars) (hsub : sub.chars ≠ [])
    {pieces : List (List Char)} (hpieces : split u s sub = some pieces)
    (hsplit : IsSplit sub.chars s.chars pieces) : SplitsAndJoins u s sub := by
  have hjoin : join pieces sub.chars false = some s.chars := by
    rw [join_eq hsub hsplit.ne_nil, hsplit.intercalate]
    rwa [hsplit.intercalate]
  refine ⟨⟨pieces, hpieces, hsplit, hjoin⟩, ?_⟩
  rw [replace, hpieces, Option.bind_eq_bind, Option.bind_some, hjoin]

theorem lastFound_of_kept (hkept : SplitKept s sub) {pieces : List (List Char)} {t : List Char}
    (hsplit : IsSplit sub.chars s.chars pieces) (hlast : pieces.getLast? = some t) :
    LastFound s sub t := by
  rcases hkept with hascii | ⟨-, hclean⟩
  · exact .inr (.inl hascii)
  · by_cases hnil : t = []
    · exact .inl hnil
    · exact .inr (.inr (hclean pieces hsplit t hlast hnil))

/-- **Splitting and joining** are inverse just if the string is ASCII, or what is behind it does not
complete a separator. -/
theorem split_iff (u : Utf8Iterate) (s sub : Str) (hsane : sane s.chars) (hsub : sub.chars ≠ []) :
    SplitsAndJoins u s sub ↔ SplitKept s sub := by
  constructor
  · rintro ⟨⟨out, hout, hsplit, -⟩, -⟩
    by_cases hascii : s.codepoints = s.u8Bytes
    · exact .inl hascii
    · have hpos : 0 < s.codepoints := by
        by_contra hzero
        exact hascii (ascii_of_nil (List.eq_nil_of_length_eq_zero (Nat.eq_zero_of_not_pos hzero)))
      rw [split_eq u hsub] at hout
      have hreads := reads_of_split hascii hsub hpos hout
      obtain ⟨out', hout', pieces, t, hsplit', hlast, hfound⟩ :=
        @splitLoop_split s sub 0 u hsub (.inr hreads) (s.codepoints + 2) hpos (by omega)
      obtain rfl : out = out' := by rwa [hout, Option.some.injEq] at hout'
      obtain rfl := hsplit.unique hsplit'
      refine .inr ⟨hreads, fun pieces hpieces t' ht' hne => ?_⟩
      obtain rfl := hpieces.unique hsplit
      obtain rfl : t = t' := by rwa [hlast, Option.mem_def, Option.some.injEq] at ht'
      rcases hfound with ⟨hclean, -⟩ | ⟨-, -, hlong⟩
      · exact ((hclean.resolve_left hne).resolve_left hascii)
      · rw [hsplit.intercalate] at hlong
        exact absurd hlong (lt_irrefl _)
  · intro hkept
    rcases Nat.eq_zero_or_pos s.codepoints with hzero | hpos
    · have hnil : s.chars = [] := List.eq_nil_of_length_eq_zero hzero
      refine @splits_of_found s sub u hsane hsub [[]] ?_ ?_
      · rw [split_eq u hsub]
        exact splitLoop_behind u hsub hzero.le _
      · rw [hnil]
        refine .last fun i => ?_
        rw [List.drop_nil, List.prefix_nil]
        exact hsub
    · have hreads : s.codepoints = s.u8Bytes ∨ Reads s.after 1 := hkept.imp_right And.left
      obtain ⟨out, hout, pieces, t, hsplit, hlast, hfound⟩ :=
        @splitLoop_split s sub 0 u hsub hreads (s.codepoints + 2) hpos (by omega)
      rcases hfound with ⟨-, rfl⟩ | ⟨hunfound, -⟩
      · exact splits_of_found u hsane hsub (by rwa [split_eq u hsub]) hsplit
      · exact absurd (lastFound_of_kept hkept hsplit hlast) hunfound

theorem split_iff_accent :
    sane ['a', 'é', 'a'] = true ∧ (⟨['é'], [0]⟩ : Str).chars ≠ [] ∧
      (SplitsAndJoins utf8IterateSpec ⟨['a', 'é', 'a'], [0]⟩ ⟨['é'], [0]⟩ ↔
        SplitKept ⟨['a', 'é', 'a'], [0]⟩ ⟨['é'], [0]⟩) :=
  ⟨by decide, List.cons_ne_nil _ _,
    split_iff _ ⟨['a', 'é', 'a'], [0]⟩ _ (by decide) (List.cons_ne_nil _ _)⟩

/-- "é", from which a space was stripped, at a space. -/
theorem not_split_join :
    ¬ ∀ (u : Utf8Iterate) (s sub : Str), sane s.chars → sub.chars ≠ [] →
      SplitsAndJoins u s sub := by
  intro h
  obtain ⟨⟨pieces, hpieces, -, hjoin⟩, -⟩ :=
    h utf8IterateSpec ⟨['é'], [0x20, 0]⟩ ⟨[' '], [0]⟩ (by decide) (List.cons_ne_nil _ _)
  have htwo : split utf8IterateSpec ⟨['é'], [0x20, 0]⟩ ⟨[' '], [0]⟩ = some [['é'], []] := by
    decide
  obtain rfl : [['é'], []] = pieces := by rwa [htwo, Option.some.injEq] at hpieces
  exact absurd hjoin (by decide)

end

end N00b.Text
