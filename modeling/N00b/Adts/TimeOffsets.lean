import Mathlib

/-!
# Times of the day and their offsets

`datetime.nc`: `to_native_time`.

## Representation

* A text is its bytes, and a 0 follows.
* Of the result, what `to_native_time` sets.
-/

namespace N00b.Adts

/-- What `to_native_time` sets of a `n00b_date_time_t`. -/
structure NativeTime where
  tmHour : ℤ
  tmMin : ℤ
  tmSec : ℤ
  fracsec : ℤ
  tmGmtoff : ℤ
  haveTime : Bool
  haveSec : Bool
  haveFracSec : Bool
  haveOffset : Bool
deriving DecidableEq, Repr

namespace NativeTime

/-- `*s`. -/
def peek (s : List UInt8) : UInt8 := s.headD 0

/-- `ONE_DIGIT`, with `WAS_DIGIT`. -/
def oneDigit : List UInt8 → Option (ℤ × List UInt8)
  | [] => none
  | c :: s => if 48 ≤ c.toNat ∧ c.toNat ≤ 57 then some (c.toNat - 48, s) else none

def twoDigits (s : List UInt8) : Option (ℤ × List UInt8) := do
  let (n, s) ← oneDigit s
  let (tmp, s) ← oneDigit s
  some (n * 10 + tmp, s)

def fracDigits : List UInt8 → ℤ → ℤ × List UInt8
  | [], frac => (frac, [])
  | c :: s, frac =>
    if 48 ≤ c.toNat ∧ c.toNat ≤ 57 then fracDigits s (frac * 10 + (c.toNat - 48)) else (frac, c :: s)

def hour (s : List UInt8) : Option (ℤ × List UInt8) := do
  let (hr, s) ← oneDigit s
  if peek s ≠ 58 then
    let (tmp, s) ← oneDigit s
    some (hr * 10 + tmp, s)
  else some (hr, s)

/-- The seconds. The fraction is looked for at its point, so that none is accepted. -/
def seconds (s : List UInt8) (result : NativeTime) : Option (List UInt8 × NativeTime) := do
  let (sec, s) ← twoDigits s
  if 60 < sec then none
  else
    let result := { result with haveSec := true, tmSec := sec }
    if peek s = 46 then
      let (frac, s) ← oneDigit s
      let (frac, s) := fracDigits s frac
      some (s, { result with fracsec := frac, haveFracSec := true })
    else some (s, result)

/-- The hour, the minutes and the seconds. -/
def clock (s : List UInt8) (result : NativeTime) : Option (List UInt8 × NativeTime) := do
  let (hr, s) ← hour s
  if peek s ≠ 58 ∨ 23 < hr then none
  else
    let (min, s) ← twoDigits s.tail
    if 59 < min then none
    else
      let result := { result with tmHour := hr, tmMin := min, haveTime := true }
      if peek s = 58 then seconds s.tail result else some (s, result)

def isZone (c : UInt8) : Bool := c = 90 || c = 122 || c = 43 || c = 45

/-- `END_OR_TZ`. -/
def endOrTz (s : List UInt8) (result : NativeTime) : Option (List UInt8 × NativeTime) :=
  if s = [] ∨ isZone (peek s) then some (s, result) else none

def afternoon (result : NativeTime) : NativeTime :=
  if result.tmHour ≤ 11 then { result with tmHour := result.tmHour + 12 } else result

/-- `am` and `pm`. -/
def meridiem (s : List UInt8) (result : NativeTime) : Option (List UInt8 × NativeTime) :=
  if peek s = 97 then
    if peek s.tail ≠ 109 then none else endOrTz s.tail.tail result
  else if peek s = 65 then
    if peek s.tail ≠ 109 ∧ peek s.tail ≠ 77 then none else endOrTz s.tail.tail result
  else if peek s = 112 then
    if peek s.tail ≠ 109 then none else endOrTz s.tail.tail (afternoon result)
  else if peek s = 80 then
    if peek s.tail ≠ 109 ∧ peek s.tail ≠ 77 then none
    else endOrTz s.tail.tail (afternoon result)
  else if isZone (peek s) then some (s, result)
  else none

/-- The hours of an offset. The sign is applied to the first digit. -/
def offsetHours (mul : ℤ) (s : List UInt8) : Option (ℤ × List UInt8) := do
  let (offset, s) ← oneDigit s
  if s ≠ [] then
    let (tmp, s) ← oneDigit s
    some (offset * mul * 10 + tmp, s)
  else some (offset * mul, s)

def offsetSeconds (s : List UInt8) (result : NativeTime) : Option NativeTime := do
  if peek s ≠ 58 then none
  else
    let (offset, s) ← twoDigits s.tail
    if 60 < offset ∨ s ≠ [] then none
    else some { result with tmGmtoff := result.tmGmtoff + offset }

def offsetMinutes (s : List UInt8) (result : NativeTime) : Option NativeTime := do
  let (offset, s) ← twoDigits (if peek s = 58 then s.tail else s)
  if 59 < offset then none
  else
    let result := { result with tmGmtoff := result.tmGmtoff + offset * 60 }
    if s = [] then some result else offsetSeconds s result

def offsetDigits (mul : ℤ) (s : List UInt8) (result : NativeTime) : Option NativeTime := do
  let (offset, s) ← offsetHours mul s
  if offset < -15 ∨ 15 < offset then none
  else
    let result := { result with tmGmtoff := offset * 60 * 60 }
    if s = [] then some result else offsetMinutes s result

def offset (s : List UInt8) (result : NativeTime) : Option NativeTime :=
  let result := { result with haveOffset := true }
  let s := if peek s = 90 ∨ peek s = 122 then s.tail else s
  if s = [] then some result
  else if peek s = 45 then offsetDigits (-1) s.tail result
  else if peek s = 43 then offsetDigits 1 s.tail result
  else offsetDigits 1 s result

/-- `to_native_time`. -/
def toNativeTime (input : List UInt8) (result : NativeTime) : Option NativeTime := do
  let (s, result) ← clock input result
  let s := s.dropWhile (· = 32)
  if s = [] then some result
  else
    let (s, result) ← meridiem s result
    if s = [] then some result else offset s result

end NativeTime

/-! ## Offsets -/

def digitByte (d : Fin 10) : UInt8 := UInt8.ofNat (48 + d)

structure TwoDigits where
  tens : Fin 10
  units : Fin 10
deriving DecidableEq, Repr

namespace TwoDigits

def value (d : TwoDigits) : ℤ := d.tens * 10 + d.units

def text (d : TwoDigits) : List UInt8 := [digitByte d.tens, digitByte d.units]

end TwoDigits

/-- The hours of an offset: `h` or `hh`. -/
inductive OffsetHours where
  | one (h : Fin 10)
  | two (hh : TwoDigits)
deriving DecidableEq, Repr

structure OffsetMinutes where
  colon : Bool
  mm : TwoDigits
  ss : Option TwoDigits
deriving DecidableEq, Repr

/-- An offset: a sign, hours, and minutes that may be left out. -/
structure UtcOffset where
  neg : Bool
  hours : OffsetHours
  minutes : Option OffsetMinutes
deriving DecidableEq, Repr

namespace OffsetHours

def text : OffsetHours → List UInt8
  | one h => [digitByte h]
  | two hh => hh.text

def value : OffsetHours → ℤ
  | one h => h
  | two hh => hh.value

def units : OffsetHours → ℤ
  | one _ => 0
  | two hh => hh.units

end OffsetHours

namespace OffsetMinutes

def text (m : OffsetMinutes) : List UInt8 :=
  (if m.colon then [58] else []) ++ (m.mm.text ++ m.ss.elim [] fun ss => 58 :: ss.text)

theorem text_ne_nil (m : OffsetMinutes) : m.text ≠ [] := by
  simp [text, TwoDigits.text]

def value (m : OffsetMinutes) : ℤ := m.mm.value * 60 + m.ss.elim 0 TwoDigits.value

end OffsetMinutes

namespace UtcOffset

def text (o : UtcOffset) : List UInt8 :=
  (if o.neg then 45 else 43) :: (o.hours.text ++ o.minutes.elim [] OffsetMinutes.text)

theorem text_eq (o : UtcOffset) :
    o.text = (if o.neg then 45 else 43) ::
      (o.hours.text ++ o.minutes.elim [] OffsetMinutes.text) := rfl

/-- The hours, minutes and seconds, in seconds. -/
def magnitude (o : UtcOffset) : ℤ :=
  o.hours.value * 3600 + o.minutes.elim 0 OffsetMinutes.value

def value (o : UtcOffset) : ℤ := if o.neg then -o.magnitude else o.magnitude

/-- What stands behind the first digit, in seconds. -/
def behind (o : UtcOffset) : ℤ := o.hours.units * 3600 + o.minutes.elim 0 OffsetMinutes.value

def flip (o : UtcOffset) : UtcOffset := { o with neg := !o.neg }

/-- What is stored for an offset: the sign is that of the first digit. -/
def stored (o : UtcOffset) : ℤ :=
  if o.neg then -(o.magnitude - o.behind) + o.behind else o.magnitude

end UtcOffset

namespace NativeTime

/-! ## Reading an offset -/

theorem toNat_digitByte (d : Fin 10) : (digitByte d).toNat = 48 + d := by
  rw [digitByte, UInt8.toNat_ofNat']
  omega

theorem oneDigit_digitByte (d : Fin 10) (s : List UInt8) :
    oneDigit (digitByte d :: s) = some ((d : ℤ), s) := by
  have hval := toNat_digitByte d
  rw [oneDigit, if_pos (by omega), hval]
  simp

/-- Two digits are read as their number. -/
theorem twoDigits_text (d : TwoDigits) (s : List UInt8) :
    twoDigits (d.text ++ s) = some (d.value, s) := by
  simp [twoDigits, TwoDigits.text, oneDigit_digitByte, TwoDigits.value]

/-- The seconds of an offset are added, whatever its sign is. -/
theorem offsetSeconds_text (ss : TwoDigits) (result : NativeTime) {r : NativeTime}
    (h : offsetSeconds (58 :: ss.text) result = some r) :
    r.tmGmtoff = result.tmGmtoff + ss.value := by
  have hread := twoDigits_text ss []
  rw [List.append_nil] at hread
  simp only [offsetSeconds, peek, List.headD_cons, List.tail_cons, ne_eq, not_true, if_false, hread,
    Option.bind_eq_bind, Option.bind_some, or_false] at h
  split at h
  · cases h
  · cases h
    rfl

theorem digitByte_ne_colon (d : Fin 10) : digitByte d ≠ 58 := by
  intro h
  have hval := congrArg UInt8.toNat h
  rw [toNat_digitByte] at hval
  simp only [UInt8.reduceToNat] at hval
  omega

/-- So are the minutes and seconds. -/
theorem offsetMinutes_text (m : OffsetMinutes) (result : NativeTime) {r : NativeTime}
    (h : offsetMinutes m.text result = some r) : r.tmGmtoff = result.tmGmtoff + m.value := by
  have hskip : (if peek m.text = 58 then m.text.tail else m.text) =
      m.mm.text ++ m.ss.elim [] fun ss => 58 :: ss.text := by
    cases hcolon : m.colon with
    | true => simp [OffsetMinutes.text, hcolon, peek]
    | false => simp [OffsetMinutes.text, hcolon, peek, TwoDigits.text, digitByte_ne_colon]
  rw [offsetMinutes, hskip, twoDigits_text] at h
  simp only [Option.bind_eq_bind, Option.bind_some] at h
  split at h
  · cases h
  · cases hss : m.ss with
    | none =>
      simp only [hss, Option.elim_none, if_true] at h
      cases h
      simp [OffsetMinutes.value, hss]
    | some ss =>
      simp only [hss, Option.elim_some, List.cons_ne_nil, if_false] at h
      rw [offsetSeconds_text ss _ h]
      simp only [OffsetMinutes.value, hss, Option.elim_some]
      ring

/-- An offset with two digits for the hours stores them with the sign, and the rest without. -/
theorem offsetDigits_two (hh : TwoDigits) (minutes : Option OffsetMinutes) (mul : ℤ)
    (result : NativeTime) {r : NativeTime}
    (h : offsetDigits mul (hh.text ++ minutes.elim [] OffsetMinutes.text) result = some r) :
    r.tmGmtoff = (hh.tens * mul * 10 + hh.units) * 60 * 60 +
      minutes.elim 0 OffsetMinutes.value := by
  simp only [offsetDigits, offsetHours, TwoDigits.text, List.cons_append, List.nil_append,
    oneDigit_digitByte, Option.bind_eq_bind, Option.bind_some, ne_eq, reduceCtorEq,
    not_false_eq_true, if_true] at h
  split at h
  · cases h
  · cases minutes with
    | none =>
      simp only [Option.elim_none, if_true] at h
      cases h
      simp
    | some m =>
      simp only [Option.elim_some, OffsetMinutes.text_ne_nil, if_false] at h
      exact offsetMinutes_text m _ h

theorem oneDigit_colon (s : List UInt8) : oneDigit (58 :: s) = none := rfl

theorem offsetMinutes_one (d : Fin 10) (ss : Option TwoDigits) (result : NativeTime) :
    offsetMinutes (digitByte d :: ss.elim [] fun ss => 58 :: ss.text) result = none := by
  have hpeek : peek (digitByte d :: ss.elim [] fun ss => 58 :: ss.text) ≠ 58 := digitByte_ne_colon d
  rw [offsetMinutes, if_neg hpeek]
  cases ss with
  | none => simp only [twoDigits, oneDigit_digitByte, Option.elim_none]; rfl
  | some ss => simp only [twoDigits, oneDigit_digitByte, Option.elim_some]; rfl

/-- With one digit there is nothing behind it. -/
theorem offsetDigits_one (d : Fin 10) (minutes : Option OffsetMinutes) (mul : ℤ)
    (result : NativeTime) {r : NativeTime}
    (h : offsetDigits mul (digitByte d :: minutes.elim [] OffsetMinutes.text) result = some r) :
    minutes = none ∧ r.tmGmtoff = d * mul * 60 * 60 := by
  cases minutes with
  | none =>
    simp only [offsetDigits, offsetHours, oneDigit_digitByte, Option.bind_eq_bind, Option.bind_some,
      Option.elim_none, ne_eq, not_true, if_false, if_true] at h
    split at h
    · cases h
    · cases h
      exact ⟨rfl, rfl⟩
  | some m =>
    obtain ⟨colon, ⟨tens, units⟩, ss⟩ := m
    cases colon with
    | true =>
      -- a colon is not the second digit
      simp [offsetDigits, offsetHours, oneDigit_digitByte, OffsetMinutes.text, oneDigit_colon] at h
    | false =>
      simp only [offsetDigits, offsetHours, oneDigit_digitByte, OffsetMinutes.text, TwoDigits.text,
        Option.elim_some, Bool.false_eq_true, if_false, List.nil_append, List.cons_append, ne_eq,
        reduceCtorEq, not_false_eq_true, if_true, Option.bind_eq_bind, Option.bind_some] at h
      have hrest := offsetMinutes_one units ss
      simp only [TwoDigits.text] at hrest
      rw [hrest] at h
      split at h <;> cases h

/-- **The digits of an offset** store what `UtcOffset.stored` says. -/
theorem offsetDigits_text (o : UtcOffset) (result : NativeTime) {r : NativeTime}
    (h : offsetDigits (if o.neg then -1 else 1)
      (o.hours.text ++ o.minutes.elim [] OffsetMinutes.text) result = some r) :
    r.tmGmtoff = o.stored := by
  obtain ⟨neg, hours, minutes⟩ := o
  cases hours with
  | one d =>
    obtain ⟨rfl, hstored⟩ := offsetDigits_one d minutes _ result h
    rw [hstored]
    cases neg <;>
      simp [UtcOffset.stored, UtcOffset.magnitude, UtcOffset.behind, OffsetHours.value,
        OffsetHours.units] <;> ring
  | two hh =>
    rw [offsetDigits_two hh minutes _ result h]
    cases neg <;>
      simp [UtcOffset.stored, UtcOffset.magnitude, UtcOffset.behind, OffsetHours.value,
        OffsetHours.units, TwoDigits.value] <;> ring

/-! ## What is read on the way -/

def NoSign (s : List UInt8) : Prop := 43 ∉ s ∧ 45 ∉ s

/-- What was read up to the rest has no sign. -/
def Ate (s rest : List UInt8) : Prop := ∃ front, s = front ++ rest ∧ NoSign front

theorem NoSign.nil : NoSign [] := ⟨List.not_mem_nil, List.not_mem_nil⟩

/-- There is no sign in two texts if there is none in each. -/
theorem noSign_append {l m : List UInt8} : NoSign (l ++ m) ↔ NoSign l ∧ NoSign m := by
  simp only [NoSign, List.mem_append, not_or]
  tauto

theorem Ate.refl (s : List UInt8) : Ate s s := ⟨[], rfl, NoSign.nil⟩

theorem Ate.trans {s t u : List UInt8} (h : Ate s t) (h' : Ate t u) : Ate s u := by
  obtain ⟨front, rfl, hfront⟩ := h
  obtain ⟨front', rfl, hfront'⟩ := h'
  exact ⟨front ++ front', (List.append_assoc _ _ _).symm, noSign_append.mpr ⟨hfront, hfront'⟩⟩

theorem Ate.tail {s : List UInt8} (hplus : peek s ≠ 43) (hminus : peek s ≠ 45) : Ate s s.tail := by
  cases s with
  | nil => exact Ate.refl []
  | cons c s =>
    rw [peek, List.headD_cons] at hplus hminus
    exact ⟨[c], rfl, by simpa using hplus.symm, by simpa using hminus.symm⟩

variable {s rest : List UInt8}

/-- What was eaten has no sign. -/
theorem Ate.noSign (h : Ate s rest) (hrest : NoSign rest) : NoSign s := by
  obtain ⟨front, rfl, hfront⟩ := h
  exact noSign_append.mpr ⟨hfront, hrest⟩

/-- A sign that is not eaten stays where it was. -/
theorem Ate.split {s rest pre tail : List UInt8} {c : UInt8} (h : Ate s rest)
    (hs : s = pre ++ c :: tail) (hc : c = 43 ∨ c = 45) : ∃ pre', rest = pre' ++ c :: tail := by
  obtain ⟨front, rfl, hplus, hminus⟩ := h
  rcases List.append_eq_append_iff.mp hs with ⟨pre', -, hrest⟩ | ⟨front', hfront, hrest⟩
  · exact ⟨pre', hrest⟩
  · cases front' with
    | nil => exact ⟨[], by simpa using hrest.symm⟩
    | cons d front' =>
      have hd : d = c := (List.head_eq_of_cons_eq hrest).symm
      subst hd
      rcases hc with rfl | rfl
      · exact absurd (by simp [hfront]) hplus
      · exact absurd (by simp [hfront]) hminus

theorem Ate.colon {s : List UInt8} (h : peek s = 58) : Ate s s.tail :=
  Ate.tail (by rw [h]; decide) (by rw [h]; decide)

/-- A digit is eaten without a sign. -/
theorem Ate.oneDigit {n : ℤ} (h : oneDigit s = some (n, rest)) :
    Ate s rest := by
  cases s with
  | nil => cases h
  | cons c s =>
    rw [NativeTime.oneDigit] at h
    split at h
    next hc =>
      cases h
      have hplus : c ≠ 43 := by
        rintro rfl
        exact absurd hc.1 (by decide)
      have hminus : c ≠ 45 := by
        rintro rfl
        exact absurd hc.1 (by decide)
      exact Ate.tail hplus hminus
    next => cases h

theorem Ate.twoDigits {n : ℤ} (h : twoDigits s = some (n, rest)) :
    Ate s rest := by
  obtain ⟨⟨a, s₁⟩, h₁, h⟩ := Option.bind_eq_some_iff.mp h
  obtain ⟨⟨b, s₂⟩, h₂, h⟩ := Option.bind_eq_some_iff.mp h
  cases h
  exact (Ate.oneDigit h₁).trans (Ate.oneDigit h₂)

theorem Ate.fracDigits (s : List UInt8) (frac : ℤ) : Ate s (fracDigits s frac).2 := by
  induction s generalizing frac with
  | nil => exact Ate.refl []
  | cons c s ih =>
    rw [NativeTime.fracDigits]
    split
    next hc =>
      have hdigit : NativeTime.oneDigit (c :: s) = some ((c.toNat : ℤ) - 48, s) := if_pos hc
      exact (Ate.oneDigit hdigit).trans (ih _)
    next => exact Ate.refl _

theorem Ate.hour {n : ℤ} (h : hour s = some (n, rest)) : Ate s rest := by
  obtain ⟨⟨a, s₁⟩, h₁, h⟩ := Option.bind_eq_some_iff.mp h
  refine (Ate.oneDigit h₁).trans ?_
  simp only at h
  split at h
  · obtain ⟨⟨b, s₂⟩, h₂, h⟩ := Option.bind_eq_some_iff.mp h
    cases h
    exact Ate.oneDigit h₂
  · cases h
    exact Ate.refl _

variable {result r : NativeTime}

theorem Ate.seconds
    (h : seconds s result = some (rest, r)) : Ate s rest := by
  obtain ⟨⟨a, s₁⟩, h₁, h⟩ := Option.bind_eq_some_iff.mp h
  refine (Ate.twoDigits h₁).trans ?_
  simp only at h
  split at h
  · cases h
  · split at h
    · obtain ⟨⟨b, s₂⟩, h₂, h⟩ := Option.bind_eq_some_iff.mp h
      cases h
      exact (Ate.oneDigit h₂).trans (Ate.fracDigits s₂ b)
    · cases h
      exact Ate.refl _

/-- The clock is. -/
theorem Ate.clock
    (h : clock s result = some (rest, r)) : Ate s rest := by
  obtain ⟨⟨a, s₁⟩, h₁, h⟩ := Option.bind_eq_some_iff.mp h
  refine (Ate.hour h₁).trans ?_
  simp only at h
  split at h
  · cases h
  next hcolon =>
    obtain ⟨⟨b, s₂⟩, h₂, h⟩ := Option.bind_eq_some_iff.mp h
    refine (Ate.colon (not_not.mp (not_or.mp hcolon).1)).trans ((Ate.twoDigits h₂).trans ?_)
    simp only at h
    split at h
    · cases h
    · split at h
      next hcolon => exact (Ate.colon hcolon).trans (Ate.seconds h)
      next =>
        cases h
        exact Ate.refl _

theorem Ate.spaces (s : List UInt8) : Ate s (s.dropWhile (· = 32)) := by
  induction s with
  | nil => exact Ate.refl []
  | cons c s ih =>
    rw [List.dropWhile_cons]
    split
    next hc =>
      obtain rfl : c = 32 := by simpa using hc
      have hspace : peek (32 :: s) = 32 := rfl
      exact (Ate.tail (by rw [hspace]; decide) (by rw [hspace]; decide)).trans ih
    next => exact Ate.refl _

theorem Ate.endOrTz
    (h : endOrTz s result = some (rest, r)) : Ate s rest := by
  rw [NativeTime.endOrTz] at h
  split at h
  · cases h
    exact Ate.refl _
  · cases h

theorem Ate.letters {s : List UInt8} {c : UInt8} (hc : peek s = c) (hsign : c ≠ 43 ∧ c ≠ 45)
    (hm : peek s.tail = 109 ∨ peek s.tail = 77) : Ate s s.tail.tail := by
  have htail : peek s.tail ≠ 43 ∧ peek s.tail ≠ 45 := by
    rcases hm with hm | hm <;> rw [hm] <;> decide
  exact (Ate.tail (hc ▸ hsign.1) (hc ▸ hsign.2)).trans (Ate.tail htail.1 htail.2)

/-- "am" and "pm" are. -/
theorem Ate.meridiem
    (h : meridiem s result = some (rest, r)) : Ate s rest := by
  -- an hour before or behind noon, or the zone itself
  have hletter : ∀ {c : UInt8} {p : Prop} [Decidable p] {result' : NativeTime}, peek s = c →
      c ≠ 43 ∧ c ≠ 45 → (¬ p → peek s.tail = 109 ∨ peek s.tail = 77) →
      (if p then none else NativeTime.endOrTz s.tail.tail result') = some (rest, r) →
      Ate s rest := by
    intro c p _ result' hc hsign hm h
    split at h
    next => cases h
    next hp => exact (Ate.letters hc hsign (hm hp)).trans (Ate.endOrTz h)
  rw [NativeTime.meridiem] at h
  split at h
  next hc => exact hletter hc (by decide) (fun hp => .inl (not_not.mp hp)) h
  next =>
    split at h
    next hc => exact hletter hc (by decide) (fun hp => by tauto) h
    next =>
      split at h
      next hc => exact hletter hc (by decide) (fun hp => .inl (not_not.mp hp)) h
      next =>
        split at h
        next hc => exact hletter hc (by decide) (fun hp => by tauto) h
        next =>
          split at h
          · cases h
            exact Ate.refl _
          · cases h

/-- What is read as seconds has no sign. -/
theorem noSign_offsetSeconds {s : List UInt8}
    (h : offsetSeconds s result = some r) : NoSign s := by
  rw [offsetSeconds] at h
  split at h
  · cases h
  next hcolon =>
    obtain ⟨⟨a, s₁⟩, h₁, h⟩ := Option.bind_eq_some_iff.mp h
    simp only at h
    split at h
    · cases h
    next hend =>
      obtain rfl : s₁ = [] := not_not.mp (not_or.mp hend).2
      exact ((Ate.colon (not_not.mp hcolon)).trans (Ate.twoDigits h₁)).noSign NoSign.nil

theorem noSign_offsetMinutes {s : List UInt8}
    (h : offsetMinutes s result = some r) : NoSign s := by
  obtain ⟨⟨a, s₁⟩, h₁, h⟩ := Option.bind_eq_some_iff.mp h
  have hs : Ate s s₁ := by
    split at h₁
    next hcolon => exact (Ate.colon hcolon).trans (Ate.twoDigits h₁)
    next => exact Ate.twoDigits h₁
  refine hs.noSign ?_
  simp only at h
  split at h
  · cases h
  · split at h
    next hend =>
      rw [hend]
      exact NoSign.nil
    next => exact noSign_offsetSeconds h

/-- What is read as the digits of an offset has none. -/
theorem noSign_offsetDigits {mul : ℤ} {s : List UInt8}
    (h : offsetDigits mul s result = some r) : NoSign s := by
  obtain ⟨⟨a, s₁⟩, h₁, h⟩ := Option.bind_eq_some_iff.mp h
  have hs : Ate s s₁ := by
    obtain ⟨⟨b, s₂⟩, h₂, h₁⟩ := Option.bind_eq_some_iff.mp h₁
    refine (Ate.oneDigit h₂).trans ?_
    simp only at h₁
    split at h₁
    · obtain ⟨⟨c, s₃⟩, h₃, h₁⟩ := Option.bind_eq_some_iff.mp h₁
      cases h₁
      exact Ate.oneDigit h₃
    · cases h₁
      exact Ate.refl _
  refine hs.noSign ?_
  simp only at h
  split at h
  · cases h
  · split at h
    next hend =>
      rw [hend]
      exact NoSign.nil
    next => exact noSign_offsetMinutes h

/-- **An offset at the end** stores what its text says. -/
theorem offset_text {pre : List UInt8} {o : UtcOffset}
    (h : offset (pre ++ o.text) result = some r) : r.tmGmtoff = o.stored := by
  have hsigned : ∀ {s : List UInt8} {mul : ℤ} {result : NativeTime},
      offsetDigits mul s result = some r → ∀ pre', s ≠ pre' ++ o.text := by
    rintro s mul result h pre' rfl
    have hsign := (noSign_append.mp (noSign_offsetDigits h)).2
    rw [UtcOffset.text_eq, NoSign] at hsign
    cases hneg : o.neg <;> simp [hneg] at hsign
  have hzone : ∃ pre₁, (if peek (pre ++ o.text) = 90 ∨ peek (pre ++ o.text) = 122 then
      (pre ++ o.text).tail else pre ++ o.text) = pre₁ ++ o.text := by
    split
    next hpeek =>
      cases pre with
      | nil =>
        rw [List.nil_append, UtcOffset.text_eq] at hpeek
        cases hneg : o.neg <;> simp [hneg, peek] at hpeek
      | cons c pre => exact ⟨pre, rfl⟩
    next => exact ⟨pre, rfl⟩
  obtain ⟨pre₁, hzone⟩ := hzone
  simp only [offset, hzone] at h
  have hne : pre₁ ++ o.text ≠ [] := by simp [UtcOffset.text_eq]
  rw [if_neg hne] at h
  cases pre₁ with
  | nil =>
    refine offsetDigits_text o { result with haveOffset := true } ?_
    rw [List.nil_append, UtcOffset.text_eq] at h
    cases hneg : o.neg <;> simpa [hneg, peek] using h
  | cons c pre₁ =>
    -- the sign of the offset would be left over
    exfalso
    split at h
    next => exact hsigned h pre₁ rfl
    next =>
      split at h
      next => exact hsigned h pre₁ rfl
      next => exact hsigned h (c :: pre₁) rfl

/-- It does so behind whatever was read before. -/
theorem toNativeTime_text {pre : List UInt8} {o : UtcOffset}
    (h : toNativeTime (pre ++ o.text) result = some r) : r.tmGmtoff = o.stored := by
  obtain ⟨⟨s₁, r₁⟩, h₁, h⟩ := Option.bind_eq_some_iff.mp h
  have hs₁ := (Ate.clock h₁).trans (Ate.spaces s₁)
  have hsign : ((if o.neg then 45 else 43 : UInt8)) = 43 ∨
      ((if o.neg then 45 else 43 : UInt8)) = 45 := by
    cases o.neg
    · exact .inl rfl
    · exact .inr rfl
  obtain ⟨pre₁, hpre₁⟩ := hs₁.split (congrArg (pre ++ ·) o.text_eq) hsign
  simp only [hpre₁] at h
  rw [if_neg (by simp)] at h
  obtain ⟨⟨s₂, r₂⟩, h₂, h⟩ := Option.bind_eq_some_iff.mp h
  obtain ⟨pre₂, rfl⟩ := (Ate.meridiem h₂).split rfl hsign
  simp only at h
  rw [if_neg (by simp), ← o.text_eq] at h
  exact offset_text h

end NativeTime

open NativeTime

/-! ## What is stored -/

/-- **Which offsets are stored as what they say**: those that are not negative, and those with
nothing but zeros behind the first digit. Two offsets that differ in the sign are negatives of each
other just if there is nothing but zeros. -/
theorem offset_iff {pre : List UInt8} {o : UtcOffset} {result r : NativeTime}
    (h : toNativeTime (pre ++ o.text) result = some r) :
    (r.tmGmtoff = o.value ↔ (o.neg = true → o.behind = 0)) ∧
      ∀ pre' r', toNativeTime (pre' ++ o.flip.text) result = some r' →
        (r'.tmGmtoff = -r.tmGmtoff ↔ o.behind = 0) := by
  constructor
  · rw [toNativeTime_text h]
    cases hneg : o.neg with
    | true =>
      simp only [UtcOffset.stored, UtcOffset.value, hneg, if_true, forall_true_left]
      omega
    | false => simp [UtcOffset.stored, UtcOffset.value, hneg]
  · intro pre' r' h'
    rw [toNativeTime_text h, toNativeTime_text h']
    have hmagnitude : o.flip.magnitude = o.magnitude := rfl
    have hbehind : o.flip.behind = o.behind := rfl
    have hflip : o.flip.stored =
        if o.neg then o.magnitude else -(o.magnitude - o.behind) + o.behind := by
      cases hneg : o.neg <;> simp [UtcOffset.stored, UtcOffset.flip, hneg] <;> rfl
    rw [hflip, UtcOffset.stored]
    split <;> omega

/-- `12:00`. -/
def noon : List UInt8 := [49, 50, 58, 48, 48]

/-- A result before anything is set. -/
def unsetTime : NativeTime := ⟨0, 0, 0, 0, 0, false, false, false, false⟩

/-- `12:00` with an offset of so many seconds. -/
def noonTime (tmGmtoff : ℤ) : NativeTime := ⟨12, 0, 0, 0, tmGmtoff, true, false, false, true⟩

theorem offset_iff_minus_5 :
    ((noonTime (-18000)).tmGmtoff = (⟨true, .one 5, none⟩ : UtcOffset).value ↔
        ((⟨true, .one 5, none⟩ : UtcOffset).neg = true →
          (⟨true, .one 5, none⟩ : UtcOffset).behind = 0)) ∧
      ∀ pre' r', toNativeTime (pre' ++ (⟨true, .one 5, none⟩ : UtcOffset).flip.text) unsetTime =
          some r' →
        (r'.tmGmtoff = -(noonTime (-18000)).tmGmtoff ↔
          (⟨true, .one 5, none⟩ : UtcOffset).behind = 0) :=
  @offset_iff noon ⟨true, .one 5, none⟩ unsetTime (noonTime (-18000)) (by decide)

/-- **`12:00-05` is stored with an offset of five hours to the east.** -/
theorem not_offset :
    ¬ ∀ (pre : List UInt8) (o : UtcOffset) (result r : NativeTime),
      toNativeTime (pre ++ o.text) result = some r → r.tmGmtoff = o.value ∧
        ∀ pre' r', toNativeTime (pre' ++ o.flip.text) result = some r' →
          r'.tmGmtoff = -r.tmGmtoff := by
  intro hall
  have hread : toNativeTime (noon ++ (⟨true, .two ⟨0, 5⟩, none⟩ : UtcOffset).text) unsetTime =
      some (noonTime 18000) := by decide
  have hvalue := (hall _ _ _ _ hread).1
  exact absurd hvalue (by decide)

end N00b.Adts
