import N00b.Adts.Allocation

/-!
# Durations

`duration.nc`: seconds and nanoseconds, from literals, from milliseconds, and by arithmetic on two
of them.

## Representation

* A string is its codepoints, and `data` their bytes up to a `NUL`.
* A literal is accepted when `str_to_duration` returns true. Which error it returns otherwise is
  left out.
* Signed arithmetic wraps around.
-/

namespace N00b.Adts

/-- What a signed integer of 64 bits holds after a store. -/
def int64 (x : ℤ) : ℤ := x.bmod (2 ^ 64)

/-- `n00b_duration_t`. -/
structure Duration where
  tvSec : ℤ
  tvNsec : ℤ
  deriving DecidableEq, Repr

namespace Duration

/-- `N00B_NSEC_PER_SEC`. -/
def nsecPerSec : ℤ := 1000000000

/-- `NS_PER_MS`. -/
def nsPerMs : ℤ := 1000000

/-- `NS_PER_US`. -/
def nsPerUs : ℤ := 1000

/-- `SEC_PER_MIN`. -/
def secPerMin : ℤ := 60

/-- `SEC_PER_HR`. -/
def secPerHr : ℤ := secPerMin * 60

/-- `SEC_PER_DAY`. -/
def secPerDay : ℤ := secPerHr * 24

/-- `SEC_PER_WEEK`. -/
def secPerWeek : ℤ := secPerDay * 7

/-- `SEC_PER_YEAR`. -/
def secPerYear : ℤ := secPerDay * 365

/-! ## Literals -/

/-- `isdigit`. -/
def isDigit (byte : UInt8) : Bool := 48 ≤ byte.toNat && byte.toNat ≤ 57

/-- `isspace`. -/
def isSpace (byte : UInt8) : Bool := byte.toNat = 32 || 9 ≤ byte.toNat && byte.toNat ≤ 13

/-- What stands between a number and a unit. -/
def isGap (byte : UInt8) : Bool := isSpace byte || byte.toNat = 44

def isUnit (byte : UInt8) : Bool :=
  !isDigit byte && !(byte.toNat = 32) && !(byte.toNat = 44)

/-- `n00b_string_slice`, for indices that are not negative. -/
def stringSlice (s : List Char) (start stop : ℕ) : List Char := (s.take stop).drop start

/-- The loop of `duration_atomize` over the bytes from `start` on: numbers and units, which are cut
out of the string by the places of their bytes. Every pass reads a digit, so there are no more
passes than bytes. -/
def atomizeLoop (s : List Char) : ℕ → ℕ → List UInt8 → Option (List (List Char × List Char))
  | _, _, [] => some []
  | 0, _, _ :: _ => none
  | fuel + 1, start, rest =>
    let digits := rest.takeWhile isDigit
    let rest := rest.dropWhile isDigit
    let unitStart := start + digits.length + (rest.takeWhile isGap).length
    let rest := rest.dropWhile isGap
    let unit := rest.takeWhile isUnit
    let rest := rest.dropWhile isUnit
    let next := unitStart + unit.length + (rest.takeWhile isGap).length
    if digits = [] ∨ unit = [] then none
    else
      (atomizeLoop s fuel next (rest.dropWhile isGap)).map fun atoms =>
        (stringSlice s start (start + digits.length),
          stringSlice s unitStart (unitStart + unit.length)) :: atoms

/-- `duration_atomize`. Its length is an `int`. -/
def atomize (s : List Char) : Option (List (List Char × List Char)) :=
  let bytes := s.flatMap String.utf8EncodeChar
  atomizeLoop s bytes.length 0 (bytes.take (int32 bytes.length).toNat)

/-- The characters up to a `NUL`. -/
def cString (s : List Char) : List Char := s.takeWhile (· ≠ '\x00')

/-- One pass of the loop of `n00b_raw_int_parse`. There is no result when it sets an error. -/
def intDigit (cur : ℕ) (c : Char) : Option ℕ :=
  if c.isDigit then
    let next := (cur * 10 + (c.toNat - 48)) % 2 ^ 128
    if next < cur then none else some next
  else none

/-- `n00b_raw_int_parse`. A sign is refused by `str_to_duration` if not here. -/
def rawIntParse (s : List Char) : Option ℕ := (cString s).foldlM intDigit 0

/-- `!strcmp`, with one of these. -/
def named (s : List Char) (names : List String) : Bool :=
  (names.map String.toList).contains (cString s)

/-- `tv_sec_multiple`. -/
def tvSecMultiple (s : List Char) : ℤ :=
  if named s ["s", "sec", "secs", "seconds"] then 1
  else if named s ["m", "min", "mins", "minutes"] then secPerMin
  else if named s ["h", "hr", "hrs", "hours"] then secPerHr
  else if named s ["d", "day", "days"] then secPerDay
  else if named s ["w", "wk", "wks", "week", "weeks"] then secPerWeek
  else if named s ["y", "yr", "yrs", "year", "years"] then secPerYear
  else 0

/-- `tv_nano_multiple`. The last of the comparisons with a unit that begins with `u` is the wrong
way round. -/
def tvNanoMultiple (s : List Char) : ℤ :=
  if named s ["n", "ns", "nsec", "nsecs", "nanosec", "nanosecs", "nanosecond", "nanoseconds"] then 1
  else if named s ["m", "ms", "msec", "msecs", "millisec", "millisecs", "millisecond",
    "milliseconds"] then nsPerMs
  else if named s ["microsec", "microsecs", "microsecond", "microseconds"] then nsPerUs
  else if s.head? = some 'u' ∧
    (named s ["u", "us", "usec", "usecs", "usecond"] ∨ ¬ named s ["useconds"]) then nsPerUs
  else 0

/-- `N00B_MAX_UINT`. -/
def maxUint : ℤ := 2 ^ 64 - 1

/-- One pass of the loop of `str_to_duration`, for a number and a unit. -/
def addAtom (acc : ℤ × ℤ) (atom : List Char × List Char) : Option (ℤ × ℤ) :=
  match rawIntParse atom.1 with
  | none => none
  | some tmp =>
    if maxUint < tmp then none
    else if tvSecMultiple atom.2 ≠ 0 then
      if maxUint < acc.1 + tvSecMultiple atom.2 * tmp then none
      else some (acc.1 + tvSecMultiple atom.2 * tmp, acc.2)
    else if tvNanoMultiple atom.2 = 0 then none
    else if maxUint < acc.2 + tvNanoMultiple atom.2 * tmp then none
    else some (acc.1, acc.2 + tvNanoMultiple atom.2 * tmp)

/-- `str_to_duration`, if it accepts the literal. -/
def strToDuration (s : List Char) : Option Duration := do
  let atoms ← atomize s
  let (sec, sub) ← atoms.foldlM addAtom (0, 0)
  some { tvSec := int64 sec, tvNsec := int64 sub }

/-! ## Arithmetic -/

/-- `n00b_duration_eq`. -/
def eq (t₁ t₂ : Duration) : Bool := t₁.tvSec = t₂.tvSec && t₁.tvNsec = t₂.tvNsec

/-- `n00b_duration_gt`. -/
def gt (t₁ t₂ : Duration) : Bool :=
  if t₂.tvSec < t₁.tvSec then true
  else if t₁.tvSec < t₂.tvSec then false
  else t₂.tvNsec < t₁.tvNsec

/-- `n00b_duration_lt`. -/
def lt (t₁ t₂ : Duration) : Bool :=
  if t₁.tvSec < t₂.tvSec then true
  else if t₂.tvSec < t₁.tvSec then false
  else t₁.tvNsec < t₂.tvNsec

/-- `n00b_duration_diff`. -/
def diff (t₁ t₂ : Duration) : Duration :=
  let (b, l) := if t₁.gt t₂ then (t₁, t₂) else (t₂, t₁)
  let nsec := int64 (b.tvNsec - l.tvNsec)
  let sec := int64 (b.tvSec - l.tvSec)
  if nsec < 0 then { tvSec := int64 (sec - 1), tvNsec := int64 (nsec + nsecPerSec) }
  else { tvSec := sec, tvNsec := nsec }

/-- `n00b_duration_add`. -/
def add (t₁ t₂ : Duration) : Duration :=
  let nsec := int64 (t₁.tvNsec + t₂.tvNsec)
  let sec := int64 (t₁.tvSec + t₂.tvSec)
  if nsecPerSec ≤ nsec then { tvSec := int64 (sec + 1), tvNsec := int64 (nsec - nsecPerSec) }
  else { tvSec := sec, tvNsec := nsec }

/-- `duration_init`, with seconds and nanoseconds. -/
def init (sec nanosec : ℤ) : Duration :=
  { tvSec := if sec < 0 then 0 else sec, tvNsec := if nanosec < 0 then 0 else nanosec }

/-- `n00b_duration_from_ms`. -/
def fromMs (ms : ℤ) : Duration := init (ms.tdiv 1000) (ms.tmod 1000 * nsPerMs)

end Duration

end N00b.Adts
