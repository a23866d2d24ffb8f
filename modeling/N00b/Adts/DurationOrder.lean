import N00b.Adts.Duration

/-!
# Durations and their lengths

A duration is normal when its nanoseconds are less than a second. All that makes durations keeps to
that except for literals: the parts of a literal that are less than a second are added up and never
carried. Of normal durations the comparisons compare the lengths.

## Main results

- `normal_iff_of_literal`: which literals make normal durations.
- `lt_iff`, `gt_iff`, `eq_iff`, `diff_exact_iff`: what is compared and subtracted.
- `durations_normal_iff`: all of these.
-/

namespace N00b.Adts.Duration

/-- The nanoseconds are less than a second. -/
def Normal (d : Duration) : Prop := 0 ≤ d.tvNsec ∧ d.tvNsec < nsecPerSec

instance (d : Duration) : Decidable d.Normal := instDecidableAnd

def total (d : Duration) : ℤ := d.tvSec * nsecPerSec + d.tvNsec

/-- A number within 64 bits is kept. -/
theorem int64_of_lt {x : ℤ} (h₀ : -2 ^ 63 ≤ x) (h : x < 2 ^ 63) : int64 x = x := by
  rw [int64, Int.bmod_eq_of_le]
  all_goals omega

/-- A 64-bit number lies within its bounds. -/
theorem int64_bounds (x : ℤ) : -2 ^ 63 ≤ int64 x ∧ int64 x < 2 ^ 63 := by
  have hle := Int.le_bmod (x := x) (m := 2 ^ 64) (by decide)
  have hlt := Int.bmod_lt (x := x) (m := 2 ^ 64) (by decide)
  rw [int64]
  omega

/-- A number that is not negative is kept iff it is below 2^63. -/
theorem int64_eq_iff {x : ℤ} (h₀ : 0 ≤ x) : int64 x = x ↔ x < 2 ^ 63 := by
  refine ⟨fun h => ?_, fun h => int64_of_lt (by omega) h⟩
  rw [← h]
  exact (int64_bounds x).2

/-- Reducing to 64 bits before a subtraction makes no difference. -/
theorem int64_int64_sub_one (x : ℤ) : int64 (int64 x - 1) = int64 (x - 1) := by
  rw [int64, int64, int64, Int.sub_eq_add_neg, Int.bmod_add_bmod, Int.sub_eq_add_neg]

/-! ## Literals -/

/-- The nanoseconds that a part of a literal stands for, if its unit is less than a second. -/
def subSecond (atom : List Char × List Char) : ℤ :=
  if tvSecMultiple atom.2 = 0 then tvNanoMultiple atom.2 * ((rawIntParse atom.1).getD 0 : ℕ) else 0

def subSeconds (atoms : List (List Char × List Char)) : ℤ := (atoms.map subSecond).sum

/-- The factor of a unit is not negative. -/
theorem tvNanoMultiple_nonneg (s : List Char) : 0 ≤ tvNanoMultiple s := by
  simp only [tvNanoMultiple, nsPerMs, nsPerUs]
  split
  · decide
  · split
    · decide
    · split
      · decide
      · split <;> decide

/-- One atom adds its part below a second. -/
theorem addAtom_sub {acc acc' : ℤ × ℤ} {atom : List Char × List Char}
    (h : addAtom acc atom = some acc') (h₀ : 0 ≤ acc.2) (hle : acc.2 ≤ maxUint) :
    acc'.2 = acc.2 + subSecond atom ∧ 0 ≤ acc'.2 ∧ acc'.2 ≤ maxUint := by
  rw [addAtom] at h
  rcases hparse : rawIntParse atom.1 with _ | tmp
  · rw [hparse] at h
    cases h
  · simp only [hparse] at h
    obtain ⟨_, h⟩ := Option.ite_none_left_eq_some.mp h
    rw [subSecond, hparse, Option.getD_some]
    by_cases hsec : tvSecMultiple atom.2 = 0
    · rw [if_neg (not_not.mpr hsec)] at h
      obtain ⟨_, h⟩ := Option.ite_none_left_eq_some.mp h
      obtain ⟨hfit, h⟩ := Option.ite_none_left_eq_some.mp h
      have hnano := tvNanoMultiple_nonneg atom.2
      have hpos : 0 ≤ tvNanoMultiple atom.2 * (tmp : ℤ) := mul_nonneg hnano (Int.natCast_nonneg tmp)
      rw [if_pos hsec, ← Option.some.inj h]
      exact ⟨rfl, by show 0 ≤ acc.2 + _; omega, not_lt.mp hfit⟩
    · rw [if_pos hsec] at h
      obtain ⟨_, h⟩ := Option.ite_none_left_eq_some.mp h
      rw [if_neg hsec, ← Option.some.inj h]
      exact ⟨(add_zero _).symm, h₀, hle⟩

/-- The atoms of a literal add their parts below a second. -/
theorem addAtoms_sub {atoms : List (List Char × List Char)} {acc acc' : ℤ × ℤ}
    (h : atoms.foldlM addAtom acc = some acc') (h₀ : 0 ≤ acc.2) (hle : acc.2 ≤ maxUint) :
    acc'.2 = acc.2 + subSeconds atoms ∧ 0 ≤ acc'.2 ∧ acc'.2 ≤ maxUint := by
  induction atoms generalizing acc with
  | nil =>
    cases h
    exact ⟨(add_zero _).symm, h₀, hle⟩
  | cons atom atoms ih =>
    rw [List.foldlM_cons] at h
    obtain ⟨acc₁, hone, hrest⟩ := Option.bind_eq_some_iff.mp h
    obtain ⟨hsum, h₁, hle₁⟩ := addAtom_sub hone h₀ hle
    obtain ⟨hsums, hbounds⟩ := ih hrest h₁ hle₁
    refine ⟨?_, hbounds⟩
    rw [hsums, hsum, subSeconds, subSeconds, List.map_cons, List.sum_cons, add_assoc]

/-- The condition under which a literal makes a normal duration: the parts that are less than a
second are less than one together. -/
def LiteralFits (s : List Char) : Prop :=
  ∀ atoms, atomize s = some atoms → subSeconds atoms < nsecPerSec

/-- The duration of an accepted literal is normal iff its parts below a second add up to less than
one. -/
theorem normal_iff_of_literal {s : List Char} {ts : Duration} (h : strToDuration s = some ts) :
    ts.Normal ↔ LiteralFits s := by
  rw [strToDuration, Option.bind_eq_bind, Option.bind_eq_some_iff] at h
  obtain ⟨atoms, hatoms, h⟩ := h
  obtain ⟨acc, hacc, h⟩ := Option.bind_eq_some_iff.mp h
  rw [← Option.some.inj h]
  obtain ⟨hsum, h₀, hle⟩ := addAtoms_sub hacc le_rfl (by decide)
  rw [zero_add] at hsum
  have hfits : LiteralFits s ↔ acc.2 < nsecPerSec := by
    rw [hsum]
    refine ⟨fun h => h atoms hatoms, fun h atoms' hatoms' => ?_⟩
    rw [hatoms] at hatoms'
    rwa [← Option.some.inj hatoms']
  have hbounds := int64_bounds acc.2
  rw [hfits]
  show 0 ≤ int64 acc.2 ∧ int64 acc.2 < nsecPerSec ↔ acc.2 < nsecPerSec
  rw [maxUint] at hle
  rw [nsecPerSec]
  by_cases hlt : acc.2 < 2 ^ 63
  · rw [int64_of_lt (by omega) hlt]
    omega
  · -- the number of nanoseconds becomes negative
    have hneg : int64 acc.2 = acc.2 - 2 ^ 64 := by
      rw [int64, Int.bmod_def]
      omega
    omega

/-! ## Arithmetic -/

variable {a b : Duration}

/-- The sum of normal durations is normal. -/
theorem normal_add (ha : a.Normal) (hb : b.Normal) : (a.add b).Normal := by
  obtain ⟨ha₀, ha⟩ := ha
  obtain ⟨hb₀, hb⟩ := hb
  rw [nsecPerSec] at ha hb
  have hsum : int64 (a.tvNsec + b.tvNsec) = a.tvNsec + b.tvNsec :=
    int64_of_lt (by omega) (by omega)
  simp only [add, hsum, nsecPerSec]
  by_cases hcarry : 1000000000 ≤ a.tvNsec + b.tvNsec
  · rw [if_pos hcarry]
    have hrest : int64 (a.tvNsec + b.tvNsec - 1000000000) = a.tvNsec + b.tvNsec - 1000000000 :=
      int64_of_lt (by omega) (by omega)
    show 0 ≤ int64 _ ∧ int64 _ < nsecPerSec
    rw [hrest, nsecPerSec]
    omega
  · rw [if_neg hcarry]
    show 0 ≤ a.tvNsec + b.tvNsec ∧ a.tvNsec + b.tvNsec < nsecPerSec
    rw [nsecPerSec]
    omega

/-- A duration from milliseconds is normal. -/
theorem normal_fromMs (ms : ℤ) : (fromMs ms).Normal := by
  have hmod := Int.tmod_lt_of_pos ms (show (0 : ℤ) < 1000 by decide)
  show 0 ≤ (if ms.tmod 1000 * nsPerMs < 0 then 0 else ms.tmod 1000 * nsPerMs) ∧
    (if ms.tmod 1000 * nsPerMs < 0 then 0 else ms.tmod 1000 * nsPerMs) < nsecPerSec
  rw [nsPerMs, nsecPerSec]
  split <;> omega

/-! ## Comparisons -/

/-- On normal durations the order is that of the totals. -/
theorem lt_iff (ha : a.Normal) (hb : b.Normal) : a.lt b ↔ a.total < b.total := by
  obtain ⟨ha₀, ha⟩ := ha
  obtain ⟨hb₀, hb⟩ := hb
  rw [nsecPerSec] at ha hb
  rw [lt, total, total, nsecPerSec]
  by_cases h₁ : a.tvSec < b.tvSec
  · rw [if_pos h₁]
    exact iff_of_true rfl (by omega)
  · rw [if_neg h₁]
    by_cases h₂ : b.tvSec < a.tvSec
    · rw [if_pos h₂]
      exact iff_of_false (by decide) (by omega)
    · rw [if_neg h₂, decide_eq_true_iff]
      omega

theorem gt_eq_lt (a b : Duration) : a.gt b = b.lt a := rfl

/-- On normal durations the reverse order is that of the totals. -/
theorem gt_iff (ha : a.Normal) (hb : b.Normal) : a.gt b ↔ b.total < a.total := by
  rw [gt_eq_lt]
  exact lt_iff hb ha

/-- Normal durations are equal iff their totals are. -/
theorem eq_iff (ha : a.Normal) (hb : b.Normal) : a.eq b ↔ a.total = b.total := by
  obtain ⟨ha₀, ha⟩ := ha
  obtain ⟨hb₀, hb⟩ := hb
  rw [nsecPerSec] at ha hb
  rw [eq, Bool.and_eq_true, decide_eq_true_iff, decide_eq_true_iff, total, total, nsecPerSec]
  omega

/-! ## Differences -/

/-- The difference is the larger total less the smaller. -/
theorem diff_eq {b l t₁ t₂ : Duration} (hb : b.Normal) (hl : l.Normal)
    (h : (if t₁.gt t₂ then (t₁, t₂) else (t₂, t₁)) = (b, l)) :
    t₁.diff t₂ = { tvSec := int64 ((b.total - l.total) / nsecPerSec)
                   tvNsec := (b.total - l.total) % nsecPerSec } := by
  obtain ⟨hb₀, hb⟩ := hb
  obtain ⟨hl₀, hl⟩ := hl
  rw [nsecPerSec] at hb hl
  have hnsec : int64 (b.tvNsec - l.tvNsec) = b.tvNsec - l.tvNsec :=
    int64_of_lt (by omega) (by omega)
  simp only [diff, h, hnsec, total, nsecPerSec]
  by_cases hborrow : b.tvNsec - l.tvNsec < 0
  · have hfill : int64 (b.tvNsec - l.tvNsec + 1000000000) = b.tvNsec - l.tvNsec + 1000000000 :=
      int64_of_lt (by omega) (by omega)
    rw [if_pos hborrow, hfill, int64_int64_sub_one]
    congr 2 <;> omega
  · rw [if_neg hborrow]
    congr 2 <;> omega

/-- The difference of normal durations is the distance of their totals. -/
theorem diff_spec (ha : a.Normal) (hb : b.Normal) :
    a.diff b = { tvSec := int64 (|a.total - b.total| / nsecPerSec)
                 tvNsec := |a.total - b.total| % nsecPerSec } := by
  by_cases hgt : a.gt b
  · have hlt := (gt_iff ha hb).mp hgt
    rw [diff_eq ha hb (by rw [if_pos hgt]), abs_of_pos (by omega)]
  · have hle := not_lt.mp (mt (gt_iff ha hb).mpr hgt)
    rw [diff_eq hb ha (by rw [if_neg hgt]), abs_sub_comm, abs_of_nonneg (by omega)]

/-- The difference of normal durations is normal. -/
theorem normal_diff (ha : a.Normal) (hb : b.Normal) : (a.diff b).Normal := by
  rw [diff_spec ha hb]
  exact ⟨Int.emod_nonneg _ (by decide), Int.emod_lt_of_pos _ (by decide)⟩

/-- The difference is exact iff its seconds fit 64 bits. -/
theorem diff_exact_iff (ha : a.Normal) (hb : b.Normal) :
    (a.diff b).total = |a.total - b.total| ↔ |a.total - b.total| / nsecPerSec < 2 ^ 63 := by
  have hnonneg : 0 ≤ |a.total - b.total| / nsecPerSec :=
    Int.ediv_nonneg (abs_nonneg _) (by decide)
  have hsplit := Int.mul_ediv_add_emod |a.total - b.total| nsecPerSec
  rw [diff_spec ha hb, ← int64_eq_iff hnonneg]
  show int64 _ * nsecPerSec + _ % nsecPerSec = _ ↔ _
  rw [nsecPerSec] at hsplit ⊢
  omega

/-! ## All durations -/

/-- **What holds of durations, and when**: a literal makes a normal one if and only if its parts
that are less than a second are less than one together, the others are always normal, the
comparisons of normal durations are those of their lengths, and a difference is exact if and only if
its seconds fit. -/
theorem durations_normal_iff (s : List Char) (ts : Duration) (hs : strToDuration s = some ts)
    (ms : ℤ) (a b : Duration) (ha : a.Normal) (hb : b.Normal) :
    (ts.Normal ↔ LiteralFits s) ∧ (fromMs ms).Normal ∧ (a.add b).Normal ∧ (a.diff b).Normal ∧
      (a.lt b ↔ a.total < b.total) ∧ (a.gt b ↔ b.total < a.total) ∧ (a.eq b ↔ a.total = b.total) ∧
      ((a.diff b).total = |a.total - b.total| ↔ |a.total - b.total| / nsecPerSec < 2 ^ 63) :=
  ⟨normal_iff_of_literal hs, normal_fromMs ms, normal_add ha hb, normal_diff ha hb, lt_iff ha hb,
    gt_iff ha hb, eq_iff ha hb, diff_exact_iff ha hb⟩

/-- Half a second, as a literal, and the second between 1.75 and 2.75 seconds. -/
theorem durations_normal_iff_half : LiteralFits "500ms".toList ∧
    (diff { tvSec := 1, tvNsec := 750000000 } { tvSec := 2, tvNsec := 750000000 }).Normal := by
  have hhalf : strToDuration "500ms".toList = some { tvSec := 0, tvNsec := 500000000 } := by
    decide
  obtain ⟨hliteral, _, _, hdiff, _⟩ := durations_normal_iff _ _ hhalf 500
    { tvSec := 1, tvNsec := 750000000 } { tvSec := 2, tvNsec := 750000000 } (by decide) (by decide)
  exact ⟨hliteral.mp (by decide), hdiff⟩

/-- Two thousand milliseconds are not carried to the seconds, and compare as less than a second. -/
theorem literal_not_carried : ¬ ∀ s s' a b, strToDuration s = some a → strToDuration s' = some b →
    a.Normal ∧ b.Normal ∧ (a.lt b ↔ a.total < b.total) ∧ (a.diff b).Normal ∧
      (a.diff b).total = |a.total - b.total| := by
  intro h
  have htwo : strToDuration "2000ms".toList = some { tvSec := 0, tvNsec := 2000000000 } := by
    decide
  have hone : strToDuration "1s".toList = some { tvSec := 1, tvNsec := 0 } := by decide
  obtain ⟨hnormal, _⟩ := h _ _ _ _ htwo hone
  revert hnormal
  decide

end N00b.Adts.Duration
