import Mathlib

/-!
# The room behind an allocation

`n00b_calculate_alloc_len` adds the header, whose size is a multiple of `N00B_FORCED_ALIGNMENT`, and
rounds up to that.
-/

namespace N00b.Adts

def calculateAllocLen (bytes : ℕ) : ℕ := 16 * ((bytes + 15) / 16)

/-- The slots of eight bytes behind an allocation of `n` of them. -/
def arraySlots (n : ℕ) : ℕ := calculateAllocLen (8 * n) / 8

theorem le_calculateAllocLen (bytes : ℕ) : bytes ≤ calculateAllocLen bytes := by
  rw [calculateAllocLen]
  omega

theorem le_arraySlots (n : ℕ) : n ≤ arraySlots n := by
  rw [arraySlots, calculateAllocLen]
  omega

/-- What a signed integer of 32 bits holds after a store. -/
def int32 (x : ℤ) : ℤ := x.bmod (2 ^ 32)

theorem int32_of_lt {x : ℤ} (h₀ : 0 ≤ x) (h : x < 2 ^ 31) : int32 x = x := by
  rw [int32, Int.bmod_eq_of_le]
  all_goals omega

end N00b.Adts
