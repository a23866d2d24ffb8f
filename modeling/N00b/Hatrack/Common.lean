import N00b.Lib.Buckets

/-!
# What the hash tables share

The hash values, the sizes of stores and the sorting of views, from `hatrack_common.h`,
`hatrack-internal.h` and `hatrack_common.c`. A table has a power of two buckets. It migrates before
three quarters of them are reserved, and the size it migrates to leaves room.

## Main results

- `newSize_spec`: a new store is large enough for what moves to it, and one more.
- `viewSort_eq`: a view is sorted by its epochs, as long as they are small.
-/

namespace N00b.Hatrack

/-- `hatrack_hash_t`. The value zero marks a bucket nobody has reserved. -/
abbrev Hash := BitVec 128

abbrev Item := ℕ

/-- The item pointer `NULL`. -/
def null : Item := 0

/-- The hash value that a bucket is reserved for. -/
def reservedFor (hv : Hash) : Option Hash := if hv = 0 then none else some hv

theorem reservedFor_zero : reservedFor 0 = none := rfl

theorem reservedFor_of_ne {hv : Hash} (h : hv ≠ 0) : reservedFor hv = some hv := if_neg h

/-- A bucket is reserved for a hash iff it holds it. -/
theorem reservedFor_eq_some {hv hv' : Hash} (h : hv' ≠ 0) :
    reservedFor hv = some hv' ↔ hv = hv' := by
  unfold reservedFor
  split
  · rename_i hzero
    simp only [reduceCtorEq, false_iff]
    rintro rfl
    exact h hzero
  · simp

/-- A bucket that is reserved holds the hash it is reserved for. -/
theorem reservedFor_inv {hv hv' : Hash} (h : reservedFor hv = some hv') : hv = hv' ∧ hv' ≠ 0 := by
  unfold reservedFor at h
  split at h
  · cases h
  · rename_i hne
    obtain rfl := Option.some.inj h
    exact ⟨rfl, hne⟩

/-- A bucket is free iff its hash is zero. -/
theorem reservedFor_eq_none {hv : Hash} : reservedFor hv = none ↔ hv = 0 := by
  simp [reservedFor]

/-! ## Sizes -/

/-- `HATRACK_MIN_SIZE_LOG`. -/
def minSizeLog : ℕ := 4

/-- `HATRACK_MIN_SIZE`. -/
def minSize : ℕ := 1 <<< minSizeLog

/-- `hatrack_compute_table_threshold`. -/
def computeTableThreshold (size : ℕ) : ℕ := size - size >>> 2 - 1

/-- `hatrack_new_size`. -/
def hatrackNewSize (lastBucket size : ℕ) : ℕ :=
  let tableSize := lastBucket + 1
  if tableSize >>> 1 ≤ size then tableSize <<< 1
  else if size ≤ minSize <<< 2 then minSize <<< 3
  else if size ≤ tableSize >>> 2 then tableSize >>> 1
  else tableSize

/-- `hatrack_bucket_index`. -/
def bucketIndex (hv : Hash) (lastSlot : ℕ) : ℕ := hv.toNat &&& lastSlot

/-- Masking by the last slot is the remainder by the size. -/
theorem and_lastSlot (n k : ℕ) : n &&& (2 ^ k - 1) = n % 2 ^ k :=
  Nat.and_two_pow_sub_one_eq_mod n k

/-- The home bucket of a hash is its remainder by the size. -/
theorem bucketIndex_eq (hv : Hash) (k : ℕ) : bucketIndex hv (2 ^ k - 1) = hv.toNat % 2 ^ k :=
  and_lastSlot hv.toNat k

/-- A table's size is a multiple of 16. -/
theorem size_spec {k : ℕ} (hk : minSizeLog ≤ k) : ∃ q, 0 < q ∧ 2 ^ k = 16 * q := by
  obtain ⟨j, rfl⟩ := Nat.exists_eq_add_of_le hk
  refine ⟨2 ^ j, by positivity, ?_⟩
  rw [pow_add]
  rfl

/-- The threshold is below the index of the last bucket. -/
theorem threshold_lt {k : ℕ} (hk : minSizeLog ≤ k) :
    computeTableThreshold (2 ^ k) < 2 ^ k - 1 := by
  obtain ⟨q, hq, hsize⟩ := size_spec hk
  rw [computeTableThreshold, hsize]
  omega

/-- The new size of a table holds its items below the threshold. -/
theorem newSize_spec {k n : ℕ} (hk : minSizeLog ≤ k) (hn : n ≤ 2 ^ k + 1) :
    ∃ k', minSizeLog ≤ k' ∧ hatrackNewSize (2 ^ k - 1) n = 2 ^ k' ∧
      n < computeTableThreshold (2 ^ k') := by
  obtain ⟨q, hq, hsize⟩ := size_spec hk
  have htable : 2 ^ k - 1 + 1 = 2 ^ k := by omega
  have hmin : minSize <<< 2 = 64 := rfl
  have hmax : minSize <<< 3 = 2 ^ 7 := rfl
  unfold hatrackNewSize
  rw [htable, hmin, hmax]
  simp only
  split
  · -- at least half of the old size: twice the old size
    refine ⟨k + 1, by omega, by rw [pow_succ, Nat.shiftLeft_eq, pow_one], ?_⟩
    rw [computeTableThreshold, pow_succ, hsize]
    omega
  · split
    · exact ⟨7, by decide, rfl, by rw [computeTableThreshold]; omega⟩
    · split
      · -- a quarter, but more than the smallest sizes: half of the old size
        obtain ⟨j, rfl⟩ : ∃ j, k = j + 1 := ⟨k - 1, by unfold minSizeLog at hk; omega⟩
        have hhalf : 2 ^ (j + 1) = 2 ^ j * 2 := pow_succ 2 j
        have hj : minSizeLog ≤ j := by
          by_contra hsmall
          have hj3 : j ≤ 3 := by
            unfold minSizeLog at hsmall
            omega
          have hle : 2 ^ j ≤ 2 ^ 3 := Nat.pow_le_pow_right (by decide) hj3
          omega
        refine ⟨j, hj, by omega, ?_⟩
        rw [computeTableThreshold]
        omega
      · refine ⟨k, hk, rfl, ?_⟩
        rw [computeTableThreshold]
        omega

/-- A doubled table holds its items below the threshold. -/
theorem doubleSize_spec {k n : ℕ} (hk : minSizeLog ≤ k) (hn : n ≤ 2 ^ k + 1) :
    (2 ^ k - 1 + 1) <<< 1 = 2 ^ (k + 1) ∧ n < computeTableThreshold (2 ^ (k + 1)) := by
  obtain ⟨q, hq, hsize⟩ := size_spec hk
  refine ⟨?_, ?_⟩
  · rw [show 2 ^ k - 1 + 1 = 2 ^ k by omega, pow_succ, Nat.shiftLeft_eq, pow_one]
  · rw [computeTableThreshold, pow_succ, hsize]
    omega

/-! ## Views -/

/-- `hatrack_quicksort_cmp`, on the items of a view and their epochs: the difference of the epochs,
as an `int`. -/
def quicksortCmp (x y : Item × ℕ) : ℤ := (BitVec.ofInt 32 ((x.2 : ℤ) - y.2)).toInt

/-- The items of a view, passed to `qsort` when they are to be sorted. -/
def viewSort (sort : Bool) (items : List (Item × ℕ)) : List (Item × ℕ) :=
  if sort then items.mergeSort fun x y => decide (quicksortCmp x y ≤ 0) else items

/-- Sorting a view keeps its items. -/
theorem viewSort_perm (sort : Bool) (items : List (Item × ℕ)) :
    (viewSort sort items).Perm items := by
  cases sort with
  | false => exact .rfl
  | true => exact List.mergeSort_perm _ _

/-- Below 2^31 the comparison of epochs is their order. -/
theorem quicksortCmp_le {x y : Item × ℕ} (hx : x.2 < 2 ^ 31) (hy : y.2 < 2 ^ 31) :
    quicksortCmp x y ≤ 0 ↔ x.2 ≤ y.2 := by
  have hint : quicksortCmp x y = (x.2 : ℤ) - y.2 := by
    unfold quicksortCmp
    rw [BitVec.toInt_ofInt, Int.bmod_eq_of_le]
    all_goals omega
  rw [hint]
  omega

/-- A view sorted by epochs is the one list of its items in that order. -/
theorem viewSort_eq {items sorted : List (Item × ℕ)} (hperm : items.Perm sorted)
    (hsorted : sorted.Pairwise fun x y => x.2 < y.2) (hsmall : ∀ x ∈ sorted, x.2 < 2 ^ 31) :
    viewSort true items = sorted := by
  have hsmall' : ∀ x ∈ items, x.2 < 2 ^ 31 := fun x hx => hsmall x (hperm.mem_iff.mp hx)
  have hcmp : items.mergeSort (fun x y => decide (quicksortCmp x y ≤ 0)) =
      items.mergeSort fun x y => decide (x.2 ≤ y.2) := by
    have hmap := List.map_mergeSort (r := fun x y : Item × ℕ => decide (quicksortCmp x y ≤ 0))
      (s := fun x y => decide (x.2 ≤ y.2)) (f := id) (l := items) fun a ha b hb => by
        simp [quicksortCmp_le (hsmall' a ha) (hsmall' b hb)]
    simpa using hmap
  rw [viewSort, if_pos rfl, hcmp]
  have hle : (items.mergeSort fun x y => decide (x.2 ≤ y.2)).Pairwise
      fun x y => decide (x.2 ≤ y.2) = true :=
    List.pairwise_mergeSort (by simpa using fun a b c hab hbc => le_trans hab hbc)
      (by simpa using fun a b => le_total _ _) items
  have hpm : (items.mergeSort fun x y => decide (x.2 ≤ y.2)).Perm sorted :=
    (List.mergeSort_perm _ _).trans hperm
  have hnodup : (sorted.map Prod.snd).Nodup :=
    List.pairwise_map.mpr (hsorted.imp fun h => h.ne)
  refine hpm.eq_of_pairwise (fun x y hx hy hxy hyx => ?_) hle
    (hsorted.imp fun h => by simpa using h.le)
  simp only [decide_eq_true_eq] at hxy hyx
  exact List.inj_on_of_nodup_map hnodup (hpm.mem_iff.mp hx) hy (le_antisymm hxy hyx)

end N00b.Hatrack
