import Mathlib
import N00b.Lib.Placement

/-!
# Heap words and allocation records

Memory as the marshal filter sees it: 64-bit words, the test that separates virtual addresses from
other words (`lsb_erase`), the six-word allocation header, and the allocations of the heap
(core/heap.h, filter_marshal.nc).

The header has the layout of a build with allocation locations, which is the one that compiles. The
heap's arenas and its collector stay out: a heap is the list of its allocations, and their lengths,
which the allocator rounds up to multiples of 16, are any numbers of words.

## Main results

* `inWindow_add`: the first 64 KiB from an aligned base are the words the test accepts.
-/

namespace N00b.Marshal

open Lib

abbrev Word := BitVec 64

/-- `lsb_erase`. -/
def lsbErase (n : Word) : Word :=
  n &&& 0xffffffffffff0000#64

/-- The decoder's test: the word is an address in the virtual heap of a stream. -/
abbrev InWindow (base word : Word) : Prop :=
  lsbErase word = base

/-! ## Headers -/

/-- `sizeof(n00b_alloc_hdr)`. -/
abbrev headerLen : Nat := 48

/-- `N00B_MARSHAL_RECORD_GUARD`. -/
def marshalRecordGuard : Word := 0x13addbbeab3dddda#64

/-- The fields of `n00b_alloc_record_t`. -/
structure RecordHdr where
  guard : Word
  type : Word
  allocFile : Word
  allocLen : Nat
  allocLine : Nat
  marshalEnd : Bool
  ptrScan : Bool
  obj : Bool
  cachedHash : Word × Word
deriving DecidableEq, Repr

/-- The fourth word of a header: a 32-bit length, a 16-bit line and the bit fields after it. -/
def lengthWord (allocLen allocLine : Nat) (marshalEnd ptrScan obj : Bool) : Word :=
  BitVec.ofNat 64 (allocLen % 2 ^ 32 + 2 ^ 32 * (allocLine % 2 ^ 16) +
    2 ^ 48 * (marshalEnd.toNat + 2 * ptrScan.toNat + 4 * obj.toNat))

/-- `alloc_len`, read back from the fourth word. -/
def allocLenOf (word : Word) : Nat :=
  word.toNat % 2 ^ 32

/-- `n00b_marshal_end`, read back from the fourth word. -/
def marshalEndOf (word : Word) : Bool :=
  word.toNat / 2 ^ 48 % 2 == 1

/-- A header in memory. -/
def RecordHdr.words (h : RecordHdr) : List Word :=
  [h.guard, h.type, h.allocFile, lengthWord h.allocLen h.allocLine h.marshalEnd h.ptrScan h.obj,
    h.cachedHash.1, h.cachedHash.2]

@[simp] theorem RecordHdr.length_words (h : RecordHdr) : h.words.length = 6 := rfl

/-- The length word gives the length back. -/
theorem allocLenOf_lengthWord {len : Nat} (h : len < 2 ^ 32) (line : Nat) (e p o : Bool) :
    allocLenOf (lengthWord len line e p o) = len := by
  cases e <;> cases p <;> cases o <;> simp [allocLenOf, lengthWord] <;> omega

/-- The length word gives the end mark back. -/
theorem marshalEndOf_lengthWord (len line : Nat) (e p o : Bool) :
    marshalEndOf (lengthWord len line e p o) = e := by
  cases e <;> cases p <;> cases o <;> simp [marshalEndOf, lengthWord] <;> omega

/-! ## The window -/

/-- Erasing the lower 16 bits rounds down to a multiple of 65536. -/
theorem lsbErase_toNat (n : Word) : (lsbErase n).toNat = n.toNat / 65536 * 65536 := by
  have hmask : (0xffffffffffff0000#64).toNat = (2 ^ 48 - 1) <<< 16 := by decide
  have hn : n.toNat / 65536 < 2 ^ 48 := by omega
  have hsplit : n.toNat = n.toNat / 65536 * 65536 + n.toNat % 65536 := by omega
  apply Nat.eq_of_testBit_eq
  intro i
  rw [lsbErase, BitVec.toNat_and, hmask, Nat.testBit_and, Nat.testBit_shiftLeft,
    Nat.testBit_two_pow_sub_one, show (65536 : Nat) = 2 ^ 16 from rfl, Nat.testBit_mul_two_pow,
    Nat.testBit_div_two_pow]
  by_cases hi : 16 ≤ i
  · by_cases hi' : i - 16 < 48
    · simp [hi, hi', Nat.sub_add_cancel hi]
    · have : n.toNat.testBit i = false :=
        Nat.testBit_lt_two_pow (lt_of_lt_of_le n.isLt (Nat.pow_le_pow_right (by decide) (by omega)))
      simp [this, Nat.sub_add_cancel hi]
  · simp [hi]

theorem lsbErase_lsbErase (n : Word) : lsbErase (lsbErase n) = lsbErase n := by
  apply BitVec.eq_of_toNat_eq
  rw [lsbErase_toNat, lsbErase_toNat]
  omega

/-- A word is in the window of a base iff their upper 48 bits agree. -/
theorem inWindow_iff {base word : Word} (hbase : lsbErase base = base) :
    InWindow base word ↔ word.toNat / 65536 = base.toNat / 65536 := by
  have hb : base.toNat = base.toNat / 65536 * 65536 := by
    rw [← lsbErase_toNat, hbase]
  rw [InWindow, ← BitVec.toNat_inj, lsbErase_toNat]
  omega

/-- The 65536 bytes from a base on are its window. -/
theorem inWindow_add {base : Word} (hbase : lsbErase base = base) {r : Nat} (hr : r < 65536) :
    InWindow base (base + BitVec.ofNat 64 r) := by
  have hb : base.toNat = base.toNat / 65536 * 65536 := by
    rw [← lsbErase_toNat, hbase]
  rw [inWindow_iff hbase, BitVec.toNat_add, BitVec.toNat_ofNat]
  omega

/-- A null pointer is in the window of no base but zero. -/
theorem not_inWindow_zero {base : Word} (h : base ≠ 0) : ¬ InWindow base 0 := by
  intro hw
  have h0 : lsbErase (0 : Word) = 0 := by decide
  exact h (hw.symm.trans h0)

/-! ## The heap -/

/-- An allocation: its header and its data words. `cachedHash` is the pair of words that
`setup_new_header` copies. The `alloc_len` of a header is an `int32_t`. -/
structure Alloc where
  addr : Word
  type : Word
  ptrScan : Bool
  obj : Bool
  cachedHash : Word × Word
  data : List Word
  fits : headerLen + 8 * data.length < 2 ^ 31
deriving DecidableEq, Repr

/-- `alloc_len`, which counts the header. -/
def Alloc.allocLen (a : Alloc) : Nat :=
  headerLen + 8 * a.data.length

/-- The addresses of an allocation, its header's included. -/
def Alloc.Covers (a : Alloc) (p : Word) : Prop :=
  a.addr.toNat ≤ p.toNat ∧ p.toNat < a.addr.toNat + a.allocLen

instance (a : Alloc) (p : Word) : Decidable (a.Covers p) :=
  inferInstanceAs (Decidable (_ ∧ _))

/-- One allocation ends before the other starts. -/
def Alloc.Apart (a b : Alloc) : Prop :=
  a.addr.toNat + a.allocLen ≤ b.addr.toNat ∨ b.addr.toNat + b.allocLen ≤ a.addr.toNat

instance : DecidableRel Alloc.Apart :=
  fun _ _ => inferInstanceAs (Decidable (_ ∨ _))

instance : Std.Symm Alloc.Apart :=
  ⟨fun _ _ => Or.symm⟩

/-- The allocations of a heap stand apart and fit the address space. -/
structure Heap where
  allocs : List Alloc
  apart : allocs.Pairwise Alloc.Apart
  addressable : Placement.total Alloc.allocLen allocs < 2 ^ 64

/-- `n00b_in_heap` and `n00b_find_allocation_record`: the allocation that a word points into. The
source scans back to the header's guard. -/
def Heap.findAllocationRecord (heap : Heap) (p : Word) : Option Alloc :=
  if p = 0 then none else heap.allocs.find? (fun a => decide (a.Covers p))

theorem Alloc.headerLen_le (a : Alloc) : headerLen ≤ a.allocLen :=
  Nat.le_add_right _ _

theorem Alloc.allocLen_lt (a : Alloc) : a.allocLen < 2 ^ 31 :=
  a.fits

theorem Alloc.allocLen_div (a : Alloc) : a.allocLen / 8 = 6 + a.data.length := by
  simp only [Alloc.allocLen, headerLen]
  omega

namespace Heap

variable {heap : Heap}

/-- The allocation found for a pointer is one of the heap. -/
theorem mem_of_find {p : Word} {a : Alloc} (h : heap.findAllocationRecord p = some a) :
    a ∈ heap.allocs := by
  unfold findAllocationRecord at h
  split at h
  · cases h
  · exact List.mem_of_find?_eq_some h

/-- The allocation found for a pointer covers it. -/
theorem covers_of_find {p : Word} {a : Alloc} (h : heap.findAllocationRecord p = some a) :
    a.Covers p := by
  unfold findAllocationRecord at h
  split at h
  · cases h
  · simpa using List.find?_some h

@[simp] theorem find_zero : heap.findAllocationRecord 0 = none := rfl

/-- An allocation is known by its address. -/
theorem eq_of_addr {a b : Alloc} (ha : a ∈ heap.allocs) (hb : b ∈ heap.allocs)
    (h : a.addr = b.addr) : a = b := by
  by_contra hne
  have hap : a.Apart b := heap.apart.forall ha hb hne
  have hla := a.headerLen_le
  have hlb := b.headerLen_le
  rw [Alloc.Apart, h] at hap
  simp only [headerLen] at hla hlb
  omega

/-- The allocations of a heap are distinct. -/
theorem nodup : heap.allocs.Nodup := by
  refine heap.apart.imp ?_
  rintro a b hab rfl
  have hla := a.headerLen_le
  simp only [Alloc.Apart, headerLen] at hab hla
  omega

end Heap

end N00b.Marshal
