import Mathlib
import N00b.Marshal.Framing

/-!
# Segments

The virtual heap is one address range; on the receiving side each message lies in memory of its own.
The map of segments (`vaddr_info`) leads from a virtual address to the place in memory.

## Main results

* `rawUnmungePointer_locate`: a virtual address is mapped to its place in the segments.
* `locate_address`: the place of an allocation does not depend on the messages that follow.
-/

namespace N00b.Marshal

open Lib

/-! ## Places -/

/-- The place `r` bytes into the virtual heap. The segments are those of the messages from the `k`th
on, which start `start` bytes into the virtual heap and have the given sizes; the last one is
open. -/
def locate (loc : Nat → Word) : Nat → Nat → List Nat → Nat → Word
  | k, start, [], r => loc k + BitVec.ofNat 64 (r - start)
  | k, start, size :: sizes, r =>
    if r < start + size then loc k + BitVec.ofNat 64 (r - start)
    else locate loc (k + 1) (start + size) sizes r

/-- The entries of `vaddr_info` for these segments. -/
def vaddrEntries (loc : Nat → Word) : Nat → Nat → List Nat → List VaddrMap
  | _, _, [] => []
  | k, start, size :: sizes =>
    ⟨BitVec.ofNat 64 start, BitVec.ofNat 64 (start + size), loc k⟩ ::
      vaddrEntries loc (k + 1) (start + size) sizes

/-- Where the record of an allocation lies, its messages being those from the `k`th on. -/
def address (loc : Nat → Word) : Nat → List (List Alloc) → Alloc → Word
  | _, [], _ => 0
  | k, cur :: curs, a =>
    match startOf cur a.addr with
    | some r => loc k + BitVec.ofNat 64 r
    | none => address loc (k + 1) curs a

/-- The state in which a message of `size` bytes is decoded, after messages of the given sizes. -/
structure Decoding (loc : Nat → Word) (base : Word) (sizes : List Nat) (size : Nat)
    (ctx : UnpickleCtx) : Prop where
  vaddrStart : ctx.vaddrStart = base
  curRecordStartOffset : ctx.curRecordStartOffset = BitVec.ofNat 64 sizes.sum
  curRecordEndOffset : ctx.curRecordEndOffset = BitVec.ofNat 64 (sizes.sum + size)
  curRecord : ctx.curRecord = loc sizes.length
  vaddrInfo : ctx.vaddrInfo = vaddrEntries loc 0 0 sizes
  small : sizes.sum + size ≤ 65536

variable {loc : Nat → Word} {base : Word} {sizes : List Nat} {size : Nat} {ctx : UnpickleCtx}

@[simp] theorem length_vaddrEntries (loc : Nat → Word) (k start : Nat) (sizes : List Nat) :
    (vaddrEntries loc k start sizes).length = sizes.length := by
  induction sizes generalizing k start with
  | nil => rfl
  | cons size sizes ih => rw [vaddrEntries, List.length_cons, ih, List.length_cons]

/-- One more message adds its entry at the end. -/
theorem vaddrEntries_concat (loc : Nat → Word) (k start : Nat) (sizes : List Nat) (size : Nat) :
    vaddrEntries loc k start (sizes ++ [size]) = vaddrEntries loc k start sizes ++
      [⟨BitVec.ofNat 64 (start + sizes.sum), BitVec.ofNat 64 (start + sizes.sum + size),
        loc (k + sizes.length)⟩] := by
  induction sizes generalizing k start with
  | nil => rfl
  | cons s sizes ih =>
    rw [List.cons_append, vaddrEntries, ih, vaddrEntries, List.cons_append, List.sum_cons,
      List.length_cons, ← Nat.add_assoc, Nat.add_assoc k, Nat.add_comm 1]

/-- An offset behind the known messages lies in the one being read. -/
theorem locate_open {k start r : Nat} (h : start + sizes.sum ≤ r) :
    locate loc k start sizes r =
      loc (k + sizes.length) + BitVec.ofNat 64 (r - (start + sizes.sum)) := by
  induction sizes generalizing k start with
  | nil => simp [locate]
  | cons s sizes ih =>
    rw [List.sum_cons, ← Nat.add_assoc] at h
    rw [locate, if_neg (by omega), ih h, List.length_cons, List.sum_cons, Nat.add_assoc start,
      Nat.add_right_comm k, Nat.add_assoc k]

/-- Later messages do not move an offset. -/
theorem locate_append (loc : Nat → Word) (k start : Nat) {r : Nat} (more : List Nat)
    (h : r < start + (sizes.sum + size)) :
    locate loc k start (sizes ++ size :: more) r = locate loc k start sizes r := by
  induction sizes generalizing k start with
  | nil =>
    rw [List.sum_nil, Nat.zero_add] at h
    simp only [List.nil_append, locate, if_pos h]
  | cons s sizes ih =>
    rw [List.sum_cons] at h
    rw [List.cons_append, locate, locate]
    by_cases hr : r < start + s
    · rw [if_pos hr, if_pos hr]
    · rw [if_neg hr, if_neg hr, ih _ _ (by omega)]

/-- The entry found for an offset is that of its message. -/
theorem find_vaddrEntries (loc : Nat → Word) (k : Nat) {start r : Nat} (hstart : start ≤ r) (h : r < start + sizes.sum)
    (hsmall : start + sizes.sum ≤ 65536) :
    ∃ entry, (vaddrEntries loc k start sizes).find?
        (fun entry => r < entry.vaddrEndOffset.toNat) = some entry ∧
      entry.trueSegmentLoc + BitVec.ofNat 64 r - entry.vaddrStartOffset =
        locate loc k start sizes r := by
  induction sizes generalizing k start with
  | nil => simp at h; omega
  | cons s sizes ih =>
    rw [List.sum_cons, ← Nat.add_assoc] at h hsmall
    have hend : (BitVec.ofNat 64 (start + s)).toNat = start + s := by
      rw [BitVec.toNat_ofNat, Nat.mod_eq_of_lt (by omega)]
    rw [vaddrEntries, locate]
    by_cases hr : r < start + s
    · refine ⟨_, List.find?_cons_of_pos (by simpa [hend] using hr), ?_⟩
      rw [if_pos hr]
      obtain ⟨d, rfl⟩ := Nat.exists_eq_add_of_le hstart
      show loc k + BitVec.ofNat 64 (start + d) - BitVec.ofNat 64 start = _
      rw [Nat.add_sub_cancel_left, BitVec.ofNat_add, BitVec.add_comm (BitVec.ofNat 64 start),
        ← BitVec.add_assoc, BitVec.add_sub_cancel]
    · rw [List.find?_cons_of_neg (by simpa [hend] using hr), if_neg hr]
      exact ih (k + 1) (by omega) h hsmall

/-- The reader takes a virtual address to the place of its offset. -/
theorem rawUnmungePointer_locate (h : Decoding loc base sizes size ctx) {r : Nat}
    (hr : r ≤ sizes.sum + size) :
    rawUnmungePointer ctx (vaddr base r) = .ok (locate loc 0 0 sizes r) := by
  have hsmall := h.small
  have hoffset : vaddr base r - ctx.vaddrStart = BitVec.ofNat 64 r := by
    rw [h.vaddrStart, vaddr, BitVec.add_comm, BitVec.add_sub_cancel]
  have hnat : ∀ n, n ≤ 65536 → (BitVec.ofNat 64 n).toNat = n := fun n hn => by
    rw [BitVec.toNat_ofNat, Nat.mod_eq_of_lt (by omega)]
  have hsign : ¬ (BitVec.ofNat 64 r).toInt < 0 := by
    rw [BitVec.toInt_eq_toNat_cond, hnat r (by omega), if_pos (by omega)]
    omega
  rw [rawUnmungePointer, hoffset]
  simp only [hsign, false_or, h.curRecordStartOffset, h.curRecordEndOffset, h.curRecord,
    h.vaddrInfo, hnat r (by omega), hnat sizes.sum (by omega), hnat (sizes.sum + size) hsmall]
  by_cases hcur : r ≥ sizes.sum
  · rw [if_pos hcur, if_neg (by omega), locate_open (by omega)]
    obtain ⟨d, rfl⟩ := Nat.exists_eq_add_of_le hcur
    congr 1
    rw [Nat.zero_add, Nat.zero_add, Nat.add_sub_cancel_left, BitVec.ofNat_add,
      BitVec.add_comm (BitVec.ofNat 64 sizes.sum), ← BitVec.add_assoc, BitVec.add_sub_cancel]
  · obtain ⟨entry, hfind, hplace⟩ := find_vaddrEntries loc 0 (Nat.zero_le r)
      (show r < 0 + sizes.sum by omega) (by omega)
    rw [if_neg hcur, hfind]
    exact congrArg Except.ok hplace

/-! ## Allocations -/

/-- Later messages do not move an allocation. -/
theorem address_append (loc : Nat → Word) (k : Nat) {curs : List (List Alloc)} {b : Alloc} {r : Nat}
    (h : startOf curs.flatten b.addr = some r) (more : List (List Alloc)) :
    address loc k (curs ++ more) b = address loc k curs b := by
  induction curs generalizing k r with
  | nil => simp [startOf, Placement.place] at h
  | cons cur curs ih =>
    rw [List.flatten_cons, startOf, Placement.place_append] at h
    rw [List.cons_append, address, address]
    cases hcur : startOf cur b.addr with
    | some r' => rfl
    | none =>
      rw [show Placement.place Alloc.addr Alloc.allocLen cur b.addr = none from hcur,
        Option.none_or, Option.map_eq_some_iff] at h
      obtain ⟨r', hr', -⟩ := h
      exact ih _ hr'

/-- The extent of several messages is the sum of theirs. -/
theorem extent_flatten (curs : List (List Alloc)) :
    extent curs.flatten = (curs.map extent).sum := by
  induction curs with
  | nil => rfl
  | cons cur curs ih =>
    rw [List.flatten_cons, List.map_cons, List.sum_cons, ← ih]
    exact Placement.total_append cur curs.flatten

/-- The place of an offset into a record is that offset into the allocation's place. -/
theorem locate_address (loc : Nat → Word) (k start : Nat) {curs : List (List Alloc)} {b : Alloc}
    {r d : Nat}
    (hr : startOf curs.flatten b.addr = some r)
    (hroom : ∀ cur ∈ curs, ∀ r, startOf cur b.addr = some r → r + d < extent cur) :
    locate loc k start (curs.map extent) (start + r + d) =
      address loc k curs b + BitVec.ofNat 64 d := by
  induction curs generalizing k start r with
  | nil => simp [startOf, Placement.place] at hr
  | cons cur curs ih =>
    rw [List.flatten_cons, startOf, Placement.place_append] at hr
    rw [List.map_cons, locate, address]
    cases hcur : startOf cur b.addr with
    | some r' =>
      obtain rfl : r' = r := by simpa [startOf, hcur] using hr
      have hlt := hroom cur List.mem_cons_self r' hcur
      have hsub : start + r' + d - start = r' + d := by omega
      rw [if_pos (by omega), hsub, BitVec.ofNat_add, ← BitVec.add_assoc]
    | none =>
      rw [show Placement.place Alloc.addr Alloc.allocLen cur b.addr = none from hcur,
        Option.none_or, Option.map_eq_some_iff] at hr
      obtain ⟨r', hr', hsum⟩ := hr
      have hsplit : r = extent cur + r' := hsum.symm
      have hnext := ih (k + 1) (start + extent cur) hr'
        fun c hc => hroom c (List.mem_cons_of_mem _ hc)
      rw [if_neg (by omega), ← hnext, hsplit, ← Nat.add_assoc start]

end N00b.Marshal
