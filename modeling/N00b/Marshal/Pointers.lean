import Mathlib
import N00b.Marshal.Message

/-!
# Pointers and other words of a stream

The encoder writes a heap pointer as a virtual address and any other word as it is; the decoder
tells the two apart by the upper 48 bits alone (`lsb_erase`). The heap may change between the
messages of a stream.
-/

namespace N00b.Marshal

open Lib

/-! ## Agreement -/

/-- The decoder takes the emitted word for what it is. -/
def Agrees (base : Word) (e : Emission) : Prop :=
  e.pointer = true ↔ InWindow base e.word

open Classical in
/-- The allocations that a message for `obj` writes. -/
noncomputable def awaited (heap : Heap) (ctx : PickleCtx) (obj : Alloc) : List Alloc :=
  heap.allocs.filter fun a => Awaits heap ctx obj a

/-- The condition on a message: the records that it opens fit into what is left of the first 64 KiB
of the virtual heap, the virtual heap is not at zero, and no `type` that is no heap pointer looks
like a virtual address. -/
structure Fits (heap : Heap) (ctx : PickleCtx) (obj : Alloc) : Prop where
  base : ctx.base ≠ 0
  room : (ctx.offset - ctx.base).toNat + extent (awaited heap ctx obj) ≤ 65536
  types : ∀ a, Awaits heap ctx obj a → heap.findAllocationRecord a.type = none →
    ¬ InWindow ctx.base a.type

variable {heap : Heap} {ctx : PickleCtx} {lay cur : List Alloc}
  {obj : Alloc}

/-! ## Places -/

/-- A record lies within the extent of the layout. -/
theorem start_add_le (hheld : ∀ a ∈ lay, ∃ b ∈ heap.allocs, b.addr = a.addr ∧ b.allocLen = a.allocLen)
    {b : Alloc} (hb : b ∈ heap.allocs) {r : Nat} (hr : startOf lay b.addr = some r) :
    r + b.allocLen ≤ extent lay := by
  obtain ⟨pre, a, post, rfl, haddr, -, rfl⟩ := Placement.exists_split hr
  obtain ⟨c, hc, hcaddr, hclen⟩ := hheld a (by simp)
  obtain rfl : c = b := Heap.eq_of_addr hc hb (hcaddr.trans haddr)
  simp only [extent, Placement.total_append, Placement.total_cons, hclen]
  omega

/-- The offset of the context counts the bytes of the layout. -/
theorem offset_sub_base (h : Laid ctx lay) (hsize : extent lay ≤ 65536) :
    (ctx.offset - ctx.base).toNat = extent lay := by
  rw [h.offset, vaddr, BitVec.add_comm, BitVec.add_sub_cancel, BitVec.toNat_ofNat,
    Nat.mod_eq_of_lt (by omega)]

/-! ## Messages -/

/-- A sound emission within the window is marked as a pointer exactly when it is one. -/
theorem EmissionOk.agrees {e : Emission}
    (h : EmissionOk heap ctx.base (Awaits heap ctx obj) lay e) (hfits : Fits heap ctx obj)
    (haligned : lsbErase ctx.base = ctx.base) (hsize : extent lay ≤ 65536)
    (hheld : ∀ a ∈ lay, ∃ b ∈ heap.allocs, b.addr = a.addr ∧ b.allocLen = a.allocLen) :
    Agrees ctx.base e := by
  unfold EmissionOk at h
  unfold Agrees
  by_cases hp : e.pointer = true
  · rw [if_pos hp] at h
    obtain ⟨b, r, d, hr, hb, hd, hword⟩ := h
    have hle := start_add_le hheld hb hr
    rw [hword]
    exact iff_of_true hp (inWindow_add haligned (by omega))
  · rw [if_neg hp] at h
    refine iff_of_false hp ?_
    rcases h with hzero | ⟨hnone, hout | ⟨a, ha, htype⟩⟩
    · rw [hzero]
      exact not_inWindow_zero hfits.base
    · exact hout
    · rw [← htype] at hnone ⊢
      exact hfits.types a ha hnone

/-- Every clean pointer of a message is emitted with the address of what it points to. -/
theorem Message.logged_pointer {blocks : List (List Word)} {n : Nat} {log : List Emission}
    (hmessage : Message heap ctx lay obj cur blocks n log) {a b : Alloc} {s : Word} (ha : a ∈ cur)
    (hs : s ∈ a.data) (hclean : ¬ InWindow ctx.base s)
    (hfind : heap.findAllocationRecord s = some b) :
    ∃ r, startOf (lay ++ cur) b.addr = some r ∧
      ⟨true, s - b.addr + vaddr ctx.base r⟩ ∈ ctx.emitted ++ log := by
  obtain ⟨word, hstands, hmem⟩ := hmessage.logged a ha s hs hclean
  rw [Stands, hfind] at hstands
  rw [hfind] at hmem
  obtain ⟨r, hr, rfl⟩ := hstands
  exact ⟨r, hr, hmem⟩

/-- A fitting object keeps the layout within 65536 bytes. -/
theorem Fits.extent_le {blocks : List (List Word)} {n : Nat} {log : List Emission}
    (hfits : Fits heap ctx obj) (h : Laid ctx lay) (hsize : extent lay ≤ 65536)
    (hmessage : Message heap ctx lay obj cur blocks n log) : extent (lay ++ cur) ≤ 65536 := by
  have hsub : cur ⊆ awaited heap ctx obj := fun a ha => by
    obtain ⟨hmem, hawaits⟩ := hmessage.awaits a ha
    exact List.mem_filter.mpr ⟨hmem, by simpa using hawaits⟩
  have hle : extent cur ≤ extent (awaited heap ctx obj) :=
    Placement.total_le_of_subset hmessage.fresh.nodup hsub
  have hroom := hfits.room
  rw [offset_sub_base h hsize] at hroom
  simp only [extent, Placement.total_append] at hle hroom ⊢
  omega

/-- After any stream of fitting objects, every emission is marked right. -/
theorem Stream.invariant (h : Stream Fits heap ctx) :
    ∃ lay, Between heap ctx lay ∧ extent lay ≤ 65536 ∧ ∀ e ∈ ctx.emitted, Agrees ctx.base e := by
  induction h with
  | setup heap random => exact ⟨[], between_setup heap random, by simp, by simp [marshalSetup]⟩
  | change _ hext ih =>
    obtain ⟨lay, hbetween, hsize, hall⟩ := ih
    exact ⟨lay, hbetween.extends hext, hsize, hall⟩
  | @write heap ctx ctx' obj beyond b _ hobj hfits hcall ih =>
    obtain ⟨lay, hbetween, hsize, hall⟩ := ih
    rcases internalMarshal_cases hbetween hobj hcall with
      rfl | ⟨cur, blocks, n, log, hmessage, hnext, hbase, hemitted⟩
    · exact ⟨lay, hbetween, hsize, hall⟩
    · have hsize' := hfits.extent_le hbetween.laid hsize hmessage
      refine ⟨lay ++ cur, hnext, hsize', ?_⟩
      rintro e he
      rw [hbase]
      rw [hemitted] at he
      rcases List.mem_append.mp he with he | he
      · exact hall e he
      · exact (hmessage.emitted e he).agrees hfits hbetween.aligned hsize' hnext.held

/-- **The two sides agree on the pointers** in every state of a stream whose messages keep the
records within the first 64 KiB of the virtual heap. -/
theorem pointers_agree (h : Stream Fits heap ctx) : ∀ e ∈ ctx.emitted, Agrees ctx.base e := by
  obtain ⟨lay, -, -, hall⟩ := h.invariant
  exact hall

/-- Only allocations of the heap await a record. -/
theorem Awaits.mem (hobj : obj ∈ heap.allocs) {a : Alloc} (h : Awaits heap ctx obj a) :
    a ∈ heap.allocs := by
  cases h with
  | root => exact hobj
  | step _ hpoints _ =>
    obtain ⟨p, -, hfind⟩ := hpoints
    exact Heap.mem_of_find hfind

def loopAlloc : Alloc :=
  ⟨0x10000, 0, true, true, (0, 0), [0x10030, 7], by decide⟩

/-- The heap of `loopAlloc`. -/
def loopHeap : Heap where
  allocs := [loopAlloc]
  apart := by simp
  addressable := by decide

theorem fits_loop : Fits loopHeap (marshalSetup 0x7fff12345678) loopAlloc where
  base := by decide
  room := by
    have hsub : (awaited loopHeap (marshalSetup 0x7fff12345678) loopAlloc).Sublist
        loopHeap.allocs := List.filter_sublist
    have hle : extent (awaited loopHeap (marshalSetup 0x7fff12345678) loopAlloc) ≤
        extent loopHeap.allocs :=
      Placement.total_le_of_subset (loopHeap.nodup.sublist hsub) hsub.subset
    have hall : extent loopHeap.allocs = 64 := by decide
    have hstart : ((marshalSetup 0x7fff12345678).offset -
        (marshalSetup 0x7fff12345678).base).toNat = 0 := by decide
    omega
  types := by
    rintro a ha -
    obtain rfl := List.mem_singleton.mp (ha.mem (List.mem_singleton_self loopAlloc))
    decide

theorem pointers_agree_loop : ∃ ctx : PickleCtx, ctx.emitted.length = 3 ∧
    ∀ e ∈ ctx.emitted, Agrees ctx.base e := by
  have hcall : (internalMarshal loopHeap (fun _ => 0) (marshalSetup 0x7fff12345678)
      loopAlloc).map (fun r => r.2.emitted.length) = some 3 := by decide
  obtain ⟨⟨b, ctx⟩, hrun, hlen⟩ := Option.map_eq_some_iff.mp hcall
  exact ⟨ctx, hlen, pointers_agree
    (.write (.setup loopHeap 0x7fff12345678) (List.mem_singleton_self loopAlloc) fits_loop hrun)⟩

/-! ## Past the window -/

/-- More than 64 KiB of words, the first of which is a pointer. -/
def bigData : List Word :=
  0x20028 :: List.replicate 8200 0

theorem length_bigData : bigData.length = 8201 := by
  rw [bigData, List.length_cons, List.length_replicate]

theorem mem_bigData {s : Word} (h : s ∈ bigData) : s = 0x20028 ∨ s = 0 := by
  rw [bigData] at h
  rcases List.mem_cons.mp h with rfl | h
  · exact Or.inl rfl
  · exact Or.inr (List.eq_of_mem_replicate h)

/-- An allocation whose first word points 65576 bytes into it. -/
def bigAlloc : Alloc :=
  ⟨0x10000, 0, true, true, (0, 0), bigData, by rw [length_bigData]; decide⟩

theorem allocLen_bigAlloc : bigAlloc.allocLen = 65656 := by
  rw [Alloc.allocLen, show bigAlloc.data = bigData from rfl, length_bigData]

/-- The heap of `bigAlloc`. -/
def bigHeap : Heap where
  allocs := [bigAlloc]
  apart := List.pairwise_singleton _ _
  addressable := by
    rw [Placement.total_cons, allocLen_bigAlloc]
    decide

theorem find_bigAlloc : bigHeap.findAllocationRecord 0x20028 = some bigAlloc := by
  have hcovers : bigAlloc.Covers 0x20028 := by
    rw [Alloc.Covers, allocLen_bigAlloc]
    exact ⟨by decide, by decide⟩
  rw [Heap.findAllocationRecord, if_neg (by decide), bigHeap, List.find?_cons_of_pos]
  exact decide_eq_true hcovers

theorem clean_bigData {s : Word} (h : s ∈ bigData) :
    ¬ InWindow (marshalSetup 0x7fff12345678).base s := by
  rcases mem_bigData h with rfl | rfl
  · decide
  · decide

theorem first_mem_bigData : 0x20028 ∈ bigData := by
  rw [bigData]
  exact List.mem_cons_self

/-- Marshalling the large object emits a pointer past the window of its base. -/
theorem internalMarshal_bigAlloc : ∃ b ctx,
    internalMarshal bigHeap (fun _ => 0) (marshalSetup 0x7fff12345678) bigAlloc = some (b, ctx) ∧
      ctx.base = (marshalSetup 0x7fff12345678).base ∧
      (⟨true, 0x20028 - 0x10000 + vaddr (marshalSetup 0x7fff12345678).base 0⟩ : Emission) ∈
        ctx.emitted := by
  have hnone : startOf [] bigAlloc.addr = none := rfl
  have hextent : extent bigHeap.allocs = 65656 := by
    rw [extent, bigHeap, Placement.total_cons, Placement.total_nil, allocLen_bigAlloc]
  obtain ⟨cur, blocks, n, log, hmessage, -, hsmall⟩ | ⟨-, a, ha, hlarge⟩ := internalMarshal_new
    (fun _ => 0) (between_setup bigHeap 0x7fff12345678) (List.mem_singleton_self bigAlloc) hnone
  swap
  · obtain rfl := List.mem_singleton.mp (ha.mem (List.mem_singleton_self bigAlloc))
    exact absurd (recordFits_of_extent (show extent bigHeap.allocs < _ by omega)) hlarge
  have hn : n = 0 := by
    refine hmessage.patches.mpr ?_
    rintro a ha s hs
    obtain rfl := List.mem_singleton.mp (hmessage.awaits a ha).1
    exact clean_bigData hs
  subst hn
  have hle : extent cur ≤ extent bigHeap.allocs :=
    Placement.total_le_of_subset hmessage.fresh.nodup fun a ha => (hmessage.awaits a ha).1
  obtain ⟨tail, ctx, -, hcall, -, hbase, -, hemitted⟩ := hsmall
    (sendable_of_extent _ (by omega))
  obtain ⟨rest, rfl⟩ := List.head?_eq_some_iff.mp hmessage.first
  obtain ⟨r, hr, hmem⟩ := hmessage.logged_pointer List.mem_cons_self first_mem_bigData
    (clean_bigData first_mem_bigData) find_bigAlloc
  rw [startOf, List.nil_append, Placement.place, if_pos rfl] at hr
  obtain rfl := Option.some.inj hr
  rw [← hemitted] at hmem
  exact ⟨_, ctx, hcall, hbase, hmem⟩

/-- The pointer is written as a virtual address that the decoder takes for a number. -/
theorem not_agrees_bigAlloc : ¬ ∀ heap ctx, Stream (fun _ _ _ => True) heap ctx →
    ∀ e ∈ ctx.emitted, Agrees ctx.base e := by
  intro hall
  obtain ⟨b, ctx, hcall, hbase, hmem⟩ := internalMarshal_bigAlloc
  have hagrees := hall bigHeap ctx
    (.write (.setup bigHeap 0x7fff12345678) (List.mem_singleton_self bigAlloc) trivial hcall)
    _ hmem
  rw [Agrees, hbase] at hagrees
  exact absurd (hagrees.mp rfl) (by decide)

end N00b.Marshal
