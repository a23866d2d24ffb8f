import Mathlib
import N00b.Marshal.Chunks

/-!
# Opening records

What `get_write_record` and `translate_pointer` do to a stream. The allocations of a stream are laid
out one after another in its virtual heap; `lay` lists them in that order. A call opens the records
of some allocations that had none, at the end of the layout, and puts them on the work list; or it
comes to an allocation that no local heap has room for, and ends there.

## Main results

* `Fresh.nodup`, `unwritten_append`: an allocation is opened once.
-/

namespace N00b.Marshal

open Lib

/-! ## The virtual heap -/

/-- Where an allocation stands in the virtual heap, counted from the base. -/
abbrev startOf (lay : List Alloc) (addr : Word) : Option Nat :=
  Placement.place Alloc.addr Alloc.allocLen lay addr

/-- The size of the virtual heap so far. -/
abbrev extent (lay : List Alloc) : Nat :=
  Placement.total Alloc.allocLen lay

/-- The virtual address `r` bytes from the base. -/
def vaddr (base : Word) (r : Nat) : Word :=
  base + BitVec.ofNat 64 r

/-- The word that stands for the source word `s` in the stream: the virtual address of the place it
points to, or `s` itself. -/
def Stands (heap : Heap) (base : Word) (lay : List Alloc) (s word : Word) : Prop :=
  match heap.findAllocationRecord s with
  | none => word = s
  | some b => ∃ r, startOf lay b.addr = some r ∧ word = s - b.addr + vaddr base r

/-- The memo table and the next offset describe the layout. -/
structure Laid (ctx : PickleCtx) (lay : List Alloc) : Prop where
  memo : ∀ k, ctx.memos.lookup k = (startOf lay k).map (vaddr ctx.base)
  offset : ctx.offset = vaddr ctx.base (extent lay)

/-- The state between two records. -/
structure Ready (ctx : PickleCtx) (lay : List Alloc) : Prop where
  laid : Laid ctx lay
  chunked : Chunked ctx
  sync : InSync ctx

/-- A record whose data is still to come. -/
def Blank (heap : Heap) (base : Word) (lay : List Alloc) (a : Alloc) (block : List Word) : Prop :=
  ∃ type, Stands heap base lay a.type type ∧
    block = (newHeader a type).words ++ List.replicate a.data.length 0

/-- The work list items of new allocations, the first record of which has the index `n`. -/
def itemsFor (base : Word) : List Alloc → Nat → List Alloc → List WlItem
  | _, _, [] => []
  | lay, n, a :: new => ⟨a, n, vaddr base (extent lay)⟩ :: itemsFor base (lay ++ [a]) (n + 1) new

/-- The allocations have no record when they are opened. -/
def Fresh : List Alloc → List Alloc → Prop
  | _, [] => True
  | lay, a :: new => startOf lay a.addr = none ∧ Fresh (lay ++ [a]) new

/-- What an emitted word can be: the address of a place in a record, zero, or a word that is no
pointer; the last is outside the window unless it is a `type`. -/
def EmissionOk (heap : Heap) (base : Word) (S : Alloc → Prop) (lay : List Alloc) (e : Emission) :
    Prop :=
  if e.pointer then
    ∃ b r d, startOf lay b.addr = some r ∧ b ∈ heap.allocs ∧ d < b.allocLen ∧
      e.word = vaddr base (r + d)
  else
    e.word = 0 ∨ (heap.findAllocationRecord e.word = none ∧
      (¬ InWindow base e.word ∨ ∃ a, S a ∧ a.type = e.word))

/-- A word is followed from an allocation. -/
def Points (heap : Heap) (base : Word) (a b : Alloc) : Prop :=
  ∃ p, (p = a.type ∨ p ∈ a.data ∧ ¬ InWindow base p) ∧ heap.findAllocationRecord p = some b

/-- The step from one state of a stream to another that opens the records `new`. -/
structure Opened (heap : Heap) (S : Alloc → Prop) (lay new : List Alloc)
    (ctx ctx' : PickleCtx) : Prop where
  base : ctx'.base = ctx.base
  started : ctx'.started = ctx.started
  lastOffsetEnd : ctx'.lastOffsetEnd = ctx.lastOffsetEnd
  neededPatches : ctx'.neededPatches = ctx.neededPatches
  ready : Ready ctx' (lay ++ new)
  records : ∃ blocks, ctx'.records = ctx.records ++ blocks ∧
    List.Forall₂ (Blank heap ctx.base (lay ++ new)) new blocks
  fresh : Fresh lay new
  mem : ∀ a ∈ new, a ∈ heap.allocs ∧ S a
  small : ∀ a ∈ new, RecordFits a.allocLen
  emitted : ∃ log, ctx'.emitted = ctx.emitted ++ log ∧
    ∀ e ∈ log, EmissionOk heap ctx.base S (lay ++ new) e

/-- Some allocation is too long for a record. -/
def Oversized (S : Alloc → Prop) : Prop :=
  ∃ a, S a ∧ ¬ RecordFits a.allocLen

variable {heap : Heap} {S : Alloc → Prop} {lay lay₀ new : List Alloc} {ctx ctx' : PickleCtx}
  {base : Word}

/-! ## Layouts that grow -/

/-- An offset into a record is an offset of its virtual address. -/
theorem vaddr_add (base : Word) (r d : Nat) :
    vaddr base r + BitVec.ofNat 64 d = vaddr base (r + d) := by
  rw [vaddr, vaddr, BitVec.ofNat_add, BitVec.add_assoc]

/-- A word that stands for a source word does so in a longer layout. -/
theorem Stands.mono {s word : Word} (h : Stands heap base lay s word) (more : List Alloc) :
    Stands heap base (lay ++ more) s word := by
  unfold Stands at h ⊢
  cases hf : heap.findAllocationRecord s with
  | none => simpa [hf] using h
  | some b =>
    simp only [hf] at h ⊢
    obtain ⟨r, hr, hw⟩ := h
    exact ⟨r, Placement.place_mono hr more, hw⟩

/-- A sound emission stays sound in a longer layout. -/
theorem EmissionOk.mono {e : Emission} (h : EmissionOk heap base S lay e) (more : List Alloc) :
    EmissionOk heap base S (lay ++ more) e := by
  unfold EmissionOk at h ⊢
  by_cases hp : e.pointer
  · rw [if_pos hp] at h ⊢
    obtain ⟨b, r, d, hr, hb⟩ := h
    exact ⟨b, r, d, Placement.place_mono hr more, hb⟩
  · rw [if_neg hp] at h ⊢
    exact h

/-- Two lists of new allocations are fresh in a row iff each is fresh after what is before it. -/
theorem fresh_append : Fresh lay (new ++ more) ↔ Fresh lay new ∧ Fresh (lay ++ new) more := by
  induction new generalizing lay with
  | nil => simp [Fresh]
  | cons a new ih => simp [Fresh, ih, and_assoc]

/-- A fresh allocation has no record yet. -/
theorem Fresh.start_eq_none (h : Fresh lay new) {a : Alloc} (ha : a ∈ new) :
    startOf lay a.addr = none := by
  induction new generalizing lay with
  | nil => simp at ha
  | cons b new ih =>
    rcases List.mem_cons.mp ha with rfl | ha
    · exact h.1
    · have hnone := ih h.2 ha
      rw [startOf, Placement.place_eq_none] at hnone ⊢
      exact fun c hc => hnone c (List.mem_append_left _ hc)

/-- Fresh allocations are distinct. -/
theorem Fresh.nodup (h : Fresh lay new) : new.Nodup := by
  induction new generalizing lay with
  | nil => exact List.nodup_nil
  | cons a new ih =>
    refine List.nodup_cons.mpr ⟨?_, ih h.2⟩
    intro ha
    have hnone := h.2.start_eq_none ha
    rw [startOf, Placement.place_concat h.1] at hnone
    cases hnone

/-! ## How many records are left to open -/

/-- The number of allocations of the heap without a record. -/
def unwritten (heap : Heap) (lay : List Alloc) : Nat :=
  (heap.allocs.filter fun a => (startOf lay a.addr).isNone).length

theorem unwritten_le (heap : Heap) (lay : List Alloc) :
    unwritten heap lay ≤ heap.allocs.length :=
  List.length_filter_le _ _

/-- Laying out one more allocation leaves fewer to write. -/
theorem unwritten_concat {a : Alloc} (ha : a ∈ heap.allocs) (h : startOf lay a.addr = none) :
    unwritten heap (lay ++ [a]) < unwritten heap lay := by
  have hfilter : (heap.allocs.filter fun b => (startOf (lay ++ [a]) b.addr).isNone) =
      (heap.allocs.filter fun b => (startOf lay b.addr).isNone).filter (fun b => b.addr ≠ a.addr) := by
    rw [List.filter_filter]
    refine List.filter_congr fun b _ => ?_
    by_cases hb : a.addr = b.addr
    · rw [startOf, ← hb, Placement.place_concat h]
      simp
    · rw [startOf, Placement.place_concat_of_ne hb]
      simp [Ne.symm hb]
  unfold unwritten
  rw [hfilter]
  exact List.length_filter_lt_length_iff_exists.mpr
    ⟨a, List.mem_filter.mpr ⟨ha, by simp [h]⟩, by simp⟩

/-- Laying fresh allocations out leaves that many fewer to write. -/
theorem unwritten_append (hmem : ∀ a ∈ new, a ∈ heap.allocs) (h : Fresh lay new) :
    unwritten heap (lay ++ new) + new.length ≤ unwritten heap lay := by
  induction new generalizing lay with
  | nil => simp
  | cons a new ih =>
    have hlt := unwritten_concat (hmem a List.mem_cons_self) h.1
    have hle := ih (fun b hb => hmem b (List.mem_cons_of_mem _ hb)) h.2
    rw [List.append_assoc] at hle
    rw [List.length_cons]
    simp only [List.singleton_append] at hle
    omega

/-! ## The calls -/

/-- Readiness reads only the lengths, the addresses and the open buffer of the context. -/
theorem Ready.of_lens (h : Ready ctx lay) (hlens : ctx'.lens = ctx.lens)
    (hmemos : ctx'.memos = ctx.memos) (hbase : ctx'.base = ctx.base)
    (hoffset : ctx'.offset = ctx.offset) (hheaps : ctx'.bufferedHeapInfo = ctx.bufferedHeapInfo)
    (hbuf : ctx'.currentOutputBuf = ctx.currentOutputBuf)
    (hstart : ctx'.lastOffsetEnd = ctx.lastOffsetEnd) : Ready ctx' lay where
  laid := ⟨by rw [hmemos, hbase]; exact h.laid.memo, by rw [hoffset, hbase]; exact h.laid.offset⟩
  chunked := h.chunked.of_lens hlens hheaps hbuf hstart
  sync := by
    have := h.sync
    rw [InSync] at this ⊢
    rw [hoffset, hstart, hlens, this]

/-- The state in which `get_write_record` calls `setup_new_header`: the record of `hdr` is laid out
and memoised, and its words are zero. -/
def laidOut (ctx : PickleCtx) (cb : Buf) (heaps : List (Buf × Word)) (hdr : Alloc) : PickleCtx :=
  { ctx with
    currentOutputBuf := some cb
    bufferedHeapInfo := heaps
    records := ctx.records ++ [List.replicate (hdr.allocLen / 8) 0]
    memos := dictPut ctx.memos hdr.addr ctx.offset
    offset := ctx.offset + BitVec.ofNat 64 hdr.allocLen }

/-- Opening a record keeps the context ready for the layout with that record. -/
theorem ready_laidOut {cb : Buf} {heaps : List (Buf × Word)} {hdr : Alloc} (h : Ready ctx lay)
    (hnone : startOf lay hdr.addr = none)
    (hchunked : Chunked { ctx with
      currentOutputBuf := some cb
      bufferedHeapInfo := heaps
      records := ctx.records ++ [List.replicate (hdr.allocLen / 8) 0] }) :
    Ready (laidOut ctx cb heaps hdr) (lay ++ [hdr]) where
  laid := by
    constructor
    · intro k
      rw [laidOut, lookup_dictPut, h.laid.offset]
      by_cases hk : k = hdr.addr
      · rw [if_pos hk, hk, startOf, Placement.place_concat hnone]
        rfl
      · rw [if_neg hk, startOf, Placement.place_concat_of_ne (Ne.symm hk)]
        exact h.laid.memo k
    · simp only [laidOut, h.laid.offset, vaddr_add, Placement.total_append, Placement.total_cons,
        Placement.total_nil, Nat.add_zero]
  chunked := hchunked.of_lens rfl rfl rfl rfl
  sync := by
    have hlens : (laidOut ctx cb heaps hdr).lens.sum = ctx.lens.sum + hdr.allocLen / 8 := by
      simp [laidOut, PickleCtx.lens]
    have h8 : 8 * (hdr.allocLen / 8) = hdr.allocLen := by
      simp only [Alloc.allocLen, headerLen]
      omega
    rw [InSync, hlens]
    show ctx.offset + _ = ctx.lastOffsetEnd + _
    rw [h.sync, Nat.mul_add, h8, BitVec.ofNat_add, BitVec.add_assoc]

/-- What a call of `get_write_record` on an allocation without a record does at a depth. -/
def WritesAt (heap : Heap) (base : Word) (S : Alloc → Prop) (lay₀ : List Alloc) (depth : Nat) :
    Prop :=
  ∀ (ctx : PickleCtx) (lay : List Alloc) (hdr : Alloc), ctx.base = base → lay₀ <+: lay →
    Ready ctx lay → unwritten heap lay < depth → hdr ∈ heap.allocs → S hdr →
    startOf lay hdr.addr = none →
    (∃ rest ctx', getWriteRecord heap depth ctx hdr =
        some (vaddr base (extent lay), some ctx.records.length, ctx') ∧
      Opened heap S lay (hdr :: rest) ctx ctx' ∧
      ctx'.wl = itemsFor base (lay ++ [hdr]) (ctx.records.length + 1) rest ++ ctx.wl) ∨
    getWriteRecord heap depth ctx hdr = none ∧ Oversized S

/-- A second visit of an allocation finds the address of its record. -/
theorem getWriteRecord_found {depth : Nat} {hdr : Alloc} {r : Nat} (h : Ready ctx lay)
    (hr : startOf lay hdr.addr = some r) :
    getWriteRecord heap (depth + 1) ctx hdr = some (vaddr ctx.base r, none, ctx) := by
  have hmemo := h.laid.memo hdr.addr
  rw [hr, Option.map_some] at hmemo
  rw [getWriteRecord, hmemo]

/-- Every allocation that is reached from one in `S` and had no record at first is in `S`. -/
def Closed (heap : Heap) (base : Word) (lay₀ : List Alloc) (S : Alloc → Prop) : Prop :=
  ∀ a b, S a → Points heap base a b → startOf lay₀ b.addr = none → S b

/-- An allocation without a record has none in a shorter layout. -/
theorem start_eq_none_before (hpre : lay₀ <+: lay) {k : Word} (h : startOf lay k = none) :
    startOf lay₀ k = none := by
  obtain ⟨more, rfl⟩ := hpre
  rw [startOf, Placement.place_eq_none] at h ⊢
  exact fun a ha => h a (List.mem_append_left _ ha)

/-- Emitting one sound word opens no record. -/
theorem opened_emit (hready : Ready ctx lay) {pointer : Bool} {word : Word}
    (hok : EmissionOk heap ctx.base S lay ⟨pointer, word⟩) :
    Opened heap S lay [] ctx (ctx.emit pointer word) where
  base := rfl
  started := rfl
  lastOffsetEnd := rfl
  neededPatches := rfl
  ready := by
    rw [List.append_nil]
    exact hready.of_lens rfl rfl rfl rfl rfl rfl rfl
  records := ⟨[], by simp [PickleCtx.emit], List.Forall₂.nil⟩
  fresh := trivial
  mem := by simp
  small := by simp
  emitted := by
    refine ⟨[⟨pointer, word⟩], rfl, ?_⟩
    rintro e he
    rw [List.mem_singleton.mp he, List.append_nil]
    exact hok

/-- A sound word may be emitted after any opening. -/
theorem Opened.emit (h : Opened heap S lay new ctx ctx') {pointer : Bool} {word : Word}
    (hok : EmissionOk heap ctx.base S (lay ++ new) ⟨pointer, word⟩) :
    Opened heap S lay new ctx (ctx'.emit pointer word) where
  base := h.base
  started := h.started
  lastOffsetEnd := h.lastOffsetEnd
  neededPatches := h.neededPatches
  ready := h.ready.of_lens rfl rfl rfl rfl rfl rfl rfl
  records := h.records
  fresh := h.fresh
  mem := h.mem
  small := h.small
  emitted := by
    obtain ⟨log, hlog, hall⟩ := h.emitted
    refine ⟨log ++ [⟨pointer, word⟩], by simp [PickleCtx.emit, hlog], ?_⟩
    rintro e he
    rcases List.mem_append.mp he with he | he
    · exact hall e he
    · rw [List.mem_singleton.mp he]
      exact hok

/-- A pointer into an allocation translates to the same offset into its record. -/
theorem displacement (base : Word) {p : Word} {b : Alloc} (h : heap.findAllocationRecord p = some b) :
    ∃ d, d < b.allocLen ∧ ∀ r, p - b.addr + vaddr base r = vaddr base (r + d) := by
  obtain ⟨hle, hlt⟩ := Heap.covers_of_find h
  refine ⟨(p - b.addr).toNat, ?_, ?_⟩
  · rw [BitVec.toNat_sub]
    have := b.addr.isLt
    have := p.isLt
    omega
  · intro r
    rw [← vaddr_add, BitVec.ofNat_toNat, BitVec.setWidth_eq, BitVec.add_comm]

/-- A translated pointer stands for its source, and the records it opens are sound. -/
theorem translateWith_spec {depth : Nat} (hwrites : WritesAt heap base S lay₀ depth)
    (hbase : ctx.base = base) (hpre : lay₀ <+: lay) (hready : Ready ctx lay)
    (hdepth : unwritten heap lay < depth) {p : Word}
    (hp : ∀ b, heap.findAllocationRecord p = some b → startOf lay b.addr = none → S b)
    (hkind : ¬ InWindow base p ∨ ∃ a, S a ∧ a.type = p) :
    (∃ new ctx' word,
      translateWith heap (getWriteRecord heap depth) ctx p = some (word, ctx') ∧
      Opened heap S lay new ctx ctx' ∧
      ctx'.wl = itemsFor base lay ctx.records.length new ++ ctx.wl ∧
      Stands heap base (lay ++ new) p word ∧
      ⟨(heap.findAllocationRecord p).isSome, word⟩ ∈ ctx'.emitted) ∨
    translateWith heap (getWriteRecord heap depth) ctx p = none ∧ Oversized S := by
  subst hbase
  cases hfind : heap.findAllocationRecord p with
  | none =>
    exact Or.inl ⟨[], ctx.emit false p, p, by simp [translateWith, hfind],
      opened_emit hready (by simp [EmissionOk, hfind, hkind]), rfl, by simp [Stands, hfind],
      by simp [PickleCtx.emit]⟩
  | some b =>
    have hb := Heap.mem_of_find hfind
    obtain ⟨d, hd, hword⟩ := displacement ctx.base hfind
    -- the word that is emitted when the record of `b` starts at `r`
    have hok : ∀ {l : List Alloc} {r : Nat}, startOf l b.addr = some r →
        EmissionOk heap ctx.base S l ⟨true, p - b.addr + vaddr ctx.base r⟩ := by
      intro l r hr
      rw [hword r]
      exact ⟨b, r, d, hr, hb, hd, rfl⟩
    cases hstart : startOf lay b.addr with
    | some r =>
      obtain ⟨n, rfl⟩ : ∃ n, depth = n + 1 := ⟨depth - 1, by omega⟩
      exact Or.inl ⟨[], ctx.emit true (p - b.addr + vaddr ctx.base r),
        p - b.addr + vaddr ctx.base r, by simp [translateWith, hfind, getWriteRecord_found hready hstart],
        opened_emit hready (hok hstart), rfl, by simpa [Stands, hfind] using ⟨r, hstart, rfl⟩,
        by simp [PickleCtx.emit]⟩
    | none =>
      obtain ⟨rest, c, hcall, hopen, hwl⟩ | ⟨hcall, hlarge⟩ := hwrites ctx lay b rfl hpre hready
        hdepth hb (hp b hfind hstart) hstart
      swap
      · exact Or.inr ⟨by simp [translateWith, hfind, hcall], hlarge⟩
      have hplace : startOf (lay ++ b :: rest) b.addr = some (extent lay) :=
        Placement.place_of_split (Placement.place_eq_none.mp hstart)
      have hqueued : Opened heap S lay (b :: rest) ctx
          (c.enqueueWriteRecord b ctx.records.length (vaddr ctx.base (extent lay))) :=
        { hopen with ready := hopen.ready.of_lens rfl rfl rfl rfl rfl rfl rfl }
      exact Or.inl ⟨b :: rest, _, p - b.addr + vaddr ctx.base (extent lay),
        by simp [translateWith, hfind, hcall], hqueued.emit (hok hplace),
        by simp [PickleCtx.emit, PickleCtx.enqueueWriteRecord, hwl, itemsFor],
        by simpa [Stands, hfind] using ⟨extent lay, hplace, rfl⟩, by simp [PickleCtx.emit]⟩

/-- Changing the record just opened leaves those before and after it. -/
theorem modify_new_record (records blocks : List (List Word)) (block : List Word)
    (f : List Word → List Word) :
    (records ++ [block] ++ blocks).modify records.length f = records ++ [f block] ++ blocks := by
  induction records with
  | nil => rfl
  | cons r records ih => simpa using ih

/-- The record of an allocation, its type and what the type opened are one opening. -/
theorem opened_header {cb : Buf} {heaps : List (Buf × Word)} {hdr : Alloc} {rest : List Alloc}
    {type : Word} (hmem : hdr ∈ heap.allocs) (hS : S hdr) (hfits : RecordFits hdr.allocLen)
    (hnone : startOf lay hdr.addr = none)
    (h : Opened heap S (lay ++ [hdr]) rest (laidOut ctx cb heaps hdr) ctx')
    (htype : Stands heap ctx.base (lay ++ [hdr] ++ rest) hdr.type type) :
    Opened heap S lay (hdr :: rest) ctx
      (ctx'.writeHeader ctx.records.length (newHeader hdr type)) := by
  have hlay : lay ++ [hdr] ++ rest = lay ++ hdr :: rest := by simp
  obtain ⟨blocks, hblocks, hblank⟩ := h.records
  have hrecords : ctx'.records = ctx.records ++ [List.replicate (hdr.allocLen / 8) 0] ++ blocks :=
    hblocks
  have hzeros : (List.replicate (hdr.allocLen / 8) (0 : Word)).drop 6 =
      List.replicate hdr.data.length 0 := by
    rw [List.drop_replicate, Alloc.allocLen_div, Nat.add_sub_cancel_left]
  have hlens : (ctx'.writeHeader ctx.records.length (newHeader hdr type)).lens = ctx'.lens := by
    refine PickleCtx.lens_writeHeader _ fun block hblock => ?_
    simp only [hrecords, List.append_assoc, List.singleton_append,
      List.getElem?_append_right (le_refl _), Nat.sub_self, List.getElem?_cons_zero,
      Option.some.injEq] at hblock
    simp [← hblock, Alloc.allocLen_div]
  rw [hlay] at htype hblank
  exact
    { base := h.base
      started := h.started
      lastOffsetEnd := h.lastOffsetEnd
      neededPatches := h.neededPatches
      ready := hlay ▸ h.ready.of_lens hlens rfl rfl rfl rfl rfl rfl
      records := by
        refine ⟨((newHeader hdr type).words ++ List.replicate hdr.data.length 0) :: blocks, ?_,
          .cons ⟨type, htype, rfl⟩ hblank⟩
        rw [PickleCtx.writeHeader, hrecords, modify_new_record, hzeros]
        simp
      fresh := ⟨hnone, h.fresh⟩
      mem := by
        rintro a ha
        rcases List.mem_cons.mp ha with rfl | ha
        · exact ⟨hmem, hS⟩
        · exact h.mem a ha
      small := by
        rintro a ha
        rcases List.mem_cons.mp ha with rfl | ha
        · exact hfits
        · exact h.small a ha
      emitted := hlay ▸ h.emitted }

/-- Writing a record opens it and the records its type needs, or fails where one is too large. -/
theorem getWriteRecord_spec (hclosed : Closed heap base lay₀ S) :
    ∀ depth, WritesAt heap base S lay₀ depth := by
  intro depth
  induction depth with
  | zero =>
    rintro ctx lay hdr - - - hlt
    omega
  | succ depth ih =>
    rintro ctx lay hdr hbase hpre hready hlt hmem hS hnone
    have hmemo : ctx.memos.lookup hdr.addr = none := by
      rw [hready.laid.memo, hnone, Option.map_none]
    by_cases hfits : RecordFits hdr.allocLen
    swap
    · right
      refine ⟨?_, hdr, hS, hfits⟩
      rw [getWriteRecord, hmemo]
      simp only [openRecord_none hfits, Option.bind_eq_bind, Option.bind_none]
    obtain ⟨cb, heaps, halloc, -, hchunked⟩ := openRecord_spec hready.chunked hready.sync hfits
    have hlt₁ : unwritten heap (lay ++ [hdr]) < depth := by
      have := unwritten_concat hmem hnone
      omega
    have hpre₁ : lay₀ <+: lay ++ [hdr] := hpre.trans (List.prefix_append _ _)
    have htarget : ∀ b, heap.findAllocationRecord hdr.type = some b →
        startOf (lay ++ [hdr]) b.addr = none → S b := fun b hb hstart =>
      hclosed hdr b hS ⟨hdr.type, Or.inl rfl, hb⟩ (start_eq_none_before hpre₁ hstart)
    obtain ⟨rest, ctx₂, type, htrans, hopen, hwl, hstands, -⟩ | ⟨htrans, hlarge⟩ :=
      translateWith_spec ih (show (laidOut ctx cb heaps hdr).base = base from hbase) hpre₁
        (ready_laidOut hready hnone hchunked) hlt₁ htarget (Or.inr ⟨hdr, hS, rfl⟩)
    swap
    · right
      refine ⟨?_, hlarge⟩
      rw [getWriteRecord, hmemo]
      simp only [laidOut] at htrans
      simp only [halloc, htrans, Option.bind_eq_bind, Option.bind_some, Option.bind_none]
    left
    refine ⟨rest, ctx₂.writeHeader ctx.records.length (newHeader hdr type), ?_, ?_, ?_⟩
    · rw [← hbase, ← hready.laid.offset, getWriteRecord, hmemo]
      simp only [laidOut] at htrans
      simp only [halloc, htrans, Option.bind_eq_bind, Option.bind_some]
    · exact opened_header hmem hS hfits hnone hopen (hbase.symm ▸ hstands)
    · simpa [PickleCtx.writeHeader, laidOut] using hwl

end N00b.Marshal
