import Mathlib
import N00b.Marshal.Queue

/-!
# Messages

`n00b_internal_marshal` as a whole: the records that a message opens, and the words it is made of.
A message is the preamble of the stream if it is the first, its records in the order of their
virtual offsets, the end record, and what `bundle_result` copies for the patches.

## Main results

* `internalMarshal_written`, `internalMarshal_new`: what a call of `n00b_internal_marshal` returns.
* `Message.complete`: the allocations of a message are those that are reached from its object and
  were not written before.
-/

namespace N00b.Marshal

open Lib

/-! ## The state between two messages -/

/-- Nothing of a message is left, and the allocations written before are still where they were. -/
structure Between (heap : Heap) (ctx : PickleCtx) (lay : List Alloc) : Prop where
  laid : Laid ctx lay
  neededPatches : ctx.neededPatches = []
  currentOutputBuf : ctx.currentOutputBuf = none
  bufferedHeapInfo : ctx.bufferedHeapInfo = []
  records : ctx.records = []
  wl : ctx.wl = []
  lastOffsetEnd : ctx.lastOffsetEnd = ctx.offset
  aligned : lsbErase ctx.base = ctx.base
  held : ∀ a ∈ lay, ∃ b ∈ heap.allocs, b.addr = a.addr ∧ b.allocLen = a.allocLen

/-- A context just set up is between two messages. -/
theorem between_setup (heap : Heap) (random : Word) : Between heap (marshalSetup random) [] where
  laid := ⟨fun _ => rfl, by simp [marshalSetup, vaddr]⟩
  neededPatches := rfl
  currentOutputBuf := rfl
  bufferedHeapInfo := rfl
  records := rfl
  wl := rfl
  lastOffsetEnd := rfl
  aligned := lsbErase_lsbErase random
  held := by simp

/-- The allocations that a message for `obj` writes: those reached from it over allocations that
were not written before. -/
inductive Awaits (heap : Heap) (ctx : PickleCtx) (obj : Alloc) : Alloc → Prop where
  | root : ctx.memos.lookup obj.addr = none → Awaits heap ctx obj obj
  | step {a b : Alloc} : Awaits heap ctx obj a → Points heap ctx.base a b →
      ctx.memos.lookup b.addr = none → Awaits heap ctx obj b

variable {heap later : Heap} {S : Alloc → Prop} {ctx₀ ctx ctx' : PickleCtx} {base : Word}
  {lay prev cur new : List Alloc} {obj a : Alloc}

/-- An allocation without a memo has no record. -/
theorem Laid.memo_none (h : Laid ctx lay) {k : Word} :
    ctx.memos.lookup k = none ↔ startOf lay k = none := by
  rw [h.memo, Option.map_eq_none_iff]

/-- What awaits a record awaits it with all it points to. -/
theorem Awaits.closed (h : Laid ctx lay) : Closed heap ctx.base lay (Awaits heap ctx obj) :=
  fun _ _ ha hpoints hnone => .step ha hpoints (h.memo_none.mpr hnone)

/-! ## The end record -/

/-- The header of the end record of a message with `n` patches. -/
def endHeader (n : Nat) : RecordHdr :=
  { guard := marshalRecordGuard, type := 0, allocFile := 0, allocLen := n * 16,
    allocLine := recordLine, marshalEnd := true, ptrScan := n ≠ 0, obj := false,
    cachedHash := (0, 0) }

/-- The size of the allocation behind the end record. -/
def endLen (n : Nat) : Nat :=
  if n = 0 then 64 else headerLen + 16 * n

/-- An end record that is too large is not made. -/
theorem createObjectEndRecord_none (h : ¬ RecordFits (endLen ctx.neededPatches.length)) :
    createObjectEndRecord ctx = none := by
  rw [endLen] at h
  simp only [createObjectEndRecord, openRecord_none h, Option.bind_eq_bind, Option.bind_none]

/-- The state after `create_object_end_record`. -/
def ended (ctx : PickleCtx) (cb : Buf) (heaps : List (Buf × Word)) (own : List Word) : PickleCtx :=
  { ctx with
    currentOutputBuf := some cb
    bufferedHeapInfo := heaps
    records := ctx.records ++ [(endHeader ctx.neededPatches.length).words ++ own]
    neededPatches := [] }

/-- An end record that fits is the last record of the message. -/
theorem createObjectEndRecord_spec (hchunked : Chunked ctx) (hsync : InSync ctx)
    (h : RecordFits (endLen ctx.neededPatches.length)) :
    ∃ cb heaps own ids,
      createObjectEndRecord ctx = some (ctx.records.length, ended ctx cb heaps own) ∧
      cb.records = ids ++ [ctx.records.length] ∧ Chunked (ended ctx cb heaps own) := by
  unfold ended
  obtain ⟨cb, heaps, halloc, ⟨ids, hids⟩, hopened⟩ :=
    openRecord_spec hchunked hsync h
  generalize hn : ctx.neededPatches.length = n at h halloc hopened ⊢
  have hlong : (patchWords ctx.neededPatches).length = 2 * n := by
    simp [patchWords, List.length_flatMap, ← hn, Nat.mul_comm]
  -- the words of the record behind its header
  obtain ⟨own, hown, hlen⟩ : ∃ own : List Word, own = (patchWords ctx.neededPatches).take n ++
      (List.replicate (endLen n / 8 - 6) 0).drop n ∧ own.length + 6 = endLen n / 8 := by
    refine ⟨_, rfl, ?_⟩
    simp only [List.length_append, List.length_take, hlong, List.length_drop, List.length_replicate]
    unfold endLen headerLen
    split <;> omega
  refine ⟨cb, heaps, own, ids, ?_, hids, ?_⟩
  · unfold createObjectEndRecord
    rw [endLen] at halloc
    simp only [hn, halloc, Option.bind_eq_bind, Option.bind_some, PickleCtx.writeHeader]
    have hmodify := fun r : List Word => modify_new_record ctx.records [] r
    simp only [List.append_nil] at hmodify
    have hsplit : ∀ zeros patches : List Word,
        ((endHeader n).words ++ zeros).take 6 ++ patches ++
          ((endHeader n).words ++ zeros).drop (6 + n) =
        (endHeader n).words ++ (patches ++ zeros.drop n) := by
      intro zeros patches
      rw [List.take_left' (RecordHdr.length_words _), List.append_assoc, ← List.drop_drop,
        List.drop_left' (RecordHdr.length_words _)]
    rw [hmodify, hmodify, hown, endLen]
    simp only [Option.some.injEq, Prod.mk.injEq, PickleCtx.mk.injEq, List.append_cancel_left_eq,
      List.cons.injEq, and_true, true_and]
    rw [← List.drop_replicate]
    exact hsplit _ _
  · refine hopened.of_lens ?_ rfl rfl rfl
    simp [PickleCtx.lens, RecordHdr.length_words, ← hlen, Nat.add_comm]

/-! ## Bundling -/

/-- The words before the first message of a stream. -/
def preamble (ctx : PickleCtx) : List Word :=
  if ctx.started then [] else [marshalMagic, ctx.base]

/-- The length of a message with the records of `cur` and `n` patches. -/
def messageLen (ctx : PickleCtx) (cur : List Alloc) (n : Nat) : Nat :=
  extent cur + headerLen + 8 * (preamble ctx).length + 8 * (n * 16)

/-- The end record fits a local heap, and the whole message a buffer. -/
def Sendable (ctx : PickleCtx) (cur : List Alloc) (n : Nat) : Prop :=
  RecordFits (endLen n) ∧ messageLen ctx cur n < 2 ^ 31

/-- A message below 2^31 bytes without patches is sendable. -/
theorem sendable_of_extent (ctx : PickleCtx) (h : extent cur < 2 ^ 31 - 64) :
    Sendable ctx cur 0 := by
  refine ⟨by decide, ?_⟩
  have hpreamble : (preamble ctx).length ≤ 2 := by
    rw [preamble]
    split <;> simp
  rw [messageLen, headerLen]
  omega

/-- A record below 2^28 bytes fits a buffer. -/
theorem recordFits_of_extent (h : extent [a] < 2 ^ 28 - 16) : RecordFits a.allocLen := by
  rw [extent, Placement.total_cons, Placement.total_nil] at h
  rw [RecordFits, headerLen]
  omega

/-- The patches of an end record that fits are below 2^28 bytes. -/
theorem RecordFits.patches_lt {n : Nat} (h : RecordFits (endLen n)) : n * 16 < 2 ^ 28 := by
  unfold RecordFits endLen headerLen at h
  split at h <;> omega

/-- The words that `bundle_result` copies, as a sum of lengths. -/
theorem bundleResult_len {rs : List (List Word)} {own : List Word} {n : Nat}
    (hrecords : ctx.records = rs ++ [(endHeader n).words ++ own])
    (hoffset : ctx.offset = ctx.lastOffsetEnd + BitVec.ofNat 64 (8 * rs.flatten.length))
    (hbound : 8 * rs.flatten.length < 2 ^ 64) (hn : n * 16 < 2 ^ 28) :
    ctx.record rs.length = (endHeader n).words ++ own ∧
      allocLenOf ((endHeader n).words.getD 3 0) = n * 16 ∧
      (ctx.offset - ctx.lastOffsetEnd).toNat = 8 * rs.flatten.length := by
  refine ⟨by simp [PickleCtx.record, hrecords],
    allocLenOf_lengthWord (show n * 16 < 2 ^ 32 by omega) _ _ _ _, ?_⟩
  rw [hoffset, BitVec.add_comm, BitVec.add_sub_cancel, BitVec.toNat_ofNat, Nat.mod_eq_of_lt hbound]

/-- A message of 2^31 bytes or more is not bundled. -/
theorem bundleResult_none {rs : List (List Word)} {own : List Word} {n : Nat}
    (beyond : Nat → Word) (hrecords : ctx.records = rs ++ [(endHeader n).words ++ own])
    (hoffset : ctx.offset = ctx.lastOffsetEnd + BitVec.ofNat 64 (8 * rs.flatten.length))
    (hbound : 8 * rs.flatten.length < 2 ^ 64) (hn : n * 16 < 2 ^ 28)
    (hlarge : 2 ^ 31 ≤ 8 * rs.flatten.length + headerLen + 8 * (preamble ctx).length +
      8 * (n * 16)) :
    bundleResult beyond ctx rs.length = none := by
  obtain ⟨hrec, hlen, hdiff⟩ := bundleResult_len hrecords hoffset hbound hn
  have htake : ((endHeader n).words ++ own).take 6 = (endHeader n).words := List.take_left' rfl
  rw [preamble] at hlarge
  simp only [bundleResult, hrec, htake, hlen, hdiff, ge_iff_le, hlarge, if_true]

/-- A message below 2^31 bytes is bundled into its records, the end record and what lies behind the
patches. -/
theorem bundleResult_spec {cb : Buf} {ids : List Nat} {rs : List (List Word)} {own : List Word}
    {n : Nat} (beyond : Nat → Word) (h : Chunked ctx) (hbuf : ctx.currentOutputBuf = some cb)
    (hids : cb.records = ids ++ [rs.length])
    (hrecords : ctx.records = rs ++ [(endHeader n).words ++ own])
    (hoffset : ctx.offset = ctx.lastOffsetEnd + BitVec.ofNat 64 (8 * rs.flatten.length))
    (hbound : 8 * rs.flatten.length < 2 ^ 64) (hn : n * 16 < 2 ^ 28)
    (hsmall : 8 * rs.flatten.length + headerLen + 8 * (preamble ctx).length + 8 * (n * 16) <
      2 ^ 31) :
    ∃ tail : List Word, tail.length = n * 16 ∧ bundleResult beyond ctx rs.length =
      some (preamble ctx ++ rs.flatten ++ (endHeader n).words ++ tail,
        { ctx with
          lastOffsetEnd := ctx.offset, started := true, bufferedHeapInfo := [],
          currentOutputBuf := none, records := [] }) := by
  obtain ⟨hrec, hlen, hdiff⟩ := bundleResult_len hrecords hoffset hbound hn
  have hcopied := copied_eq h hbuf hids hrecords hoffset hbound
  refine ⟨(own ++ (List.range (n * 16)).map beyond).take (n * 16), ?_, ?_⟩
  · simp
  · have htake : ((endHeader n).words ++ own).take 6 = (endHeader n).words :=
      List.take_left' rfl
    have hdrop : ((endHeader n).words ++ own).drop 6 = own := List.drop_left' rfl
    rw [← hcopied]
    rw [preamble] at hsmall ⊢
    simp only [bundleResult, hrec, htake, hdrop, hlen, hdiff, ge_iff_le, Nat.not_le.mpr hsmall,
      if_false, hbuf, Option.map_some, Option.getD_some, List.append_assoc]

/-! ## One message -/

/-- A message for `obj` after the messages `lay`: the allocations `cur` that it writes, their
records `blocks`, the number `n` of its patches and its part `log` of the log. -/
structure Message (heap : Heap) (ctx : PickleCtx) (lay : List Alloc) (obj : Alloc)
    (cur : List Alloc) (blocks : List (List Word)) (n : Nat) (log : List Emission) : Prop where
  first : cur.head? = some obj
  awaits : ∀ a ∈ cur, a ∈ heap.allocs ∧ Awaits heap ctx obj a
  blocks : List.Forall₂ (fun a block => Filled heap ctx.base (lay ++ cur) a a.data.length block)
    cur blocks
  fresh : Fresh lay cur
  small : ∀ a ∈ cur, RecordFits a.allocLen
  patches : n = 0 ↔ ∀ a ∈ cur, ∀ s ∈ a.data, ¬ InWindow ctx.base s
  emitted : ∀ e ∈ log, EmissionOk heap ctx.base (Awaits heap ctx obj) (lay ++ cur) e
  logged : ∀ a ∈ cur, ∀ s ∈ a.data, ¬ InWindow ctx.base s →
    ∃ word, Stands heap ctx.base (lay ++ cur) s word ∧
      ⟨(heap.findAllocationRecord s).isSome, word⟩ ∈ ctx.emitted ++ log

variable {blocks : List (List Word)}

/-- Every allocation of a message has its filled record there. -/
theorem Message.block_of_mem {n : Nat} {log : List Emission}
    (h : Message heap ctx lay obj cur blocks n log) {a : Alloc} (ha : a ∈ cur) :
    ∃ block ∈ blocks, Filled heap ctx.base (lay ++ cur) a a.data.length block := by
  obtain ⟨i, hi⟩ := List.getElem?_of_mem ha
  have hlt : i < blocks.length := h.blocks.length_eq ▸ (List.getElem?_eq_some_iff.mp hi).1
  exact ⟨blocks[i], List.getElem_mem hlt,
    forall₂_getElem? h.blocks hi (List.getElem?_eq_getElem hlt)⟩

/-- An object that was written already gives no message. -/
theorem internalMarshal_written {beyond : Nat → Word} {r : Nat} (h : Between heap ctx lay)
    (hr : startOf lay obj.addr = some r) :
    internalMarshal heap beyond ctx obj = some (none, ctx) := by
  have hmemo : ctx.memos.lookup obj.addr = some (vaddr ctx.base r) := by
    rw [h.laid.memo, hr, Option.map_some]
  simp [internalMarshal, getWriteRecord, hmemo]

/-- Between two messages the context is ready for a record. -/
theorem Between.ready (h : Between heap ctx lay) : Ready ctx lay where
  laid := h.laid
  chunked := ⟨by simp [h.bufferedHeapInfo, h.currentOutputBuf, h.records],
    by simp [h.bufferedHeapInfo, Ends], fun _ => h.bufferedHeapInfo⟩
  sync := by simp [InSync, h.lastOffsetEnd, PickleCtx.lens, h.records]

/-- After opening the object, no word of its message has been copied yet. -/
theorem progress_start (h : Between heap ctx lay) {rest : List Alloc}
    (hopen : Opened heap S lay (obj :: rest) ctx ctx')
    (hwl : ctx'.wl = itemsFor ctx.base (lay ++ [obj]) 1 rest) :
    Progress heap S ctx lay (obj :: rest) (fun _ => 0)
        (ctx'.enqueueWriteRecord obj 0 (vaddr ctx.base (extent lay))) ∧
      Pending (obj :: rest) (fun _ => 0)
        (ctx'.enqueueWriteRecord obj 0 (vaddr ctx.base (extent lay))).wl := by
  obtain ⟨blocks, hblocks, hblank⟩ := hopen.records
  rw [h.records, List.nil_append] at hblocks
  have hitems : (ctx'.enqueueWriteRecord obj 0 (vaddr ctx.base (extent lay))).wl =
      itemsFor ctx.base lay 0 (obj :: rest) := by
    rw [itemsFor, ← hwl]
    rfl
  have hstand : Stand (itemsFor ctx.base lay 0 (obj :: rest)) 0 (obj :: rest) := stand_itemsFor
  constructor
  · exact
      { base := hopen.base
        started := hopen.started
        lastOffsetEnd := hopen.lastOffsetEnd
        ready := hopen.ready.of_lens rfl rfl rfl rfl rfl rfl rfl
        count := by
          show ctx'.records.length = _
          rw [hblocks, hblank.length_eq]
        blocks := by
          rintro j a block ha hblock
          have hb : blocks[j]? = some block := hblocks ▸ hblock
          exact (forall₂_getElem? hblank ha hb).filled
        later := fun _ _ => rfl
        fresh := hopen.fresh
        mem := hopen.mem
        small := hopen.small
        patches := by
          show ctx'.neededPatches = [] ↔ _
          simp [hopen.neededPatches, h.neededPatches]
        emitted := hopen.emitted
        logged := by simp }
  · rw [hitems]
    refine ⟨?_, hstand.perm.nodup_iff.mpr (List.nodup_range' ..), fun _ _ => rfl, ?_⟩
    · rintro it hit
      have := hstand.src it hit
      rwa [Nat.sub_zero] at this
    · rintro j a ha hj
      refine absurd (hstand.perm.mem_iff.mpr (List.mem_range'_1.mpr ⟨Nat.zero_le j, ?_⟩)) hj
      have := (List.getElem?_eq_some_iff.mp ha).1
      omega

/-- A filled record has the length of its allocation. -/
theorem Filled.length {a : Alloc} {block : List Word}
    (h : Filled heap base lay a a.data.length block) : 8 * block.length = a.allocLen := by
  obtain ⟨type, words, -, hwords, rfl⟩ := h
  have := hwords.length_eq
  rw [List.take_length] at this
  simp only [List.length_append, RecordHdr.length_words, ← this, Nat.sub_self, List.replicate_zero,
    List.length_nil, Alloc.allocLen, headerLen]
  omega

/-- The filled records of a message have the extent of its allocations. -/
theorem flatten_length
    (h : List.Forall₂ (fun a block => Filled heap base lay a a.data.length block) cur blocks) :
    8 * blocks.flatten.length = extent cur := by
  induction h with
  | nil => rfl
  | cons hab _ ih =>
    rw [List.flatten_cons, List.length_append, Nat.mul_add, hab.length, ih]
    exact (Placement.total_cons _ _).symm

/-- When every word has been copied, every record is filled. -/
theorem Progress.filled {done : Nat → Nat} (h : Progress heap S ctx₀ prev cur done ctx)
    (hdone : ∀ j (a : Alloc), cur[j]? = some a → done j = a.data.length) :
    List.Forall₂ (fun a block => Filled heap ctx₀.base (prev ++ cur) a a.data.length block)
      cur ctx.records := by
  refine List.forall₂_iff_get.mpr ⟨h.count.symm, fun i hi hi' => ?_⟩
  have ha : cur[i]? = some cur[i] := List.getElem?_eq_getElem hi
  have := h.blocks i _ _ ha (List.getElem?_eq_getElem hi')
  rwa [hdone i _ ha] at this

/-- The queue that starts with the object is empty after one turn for each allocation. -/
theorem turns_le {rest : List Alloc} (hopen : Opened heap S lay (obj :: rest) ctx ctx')
    (hwl : ctx'.wl = itemsFor ctx.base (lay ++ [obj]) 1 rest) :
    (ctx'.enqueueWriteRecord obj 0 (vaddr ctx.base (extent lay))).wl.length +
      unwritten heap (lay ++ obj :: rest) ≤ heap.allocs.length + 1 := by
  have hroom : unwritten heap (lay ++ obj :: rest) + (obj :: rest).length ≤ unwritten heap lay :=
    unwritten_append (fun a ha => (hopen.mem a ha).1) hopen.fresh
  have hle := unwritten_le heap lay
  have hitems : (ctx'.enqueueWriteRecord obj 0 (vaddr ctx.base (extent lay))).wl.length =
      (obj :: rest).length := by
    have hstand : Stand (itemsFor ctx.base (lay ++ [obj]) 1 rest) 1 rest := stand_itemsFor
    have := hstand.perm.length_eq
    simpa [PickleCtx.enqueueWriteRecord, hwl] using this
  omega

/-- Filled records are a message. -/
theorem Progress.message {done : Nat → Nat} {log : List Emission}
    (h : Progress heap (Awaits heap ctx₀ obj) ctx₀ prev cur done ctx)
    (hdone : ∀ j (a : Alloc), cur[j]? = some a → done j = a.data.length)
    (hfirst : cur.head? = some obj) (hlog : ctx.emitted = ctx₀.emitted ++ log)
    (hok : ∀ e ∈ log, EmissionOk heap ctx₀.base (Awaits heap ctx₀ obj) (prev ++ cur) e) :
    Message heap ctx₀ prev obj cur ctx.records ctx.neededPatches.length log where
  first := hfirst
  awaits := h.mem
  blocks := h.filled hdone
  fresh := h.fresh
  small := h.small
  patches := by
    rw [List.length_eq_zero_iff, h.patches]
    constructor
    · intro hall a ha s hs
      obtain ⟨j, hj⟩ := List.getElem?_of_mem ha
      exact hall j a hj s (by rwa [hdone j a hj, List.take_length])
    · intro hall j a hj s hs
      exact hall a (List.mem_of_getElem? hj) s (List.mem_of_mem_take hs)
  emitted := hok
  logged := by
    intro a ha s hs hclean
    obtain ⟨j, hj⟩ := List.getElem?_of_mem ha
    rw [← hlog]
    exact h.logged j a hj s (by rwa [hdone j a hj, List.take_length]) hclean

/-- The state after `bundle_result` is one between two messages. -/
theorem Progress.between {done : Nat → Nat} (hbetween : Between heap ctx₀ prev)
    (h : Progress heap S ctx₀ prev cur done ctx) (hwl : ctx.wl = []) (cb : Buf)
    (heaps : List (Buf × Word)) (own : List Word) :
    Between heap
      { ended ctx cb heaps own with
        lastOffsetEnd := ctx.offset, started := true, bufferedHeapInfo := [],
        currentOutputBuf := none, records := [] } (prev ++ cur) where
  laid := ⟨h.ready.laid.memo, h.ready.laid.offset⟩
  neededPatches := rfl
  currentOutputBuf := rfl
  bufferedHeapInfo := rfl
  records := rfl
  wl := hwl
  lastOffsetEnd := rfl
  aligned := h.base.symm ▸ hbetween.aligned
  held := by
    intro a ha
    rcases List.mem_append.mp ha with ha | ha
    · exact hbetween.held a ha
    · exact ⟨a, (h.mem a ha).1, rfl, rfl⟩

/-- Marshalling a new object makes its message and sends it iff it is sendable, or fails where a
record is too large. -/
theorem internalMarshal_new (beyond : Nat → Word) (h : Between heap ctx lay)
    (hobj : obj ∈ heap.allocs) (hnone : startOf lay obj.addr = none) :
    (∃ cur blocks n log, Message heap ctx lay obj cur blocks n log ∧
      (¬ Sendable ctx cur n → internalMarshal heap beyond ctx obj = none) ∧
      (Sendable ctx cur n → ∃ tail ctx', tail.length = n * 16 ∧
        internalMarshal heap beyond ctx obj = some
          (some (preamble ctx ++ blocks.flatten ++ (endHeader n).words ++ tail), ctx') ∧
        Between heap ctx' (lay ++ cur) ∧ ctx'.base = ctx.base ∧ ctx'.started = true ∧
        ctx'.emitted = ctx.emitted ++ log)) ∨
    internalMarshal heap beyond ctx obj = none ∧ Oversized (Awaits heap ctx obj) := by
  have hclosed : Closed heap ctx.base lay (Awaits heap ctx obj) := Awaits.closed h.laid
  have hroot : Awaits heap ctx obj obj := .root (h.laid.memo_none.mpr hnone)
  obtain ⟨rest, ctx₁, hcall, hopen, hwl⟩ | ⟨hcall, hlarge⟩ := getWriteRecord_spec hclosed
    (heap.allocs.length + 1) ctx lay obj rfl (List.prefix_refl lay) h.ready
    (Nat.lt_succ_of_le (unwritten_le heap lay)) hobj hroot hnone
  swap
  · exact Or.inr ⟨by simp only [internalMarshal, hcall, Option.bind_eq_bind, Option.bind_none],
      hlarge⟩
  rw [h.wl, List.append_nil, h.records] at hwl
  obtain ⟨hprog₁, hpend⟩ := progress_start h hopen hwl
  obtain ⟨new, ctx₂, done, hqueue, hempty, hprog, hdone⟩ | ⟨hqueue, hlarge⟩ :=
    processQueue_spec hclosed (Nat.lt_succ_self _) hprog₁ hpend (turns_le hopen hwl)
  swap
  · exact Or.inr ⟨by simp only [internalMarshal, hcall, h.records, List.length_nil,
      Option.bind_eq_bind, Option.bind_some, hqueue, Option.bind_none], hlarge⟩
  left
  obtain ⟨log, hlog, hok⟩ := hprog.emitted
  have hmessage := hprog.message hdone rfl hlog hok
  have hwords := flatten_length hmessage.blocks
  have hbound : 8 * ctx₂.records.flatten.length < 2 ^ 64 := by
    rw [hwords]
    exact (Placement.total_le_of_subset hprog.fresh.nodup
      fun a ha => (hprog.mem a ha).1).trans_lt heap.addressable
  have hoffset : ctx₂.offset = ctx₂.lastOffsetEnd +
      BitVec.ofNat 64 (8 * ctx₂.records.flatten.length) := by
    rw [hprog.ready.sync, PickleCtx.lens, List.length_flatten]
  have hpreamble : preamble ctx₂ = preamble ctx := by
    rw [preamble, preamble, hprog.started, hprog.base]
  refine ⟨_, _, _, log, hmessage, fun hlarge => ?_, fun hsend => ?_⟩
  · by_cases hend : RecordFits (endLen ctx₂.neededPatches.length)
    · obtain ⟨cb, heaps, own, ids, hcreate, hids, hchunked⟩ :=
        createObjectEndRecord_spec hprog.ready.chunked hprog.ready.sync hend
      have hlen : ¬ messageLen ctx _ ctx₂.neededPatches.length < 2 ^ 31 := fun hlen =>
        hlarge ⟨hend, hlen⟩
      rw [messageLen, ← hwords, ← hpreamble] at hlen
      have hbundle : bundleResult beyond (ended ctx₂ cb heaps own) ctx₂.records.length = none :=
        bundleResult_none beyond rfl hoffset hbound hend.patches_lt (Nat.not_lt.mp hlen)
      simp only [internalMarshal, hcall, h.records, List.length_nil, Option.bind_eq_bind,
        Option.bind_some, hqueue, hcreate, hbundle, Option.bind_none]
    · simp only [internalMarshal, hcall, h.records, List.length_nil, Option.bind_eq_bind,
        Option.bind_some, hqueue, createObjectEndRecord_none hend, Option.bind_none]
  · obtain ⟨hend, hlen⟩ := hsend
    obtain ⟨cb, heaps, own, ids, hcreate, hids, hchunked⟩ :=
      createObjectEndRecord_spec hprog.ready.chunked hprog.ready.sync hend
    rw [messageLen, ← hwords, ← hpreamble] at hlen
    obtain ⟨tail, htail, hbundle⟩ := bundleResult_spec beyond hchunked rfl hids rfl hoffset hbound
      hend.patches_lt hlen
    refine ⟨tail, _, htail, ?_, hprog.between h hempty cb heaps own, hprog.base, rfl, hlog⟩
    simp only [internalMarshal, hcall, h.records, List.length_nil, Option.bind_eq_bind,
      Option.bind_some, hqueue, hcreate, hbundle, ← hpreamble]
    rfl

/-- A call that returns changed nothing or left the context between two messages. -/
theorem internalMarshal_cases {beyond : Nat → Word} {b : Option (List Word)}
    (h : Between heap ctx lay) (hobj : obj ∈ heap.allocs)
    (hcall : internalMarshal heap beyond ctx obj = some (b, ctx')) :
    ctx' = ctx ∨ ∃ cur blocks n log, Message heap ctx lay obj cur blocks n log ∧
      Between heap ctx' (lay ++ cur) ∧ ctx'.base = ctx.base ∧
      ctx'.emitted = ctx.emitted ++ log := by
  cases hstart : startOf lay obj.addr with
  | some r =>
    rw [internalMarshal_written h hstart] at hcall
    cases hcall
    exact Or.inl rfl
  | none =>
    obtain ⟨cur, blocks, n, log, hmessage, hlarge, hsmall⟩ | ⟨hnone, -⟩ :=
      internalMarshal_new beyond h hobj hstart
    swap
    · rw [hnone] at hcall
      cases hcall
    have hsend : Sendable ctx cur n := by
      by_contra hno
      rw [hlarge hno] at hcall
      cases hcall
    obtain ⟨tail, c, -, hcall', hnext, hbase, -, hemitted⟩ := hsmall hsend
    rw [hcall'] at hcall
    cases hcall
    exact Or.inr ⟨cur, blocks, n, log, hmessage, hnext, hbase, hemitted⟩

/-! ## Streams -/

/-- The allocations of a heap are still there later, at the same length; their words may differ. -/
def Heap.Extends (later heap : Heap) : Prop :=
  ∀ a ∈ heap.allocs, ∃ b ∈ later.allocs, b.addr = a.addr ∧ b.allocLen = a.allocLen

/-- The states of a stream between its messages, with the heap at that time: `meets` holds before
each message. -/
inductive Stream (meets : Heap → PickleCtx → Alloc → Prop) : Heap → PickleCtx → Prop where
  | setup (heap : Heap) (random : Word) : Stream meets heap (marshalSetup random)
  | change {heap later : Heap} {ctx : PickleCtx} : Stream meets heap ctx → later.Extends heap →
      Stream meets later ctx
  | write {heap : Heap} {ctx ctx' : PickleCtx} {obj : Alloc} {beyond : Nat → Word}
      {b : Option (List Word)} : Stream meets heap ctx → obj ∈ heap.allocs → meets heap ctx obj →
      internalMarshal heap beyond ctx obj = some (b, ctx') → Stream meets heap ctx'

/-- Between two messages the heap may grow. -/
theorem Between.extends (h : Between heap ctx lay) (hext : later.Extends heap) :
    Between later ctx lay :=
  { h with
    held := by
      rintro a ha
      obtain ⟨b, hb, haddr, hlen⟩ := h.held a ha
      obtain ⟨c, hc, hcaddr, hclen⟩ := hext b hb
      exact ⟨c, hc, hcaddr.trans haddr, hclen.trans hlen⟩ }

/-- After any stream the context is between two messages. -/
theorem Stream.between {meets : Heap → PickleCtx → Alloc → Prop} (h : Stream meets heap ctx) :
    ∃ lay, Between heap ctx lay := by
  induction h with
  | setup heap random => exact ⟨[], between_setup heap random⟩
  | change _ hext ih =>
    obtain ⟨lay, hbetween⟩ := ih
    exact ⟨lay, hbetween.extends hext⟩
  | write _ hobj _ hcall ih =>
    obtain ⟨lay, hbetween⟩ := ih
    rcases internalMarshal_cases hbetween hobj hcall with rfl | ⟨cur, _, _, _, _, hnext, -⟩
    · exact ⟨lay, hbetween⟩
    · exact ⟨lay ++ cur, hnext⟩

/-- Every allocation that awaits a record is in the message. -/
theorem Message.complete {n : Nat} {log : List Emission}
    (h : Between heap ctx lay) (hmessage : Message heap ctx lay obj cur blocks n log) {a : Alloc}
    (ha : Awaits heap ctx obj a) : a ∈ cur := by
  induction ha with
  | root => exact List.mem_of_mem_head? hmessage.first
  | @step a b _ hpoints hnone ih =>
    obtain ⟨p, hp, hfind⟩ := hpoints
    -- the word for `p` names a record, which is not one of an earlier message
    have hplaced : ∀ {word}, Stands heap ctx.base (lay ++ cur) p word → b ∈ cur := by
      intro word hstands
      rw [Stands, hfind] at hstands
      obtain ⟨r, hr, -⟩ := hstands
      have hfirst : Placement.place Alloc.addr Alloc.allocLen lay b.addr = none :=
        h.laid.memo_none.mp hnone
      rw [startOf, Placement.place_append, hfirst, Option.none_or, Option.map_eq_some_iff] at hr
      obtain ⟨r', hr', -⟩ := hr
      obtain ⟨pre, c, post, hcur, haddr, -⟩ := Placement.exists_split hr'
      have hc : c ∈ cur := by simp [hcur]
      rwa [Heap.eq_of_addr (hmessage.awaits c hc).1 (Heap.mem_of_find hfind) haddr] at hc
    rcases hp with rfl | ⟨hmem, hclean⟩
    · obtain ⟨block, -, type, words, htype, -⟩ := hmessage.block_of_mem ih
      exact hplaced htype
    · obtain ⟨word, hstands, -⟩ := hmessage.logged a ih p hmem hclean
      exact hplaced hstands

end N00b.Marshal
