import Mathlib
import N00b.Marshal.Framing
import N00b.Marshal.Pointers

/-!
# Patches

A data word that looks like a virtual address is written as zero, and its value goes into the end
record as a patch. The end record counts the patches in three ways: `create_object_end_record` takes
16 bytes for each and fills in 8, `bundle_result` copies 128, and the receiving side cuts 16 off and
then never finishes its loop over them.

## Main results

* `not_performsBackpatching`: with a patch the loop never comes to an end.
* `patchesExact_iff`: the patches of a message do what they are for if and only if there are none,
  and its records and the message itself are not too long.
-/

namespace N00b.Marshal

open Lib

/-! ## What the patches are for -/

/-- A record with the words that were written as zero put back. -/
def restored (base : Word) (a : Alloc) (block : List Word) : List Word :=
  block.take 6 ++ List.zipWith (fun s word => if InWindow base s then s else word) a.data
    (block.drop 6)

/-- The message for `obj` is written, and is cut off the stream at the first word of what follows
it, its end record is found, the patches come to an end, and they put back every word that was
written as zero and change no other. The receiving side is the context `ctx'`, the buffer of which
is no longer than a buffer can be, and `beyond'` is its memory behind the message. -/
def PatchesExact (heap : Heap) (ctx : PickleCtx) (obj : Alloc) : Prop :=
  ∀ (beyond beyond' : Nat → Word) (ctx' : UnpickleCtx) (following : List Word),
    ∃ lay cur blocks n log rest next, Message heap ctx lay obj cur blocks n log ∧
      internalMarshal heap beyond ctx obj =
        some (some (preamble ctx ++ messageWords blocks n rest), next) ∧
      (8 * (messageWords blocks n rest ++ following).length < 2 ^ 31 →
      ∃ slice left endRecord fuel patched,
        checkUnpickleReadiness { ctx' with
          partialData := some (messageWords blocks n rest ++ following)
          partCursor := 0 } = .ok (some slice, left) ∧
        left.partialData.getD [] = following ∧
        findEndRecord slice = some endRecord ∧
        slice.take endRecord = blocks.flatten ∧
        performUnmarshalBackpatching ctx' beyond' fuel endRecord slice = .ok patched ∧
        patched.take endRecord = (List.zipWith (restored ctx.base) cur blocks).flatten)

/-- No word that the message copies looks like a virtual address. -/
def Clean (heap : Heap) (ctx : PickleCtx) (obj : Alloc) : Prop :=
  ∀ a, Awaits heap ctx obj a → ∀ s ∈ a.data, ¬ InWindow ctx.base s

/-- The message needs no patches, the local heaps have room for each of its records, and a buffer
for all of it. -/
structure Deliverable (heap : Heap) (ctx : PickleCtx) (obj : Alloc) : Prop where
  clean : Clean heap ctx obj
  records : ∀ a, Awaits heap ctx obj a → RecordFits a.allocLen
  length : messageLen ctx (awaited heap ctx obj) 0 < 2 ^ 31

variable {heap : Heap} {ctx : PickleCtx} {lay cur : List Alloc} {obj : Alloc} {base : Word}

/-! ## The loop -/

/-- A backpatching with patches to do never succeeds. -/
theorem not_performsBackpatching (ctx' : UnpickleCtx) (beyond : Nat → Word) :
    ∀ (fuel n i : Nat) (buf patched : List Word), n ≠ 0 →
      backpatchLoop ctx' beyond fuel n i buf ≠ .ok patched := by
  intro fuel
  induction fuel with
  | zero =>
    rintro (_ | n) i buf patched hn
    · exact absurd rfl hn
    · simp [backpatchLoop]
  | succ fuel ih =>
    rintro (_ | n) i buf patched hn
    · exact absurd rfl hn
    · rw [backpatchLoop]
      split
      · simp
      · exact ih _ _ _ _ hn

/-! ## Messages with and without patches -/

/-- Without words in the window, restoring a record changes nothing. -/
theorem restored_clean {a : Alloc} {block : List Word}
    (h : Filled heap base lay a a.data.length block) (hclean : ∀ s ∈ a.data, ¬ InWindow base s) :
    restored base a block = block := by
  have hlen : (block.drop 6).length = a.data.length := by
    have := h.length
    simp only [Alloc.allocLen, headerLen] at this
    rw [List.length_drop]
    omega
  have hsame : List.zipWith (fun s word => if InWindow base s then s else word) a.data
      (block.drop 6) = block.drop 6 := by
    refine List.ext_getElem (by simp [hlen]) fun i hi hi' => ?_
    have hlt : i < a.data.length := hlen ▸ hi'
    rw [List.getElem_zipWith, if_neg (hclean _ (List.getElem_mem hlt))]
  rw [restored, hsame, List.take_append_drop]

/-- Without words in the window, restoring the records changes nothing. -/
theorem flatten_restored {blocks : List (List Word)}
    (h : List.Forall₂ (fun a block => Filled heap base lay a a.data.length block) cur blocks)
    (hclean : ∀ a ∈ cur, ∀ s ∈ a.data, ¬ InWindow base s) :
    List.zipWith (restored base) cur blocks = blocks := by
  induction h with
  | nil => rfl
  | @cons a block _ _ hfilled _ ih =>
    rw [List.zipWith_cons_cons, restored_clean hfilled (hclean a List.mem_cons_self),
      ih fun b hb => hclean b (List.mem_cons_of_mem _ hb)]

theorem messageWords_append (blocks : List (List Word)) (n : Nat) (rest following : List Word) :
    messageWords blocks n rest ++ following = messageWords blocks n (rest ++ following) := by
  simp [messageWords]

/-- A message is its records, the header of the end record and the patches. -/
theorem messageWords_length {blocks : List (List Word)} {n : Nat} {rest : List Word}
    (h : List.Forall₂ (fun a block => Filled heap base lay a a.data.length block) cur blocks)
    (hrest : rest.length = n * 16) (ctx : PickleCtx) :
    8 * (messageWords blocks n rest).length + 8 * (preamble ctx).length = messageLen ctx cur n := by
  have hblocks := flatten_length h
  rw [messageLen, messageWords, List.length_append, List.length_append, RecordHdr.length_words,
    hrest, headerLen]
  omega

/-- A message holds the allocations that are awaited and no others. -/
theorem Message.extent_eq {blocks : List (List Word)} {n : Nat} {log : List Emission}
    (hbetween : Between heap ctx lay) (h : Message heap ctx lay obj cur blocks n log) :
    extent cur = extent (awaited heap ctx obj) := by
  have hsub : cur ⊆ awaited heap ctx obj := fun a ha => by
    obtain ⟨hmem, hawaits⟩ := h.awaits a ha
    exact List.mem_filter.mpr ⟨hmem, by simpa using hawaits⟩
  have hsub' : awaited heap ctx obj ⊆ cur := fun a ha =>
    h.complete hbetween (by simpa using (List.mem_filter.mp ha).2)
  exact le_antisymm (Placement.total_le_of_subset h.fresh.nodup hsub)
    (Placement.total_le_of_subset (heap.nodup.filter _) hsub')

/-- An object with exact patches needs none, and its records and its message fit. -/
theorem PatchesExact.deliverable (hbetween : Between heap ctx lay) (hobj : obj ∈ heap.allocs)
    (hnew : ctx.memos.lookup obj.addr = none) (h : PatchesExact heap ctx obj) :
    Deliverable heap ctx obj := by
  obtain ⟨_, _, blocks', n', _, rest', next, -, hcall, hexact⟩ :=
    h (fun _ => 0) (fun _ => 0) unmarshalSetup []
  -- the message is written
  obtain ⟨cur, blocks, n, log, hmessage, hlarge, hsmall⟩ | ⟨hnone, -⟩ := internalMarshal_new
    (fun _ => 0) hbetween hobj (hbetween.laid.memo_none.mp hnew)
  swap
  · rw [hnone] at hcall
    cases hcall
  have hsend : Sendable ctx cur n := by
    by_contra hno
    rw [hlarge hno] at hcall
    cases hcall
  have h16 := hsend.1.patches_lt
  obtain ⟨tail, _, htail, hcall', -⟩ := hsmall hsend
  rw [hcall', List.append_assoc, List.append_assoc] at hcall
  have hwords : messageWords blocks n tail = messageWords blocks' n' rest' := by
    injection hcall with hcall
    exact List.append_cancel_left (Option.some.inj (Prod.mk.inj hcall).1)
  have hlen := messageWords_length hmessage.blocks htail ctx
  have hroom : 8 * (messageWords blocks n tail ++ []).length < 2 ^ 31 := by
    rw [List.append_nil]
    have := hsend.2
    omega
  -- and is cut off at its end
  obtain ⟨slice, left, _, _, _, hready, hleft, -⟩ := hexact (hwords ▸ hroom)
  rw [← hwords, List.append_nil] at hready
  have hcut := checkUnpickleReadiness_message (show n * 16 < 2 ^ 32 by omega) hmessage.blocks
    (show 2 * n ≤ tail.length by omega)
    { unmarshalSetup with partialData := some (messageWords blocks n tail), partCursor := 0 }
    rfl rfl
  rw [hcut] at hready
  -- what is left behind the message are 14 words for each patch
  have hzero : n = 0 := by
    injection hready with hready
    rw [← (Prod.mk.inj hready).2] at hleft
    simp only [leftOver] at hleft
    by_contra hne
    rw [if_neg (by omega)] at hleft
    have := congrArg List.length hleft
    simp only [Option.getD_some, List.length_drop, List.length_nil] at this
    omega
  subst hzero
  refine ⟨fun a ha => ?_, fun a ha => ?_, ?_⟩
  · exact hmessage.patches.mp rfl a (hmessage.complete hbetween ha)
  · exact hmessage.small a (hmessage.complete hbetween ha)
  · rw [messageLen, ← hmessage.extent_eq hbetween]
    exact hsend.2

/-- An object that needs no patches and whose records and message fit has exact ones. -/
theorem Deliverable.patchesExact (hbetween : Between heap ctx lay) (hobj : obj ∈ heap.allocs)
    (hnew : ctx.memos.lookup obj.addr = none) (h : Deliverable heap ctx obj) :
    PatchesExact heap ctx obj := by
  intro beyond beyond' ctx' following
  obtain ⟨cur, blocks, n, log, hmessage, -, hsmall⟩ | ⟨-, a, ha, hlarge⟩ := internalMarshal_new
    beyond hbetween hobj (hbetween.laid.memo_none.mp hnew)
  swap
  · exact absurd (h.records a ha) hlarge
  have hclean : ∀ a ∈ cur, ∀ s ∈ a.data, ¬ InWindow ctx.base s := fun a ha =>
    h.clean a (hmessage.awaits a ha).2
  obtain rfl : n = 0 := hmessage.patches.mpr hclean
  have hsend : Sendable ctx cur 0 := by
    refine ⟨by decide, ?_⟩
    rw [messageLen, hmessage.extent_eq hbetween]
    exact h.length
  obtain ⟨tail, next, htail, hcall, -⟩ := hsmall hsend
  obtain rfl : tail = [] := List.eq_nil_of_length_eq_zero htail
  rw [List.append_assoc, List.append_assoc] at hcall
  have hcut := checkUnpickleReadiness_message (by decide) hmessage.blocks (Nat.zero_le _)
    { ctx' with partialData := some (messageWords blocks 0 following), partCursor := 0 } rfl rfl
  have hslice : messageWords blocks 0 (following.take (2 * 0)) =
      blocks.flatten ++ (endHeader 0).words := by
    simp [messageWords]
  have hend := (endHeader_reads 0 blocks.flatten []).2
  rw [List.append_nil] at hend
  rw [hslice] at hcut
  refine ⟨lay, cur, blocks, 0, log, [], next, hmessage, hcall, fun _ =>
    ⟨blocks.flatten ++ (endHeader 0).words,
    { ctx' with partialData := leftOver following (2 * 0), partCursor := 0 },
    blocks.flatten.length, 0, blocks.flatten ++ (endHeader 0).words, ?_, ?_,
    findEndRecord_message _ 0, List.take_left, ?_, ?_⟩⟩
  · rw [messageWords_append, List.nil_append]
    exact hcut
  · simp only [leftOver]
    split
    next hnil => exact (List.eq_nil_of_length_eq_zero hnil).symm
    next => rfl
  · rw [performUnmarshalBackpatching, hend]
    rfl
  · rw [List.take_left, flatten_restored hmessage.blocks hclean]

/-- **The patches of a message are exact** if and only if there are none, and the message can be
written at all: in every state of a stream, for every object that was not written before. -/
theorem patchesExact_iff {meets : Heap → PickleCtx → Alloc → Prop} (h : Stream meets heap ctx)
    (hobj : obj ∈ heap.allocs) (hnew : ctx.memos.lookup obj.addr = none) :
    PatchesExact heap ctx obj ↔ Deliverable heap ctx obj := by
  obtain ⟨lay, hbetween⟩ := h.between
  exact ⟨PatchesExact.deliverable hbetween hobj hnew, Deliverable.patchesExact hbetween hobj hnew⟩

theorem patchesExact_loop : PatchesExact loopHeap (marshalSetup 0x7fff12345678) loopAlloc := by
  refine (patchesExact_iff (.setup loopHeap 0x7fff12345678 : Stream Fits loopHeap _)
    (List.mem_singleton_self loopAlloc) rfl).mpr ⟨?_, ?_, ?_⟩
  · rintro a ha s hs
    obtain rfl := List.mem_singleton.mp (ha.mem (List.mem_singleton_self loopAlloc))
    rcases List.mem_pair.mp hs with rfl | rfl
    · decide
    · decide
  · rintro a ha
    obtain rfl := List.mem_singleton.mp (ha.mem (List.mem_singleton_self loopAlloc))
    decide
  · have hroom := fits_loop.room
    have hpreamble : (preamble (marshalSetup 0x7fff12345678)).length = 2 := rfl
    rw [messageLen, hpreamble, headerLen]
    omega

/-- An allocation with a number in it that looks like a virtual address of the stream. -/
def collidingAlloc : Alloc :=
  ⟨0x10000, 0, false, false, (0, 0), [5, 0x7fff12340033], by decide⟩

/-- The heap of `collidingAlloc`. -/
def collidingHeap : Heap where
  allocs := [collidingAlloc]
  apart := by simp
  addressable := by decide

/-- One collision and the rest of the stream is cut off in the wrong place. -/
theorem not_patchesExact_colliding :
    ¬ PatchesExact collidingHeap (marshalSetup 0x7fff12345678) collidingAlloc := by
  intro h
  have hdeliver := h.deliverable (between_setup collidingHeap 0x7fff12345678)
    (List.mem_singleton_self collidingAlloc) rfl
  have hroot : Awaits collidingHeap (marshalSetup 0x7fff12345678) collidingAlloc collidingAlloc :=
    .root rfl
  have hmem : (0x7fff12340033 : Word) ∈ collidingAlloc.data := by decide
  exact hdeliver.clean collidingAlloc hroot _ hmem (by decide)

end N00b.Marshal
