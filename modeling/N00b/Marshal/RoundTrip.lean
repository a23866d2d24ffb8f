import Mathlib
import N00b.Marshal.Decode
import N00b.Marshal.Patches

/-!
# The round trip

What a stream of messages becomes on the receiving side: a copy of the part of the heap that is
reached from the objects, each allocation once, its pointers relocated.

## Main results

* `reads_relocate`: a word of the stream is read as the relocated word of the heap.
-/

namespace N00b.Marshal

open Lib

/-! ## The graph of a heap -/

/-- A word of one allocation points into the other. -/
def Refers (heap : Heap) (a b : Alloc) : Prop :=
  ∃ p, (p = a.type ∨ p ∈ a.data) ∧ heap.findAllocationRecord p = some b

abbrev Reaches (heap : Heap) : Alloc → Alloc → Prop :=
  Relation.ReflTransGen (Refers heap)

/-- An allocation is reached from some of the objects. -/
def Reached (heap : Heap) (objs : List Alloc) (a : Alloc) : Prop :=
  ∃ obj ∈ objs, Reaches heap obj a

/-- How the reached allocations are split into messages, those of `lay` being written already: there
is no message for an object that was written, and the message for any other starts with it and has
everything that is reached from it and was not written. -/
inductive Splits (heap : Heap) : List Alloc → List Alloc → List (Option (List Alloc)) → Prop where
  | nil {lay : List Alloc} : Splits heap lay [] []
  | again {lay objs : List Alloc} {obj : Alloc} {messages : List (Option (List Alloc))} :
      obj ∈ lay → Splits heap lay objs messages → Splits heap lay (obj :: objs) (none :: messages)
  | new {lay objs cur : List Alloc} {obj : Alloc} {messages : List (Option (List Alloc))} :
      obj ∉ lay → cur.head? = some obj → cur.Nodup →
      (∀ a, a ∈ cur ↔ Reaches heap obj a ∧ a ∉ lay) → Splits heap (lay ++ cur) objs messages →
      Splits heap lay (obj :: objs) (some cur :: messages)

/-- The word `s` in the copy of a heap, the allocations of which lie at `place`. -/
def relocate (heap : Heap) (place : Alloc → Word) (s : Word) : Word :=
  match heap.findAllocationRecord s with
  | none => s
  | some b => place b + (s - b.addr)

/-- The copy of an allocation, in a heap with the guard `gcGuard`. -/
def copyOf (heap : Heap) (gcGuard : Word) (place : Alloc → Word) (a : Alloc) : List Word :=
  { newHeader a (relocate heap place a.type) with guard := gcGuard }.words ++
    a.data.map (relocate heap place)

/-- What messages become from the `k`th on. Each starts with its object. -/
def copies (heap : Heap) (receiver : Receiver) (place : Alloc → Word) :
    Nat → List (List Alloc) → List Unpickled
  | _, [] => []
  | k, cur :: curs =>
    ⟨receiver.loc k + BitVec.ofNat 64 headerLen, receiver.loc k,
      cur.flatMap (copyOf heap receiver.gcGuard place)⟩ :: copies heap receiver place (k + 1) curs

/-- **The round trip.** The objects go through a stream, and the receiving side has copies of the
allocations that are reached from them, in the memory of the message that brought them. -/
def RoundTrips (heap : Heap) (random : Word) (beyond : Nat → Word) (receiver : Receiver)
    (fuel : Nat) (objs : List Alloc) : Prop :=
  ∃ messages bufs ctx uctx, Splits heap [] objs messages ∧
    marshalAll heap beyond (marshalSetup random) objs = some (bufs, ctx) ∧
    List.Forall₂ (fun b m => b.isSome = m.isSome) bufs messages ∧
    unmarshalAll receiver fuel unmarshalSetup bufs.reduceOption =
      .ok (copies heap receiver (address receiver.loc 0 messages.reduceOption) 0
        messages.reduceOption, uctx)

/-- The record of an allocation stands behind another one in its message. -/
def Behind (heap : Heap) (objs : List Alloc) (a : Alloc) : Prop :=
  ∃ pre obj post, objs = pre ++ obj :: post ∧ Reaches heap obj a ∧ a ≠ obj ∧ ¬ Reached heap pre a

/-- The records of the objects fit into the first 64 KiB of the virtual heap. -/
def Small (heap : Heap) (objs : List Alloc) : Prop :=
  ∀ as : List Alloc, as.Nodup → (∀ a ∈ as, Reached heap objs a) → extent as < 65536

/-- Nothing is taken for a virtual address that is none: no data word, no `type`, no word of the
header of an end record, and no word of a header that stands behind another record. A `type` behind
another record is no virtual address once it is relocated. -/
structure Undisturbed (heap : Heap) (base : Word) (receiver : Receiver) (objs : List Alloc) :
    Prop where
  data : ∀ a, Reached heap objs a → ∀ s ∈ a.data, ¬ InWindow base s
  type : ∀ a, Reached heap objs a → heap.findAllocationRecord a.type = none →
    ¬ InWindow base a.type
  last : objs ≠ [] → ∀ word ∈ (endHeader 0).words, ¬ InWindow base word
  behind : ∀ a, Behind heap objs a → ∀ word ∈ (newHeader a 0).words, ¬ InWindow base word
  relocated : ∀ a b, Behind heap objs a → heap.findAllocationRecord a.type = some b →
    ∀ k r, r < 65536 → ¬ InWindow base (receiver.loc k + BitVec.ofNat 64 r)

variable {heap : Heap} {base : Word} {loc : Nat → Word} {lay cur pre objs : List Alloc}
  {curs : List (List Alloc)} {uctx : UnpickleCtx} {obj : Alloc} {ctx : PickleCtx}
  {receiver : Receiver}

/-! ## Each allocation once -/

/-! ## Words -/

/-- A word outside of the window is read as it is. -/
theorem reads_of_not_inWindow (h : uctx.vaddrStart = base) {word : Word}
    (hword : ¬ InWindow base word) : Reads uctx word word := by
  rw [Reads, safeUnmungePointer, h, if_pos hword]

/-- A place in the stream lies in one message. -/
theorem exists_place (loc : Nat → Word) {b : Alloc} {r d : Nat} (hr : startOf curs.flatten b.addr = some r)
    (hb : b ∈ heap.allocs) (hmem : ∀ a ∈ curs.flatten, a ∈ heap.allocs) (hd : d < b.allocLen) :
    r + d < extent curs.flatten ∧
      locate loc 0 0 (curs.map extent) (r + d) = address loc 0 curs b + BitVec.ofNat 64 d := by
  have hroom : ∀ c ∈ curs, ∀ r, startOf c b.addr = some r → r + d < extent c := by
    intro c hc r hr
    have hle := start_add_le (fun a ha =>
      ⟨a, hmem a (List.mem_flatten.mpr ⟨c, hc, ha⟩), rfl, rfl⟩) hb hr
    omega
  have hle := start_add_le (fun a ha => ⟨a, hmem a ha, rfl, rfl⟩) hb hr
  refine ⟨by omega, ?_⟩
  have := locate_address loc 0 0 hr hroom
  rwa [Nat.zero_add] at this

/-- **A pointer** is read as the place where its target was put. -/
theorem reads_relocate (h : Decoding loc base (curs.map extent) (extent cur) uctx)
    (haligned : lsbErase base = base) (hmem : ∀ a ∈ curs.flatten ++ cur, a ∈ heap.allocs)
    {s word : Word} (hstands : Stands heap base (curs.flatten ++ cur) s word)
    (hclean : heap.findAllocationRecord s = none → ¬ InWindow base s) (more : List (List Alloc)) :
    Reads uctx word (relocate heap (address loc 0 (curs ++ cur :: more)) s) := by
  have hflat : (curs ++ [cur]).flatten = curs.flatten ++ cur := by simp
  have hextent : extent (curs ++ [cur]).flatten = (curs.map extent).sum + extent cur := by
    rw [extent_flatten, List.map_append, List.sum_append, List.map_singleton, List.sum_singleton]
  have hsmall := h.small
  rw [Stands] at hstands
  rw [relocate]
  cases hfind : heap.findAllocationRecord s with
  | none =>
    rw [hfind] at hstands
    obtain rfl : word = s := hstands
    exact reads_of_not_inWindow h.vaddrStart (hclean hfind)
  | some b =>
    rw [hfind] at hstands
    obtain ⟨r, hr, rfl⟩ : ∃ r, startOf (curs.flatten ++ cur) b.addr = some r ∧
      word = s - b.addr + vaddr base r := hstands
    rw [← hflat] at hr hmem
    obtain ⟨hlow, hhigh⟩ := Heap.covers_of_find hfind
    have hd : (s - b.addr).toNat < b.allocLen := by
      rw [BitVec.toNat_sub_of_le hlow]
      omega
    obtain ⟨hroom, hplace⟩ := exists_place loc hr (Heap.mem_of_find hfind) hmem hd
    have hword : s - b.addr + vaddr base r = vaddr base (r + (s - b.addr).toNat) := by
      rw [← vaddr_add, BitVec.ofNat_toNat, BitVec.setWidth_eq, BitVec.add_comm]
    have hwindow : InWindow base (vaddr base (r + (s - b.addr).toNat)) :=
      inWindow_add haligned (by omega)
    have hclosed := locate_append loc 0 0 []
      (show r + (s - b.addr).toNat < 0 + ((curs.map extent).sum + extent cur) by omega)
    have hmap : (curs ++ [cur]).map extent = curs.map extent ++ [extent cur] := by simp
    rw [hmap, hclosed, BitVec.ofNat_toNat, BitVec.setWidth_eq] at hplace
    have hstay := address_append loc 0 hr more
    rw [List.append_assoc, List.singleton_append] at hstay
    rw [Reads, safeUnmungePointer, hword, h.vaddrStart, if_neg (not_not.mpr hwindow),
      rawUnmungePointer_locate h (by omega), hplace, ← hstay]

/-! ## Records -/

variable {a : Alloc}

/-- The words of a block stand for those of the allocation. -/
theorem Filled.words {block : List Word}
    (h : Filled heap base lay a a.data.length block) (hclean : ∀ s ∈ a.data, ¬ InWindow base s) :
    ∃ type words, Stands heap base lay a.type type ∧
      List.Forall₂ (Stands heap base lay) a.data words ∧
      block = (newHeader a type).words ++ words := by
  obtain ⟨type, words, htype, hwords, rfl⟩ := h
  rw [List.take_length] at hwords
  refine ⟨type, words, htype, ?_, by simp⟩
  refine List.forall₂_iff_get.mpr ⟨hwords.length_eq, fun i hi hi' => ?_⟩
  have hcopied := (List.forall₂_iff_get.mp hwords).2 i hi hi'
  rwa [Copied, if_neg (hclean _ (List.get_mem ..))] at hcopied

/-- What is needed of an allocation to read its record. -/
structure Plain (heap : Heap) (base : Word) (a : Alloc) : Prop where
  data : ∀ s ∈ a.data, ¬ InWindow base s
  type : heap.findAllocationRecord a.type = none → ¬ InWindow base a.type

/-- So what is decoded is the allocation with its pointers relocated. -/
theorem decoded_of_stands (h : Decoding loc base (curs.map extent) (extent cur) uctx)
    (haligned : lsbErase base = base) (hbase : base ≠ 0)
    (hmem : ∀ a ∈ curs.flatten ++ cur, a ∈ heap.allocs) {type : Word} {words : List Word}
    (htype : Stands heap base (curs.flatten ++ cur) a.type type)
    (hwords : List.Forall₂ (Stands heap base (curs.flatten ++ cur)) a.data words)
    (hplain : Plain heap base a) (gcGuard : Word) (more : List (List Alloc)) :
    Decoded gcGuard uctx (newHeader a type)
      (relocate heap (address loc 0 (curs ++ cur :: more)) a.type) words
      (a.data.map (relocate heap (address loc 0 (curs ++ cur :: more)))) := by
  have hlt := a.allocLen_lt
  refine ⟨?_, ?_, reads_relocate h haligned hmem htype hplain.type more,
    reads_of_not_inWindow h.vaddrStart (not_inWindow_zero hbase), ?_⟩
  · show a.allocLen = _
    rw [← hwords.length_eq, Alloc.allocLen]
  · show a.allocLen < _
    omega
  · refine List.forall₂_iff_get.mpr ⟨by rw [List.length_map, hwords.length_eq], fun i hi hi' => ?_⟩
    have hi₂ : i < a.data.length := hwords.length_eq ▸ hi
    have hstands := (List.forall₂_iff_get.mp hwords).2 i hi₂ hi
    have hread := reads_relocate h haligned hmem hstands
      (fun _ => hplain.data _ (List.get_mem ..)) more
    simpa using hread

theorem quiet_newHeader (h : uctx.vaddrStart = base) {type type' : Word}
    (hwords : ∀ word ∈ (newHeader a 0).words, ¬ InWindow base word)
    (htype : ¬ InWindow base type') : Quiet uctx (newHeader a type) type' :=
  ⟨reads_of_not_inWindow h htype, fun word hword => reads_of_not_inWindow h (hwords word hword)⟩

theorem relocate_not_inWindow {place : Alloc → Word}
    (hnone : heap.findAllocationRecord a.type = none → ¬ InWindow base a.type)
    (hsome : ∀ b, heap.findAllocationRecord a.type = some b →
      ¬ InWindow base (place b + (a.type - b.addr))) :
    ¬ InWindow base (relocate heap place a.type) := by
  rw [relocate]
  cases hfind : heap.findAllocationRecord a.type with
  | none => exact hnone hfind
  | some b => exact hsome b hfind

/-- A record lies in one segment of the stream. -/
theorem exists_segment (loc : Nat → Word) (k : Nat) {b : Alloc} {r : Nat}
    (hr : startOf curs.flatten b.addr = some r) (hb : b ∈ heap.allocs)
    (hmem : ∀ a ∈ curs.flatten, a ∈ heap.allocs) :
    ∃ j r', address loc k curs b = loc j + BitVec.ofNat 64 r' ∧
      r' + b.allocLen ≤ extent curs.flatten := by
  induction curs generalizing k r with
  | nil => simp [startOf, Placement.place] at hr
  | cons cur curs ih =>
    rw [List.flatten_cons] at hr hmem
    have hsplit : extent (cur :: curs).flatten = extent cur + extent curs.flatten := by
      rw [extent_flatten, List.map_cons, List.sum_cons, extent_flatten]
    rw [startOf, Placement.place_append] at hr
    rw [address]
    cases hcur : startOf cur b.addr with
    | some r' =>
      have hle := start_add_le (fun a ha =>
        ⟨a, hmem a (List.mem_append_left _ ha), rfl, rfl⟩) hb hcur
      exact ⟨k, r', rfl, by omega⟩
    | none =>
      rw [show Placement.place Alloc.addr Alloc.allocLen cur b.addr = none from hcur,
        Option.none_or, Option.map_eq_some_iff] at hr
      obtain ⟨r', hr', -⟩ := hr
      obtain ⟨j, r'', hplace, hle⟩ := ih (k + 1) hr' fun a ha =>
        hmem a (List.mem_append_right _ ha)
      exact ⟨j, r'', hplace, by omega⟩

/-- The type of a record is no pointer into the window after it was relocated. -/
theorem relocate_type_not_inWindow (hsmall : extent (curs.flatten ++ cur) ≤ 65536)
    (hmem : ∀ a ∈ curs.flatten ++ cur, a ∈ heap.allocs) {type : Word}
    (htype : Stands heap base (curs.flatten ++ cur) a.type type) (hplain : Plain heap base a)
    (hrelocated : ∀ b, heap.findAllocationRecord a.type = some b →
      ∀ k r, r < 65536 → ¬ InWindow base (loc k + BitVec.ofNat 64 r)) (more : List (List Alloc)) :
    ¬ InWindow base (relocate heap (address loc 0 (curs ++ cur :: more)) a.type) := by
  refine relocate_not_inWindow hplain.type fun b hfind => ?_
  rw [Stands, hfind] at htype
  obtain ⟨r, hr, -⟩ : ∃ r, startOf (curs.flatten ++ cur) b.addr = some r ∧
    type = a.type - b.addr + vaddr base r := htype
  have hflat : (curs ++ [cur]).flatten = curs.flatten ++ cur := by simp
  rw [← hflat] at hr hmem hsmall
  obtain ⟨hlow, hhigh⟩ := Heap.covers_of_find hfind
  obtain ⟨j, r', hplace, hle⟩ := exists_segment loc 0 hr (Heap.mem_of_find hfind) hmem
  have hstay := address_append loc 0 hr more
  rw [List.append_assoc, List.singleton_append, hplace] at hstay
  have hd : (a.type - b.addr).toNat < b.allocLen := by
    rw [BitVec.toNat_sub_of_le hlow]
    omega
  have hword : loc j + BitVec.ofNat 64 r' + (a.type - b.addr) =
      loc j + BitVec.ofNat 64 (r' + (a.type - b.addr).toNat) := by
    rw [BitVec.ofNat_add, BitVec.ofNat_toNat, BitVec.setWidth_eq, BitVec.add_assoc]
  rw [hstay, hword]
  exact hrelocated b hfind j _ (by omega)

/-- **The records of a message** are decoded to its allocations. -/
theorem records_of_filled (h : Decoding loc base (curs.map extent) (extent cur) uctx)
    (haligned : lsbErase base = base) (hbase : base ≠ 0)
    (hmem : ∀ a ∈ curs.flatten ++ cur, a ∈ heap.allocs)
    {as : List Alloc} {blocks : List (List Word)}
    (hfilled : List.Forall₂
      (fun a block => Filled heap base (curs.flatten ++ cur) a a.data.length block) as blocks)
    (hplain : ∀ a ∈ as, Plain heap base a)
    (hbehind : ∀ a ∈ as, ∀ word ∈ (newHeader a 0).words, ¬ InWindow base word)
    (hrelocated : ∀ a ∈ as, ∀ b, heap.findAllocationRecord a.type = some b →
      ∀ k r, r < 65536 → ¬ InWindow base (loc k + BitVec.ofNat 64 r)) (gcGuard : Word)
    (more : List (List Alloc)) :
    Records gcGuard uctx blocks
      (as.map (copyOf heap gcGuard (address loc 0 (curs ++ cur :: more)))) := by
  have hextent : extent (curs.flatten ++ cur) ≤ 65536 := by
    rw [extent, Placement.total_append]
    have := h.small
    rwa [← extent_flatten] at this
  induction hfilled with
  | nil => exact .nil
  | @cons a block as blocks hblock _ ih =>
    obtain ⟨type, words, htype, hwords, rfl⟩ :=
      hblock.words (hplain a List.mem_cons_self).data
    have hquiet : Quiet uctx (newHeader a type)
        (relocate heap (address loc 0 (curs ++ cur :: more)) a.type) :=
      quiet_newHeader h.vaddrStart (hbehind a List.mem_cons_self)
        (relocate_type_not_inWindow hextent hmem htype (hplain a List.mem_cons_self)
          (hrelocated a List.mem_cons_self) more)
    exact .cons (decoded_of_stands h haligned hbase hmem htype hwords
      (hplain a List.mem_cons_self) gcGuard more) hquiet
      (ih (fun b hb => hplain b (List.mem_cons_of_mem _ hb))
        (fun b hb => hbehind b (List.mem_cons_of_mem _ hb))
        (fun b hb => hrelocated b (List.mem_cons_of_mem _ hb)))

/-! ## Buffers -/

/-- The state of a decoder that waits for a buffer, before the preamble or after it. -/
inductive Idle (loc : Nat → Word) (base : Word) : Bool → List (List Alloc) → UnpickleCtx → Prop where
  | setup : Idle loc base false [] unmarshalSetup
  | between {curs : List (List Alloc)} {uctx : UnpickleCtx} :
      Received loc base (curs.map extent) uctx → uctx.partialData = none →
      Idle loc base true curs uctx

/-- A message that is complete is unmarshalled at once. -/
theorem incrementalUnmarshal_ready (h : Idle loc base ctx.started curs uctx) (hctx : ctx.base = base)
    (haligned : lsbErase base = base) (hbase : base ≠ 0) {message : List Word}
    (hne : message ≠ []) (receiver : Receiver) (fuel : Nat) :
    ∃ ready steps, Received loc base (curs.map extent) ready ∧
      ready.partialData = some message ∧ ready.partCursor = 0 ∧
      incrementalUnmarshal receiver fuel uctx (preamble ctx ++ message) =
        unmarshalReady receiver fuel (steps + 2) ready := by
  have hlen : message.length ≠ 0 := by simpa using hne
  generalize hstarted : ctx.started = started at h
  cases h with
  | setup =>
    have hpreamble : preamble ctx = [marshalMagic, base] := by
      rw [preamble, hstarted, hctx]
      rfl
    refine ⟨{ unmarshalSetup with vaddrStart := base, partialData := some message, partCursor := 0 },
      message.length + 1, ⟨rfl, rfl, rfl⟩, rfl, rfl, ?_⟩
    have hread : readPreamble { unmarshalSetup with
        partialData := some (marshalMagic :: base :: message), partCursor := 0 }
        (marshalMagic :: base :: message) = .ok ({ unmarshalSetup with
          vaddrStart := base, partialData := some message, partCursor := 0 }, true) := by
      unfold readPreamble
      rw [if_neg (by simp only [List.length_cons]; omega), if_neg (by simp)]
      simp only [List.getD_cons_succ, List.getD_cons_zero, haligned, ne_eq, not_true_eq_false,
        if_false, List.drop_succ_cons, List.drop_zero]
      rw [if_neg (by simp only [List.length_cons]; omega)]
    unfold incrementalUnmarshal
    rw [hpreamble]
    show (readPreamble { unmarshalSetup with
      partialData := some (marshalMagic :: base :: message), partCursor := 0 }
      (marshalMagic :: base :: message) >>= _) = _
    rw [hread]
    rfl
  | between hreceived hnone =>
    have hpreamble : preamble ctx = [] := by
      rw [preamble, hstarted]
      rfl
    obtain ⟨k, hk⟩ : ∃ k, message.length = k + 1 := ⟨message.length - 1, by omega⟩
    refine ⟨{ uctx with partialData := some message, partCursor := 0 }, k,
      ⟨hreceived.vaddrStart, hreceived.curRecordEndOffset, hreceived.vaddrInfo⟩, rfl, rfl, ?_⟩
    have hreceive : receiveUnpickleInfo uctx message =
        { uctx with partialData := some message, partCursor := 0 } := by
      rw [receiveUnpickleInfo, hnone]
    unfold incrementalUnmarshal
    rw [hpreamble, List.nil_append, hreceive]
    simp only [hreceived.vaddrStart, if_neg hbase, Option.getD_some, hk]
    rfl

/-- So it is read to its end. -/
theorem unmarshalReady_message {ready uctx₁ uctx₂ : UnpickleCtx} {message : List Word}
    {fuel : Nat} {u : Unpickled}
    (hready : checkUnpickleReadiness ready = .ok (some message, uctx₁))
    (hone : unpickleOne receiver fuel uctx₁ message = .ok (u, uctx₂))
    (hnone : uctx₂.partialData = none) (steps : Nat) :
    unmarshalReady receiver fuel (steps + 2) ready = .ok ([u], uctx₂) := by
  have hlast : unmarshalReady receiver fuel (steps + 1) uctx₂ = .ok ([], uctx₂) := by
    rw [unmarshalReady, checkUnpickleReadiness, hnone]
    rfl
  rw [unmarshalReady, hready]
  show (unpickleOne receiver fuel uctx₁ message >>= _) = _
  rw [hone]
  show (unmarshalReady receiver fuel (steps + 1) uctx₂ >>= _) = _
  rw [hlast]
  rfl

/-- **A message** is unmarshalled to the allocations that it has. -/
theorem incrementalUnmarshal_message (h : Idle receiver.loc base ctx.started curs uctx)
    (hctx : ctx.base = base) (haligned : lsbErase base = base)
    (hmem : ∀ a ∈ curs.flatten ++ obj :: cur, a ∈ heap.allocs)
    (hsmall : extent (curs.flatten ++ obj :: cur) ≤ 65536) {blocks : List (List Word)}
    (hfilled : List.Forall₂
      (fun a block => Filled heap base (curs.flatten ++ obj :: cur) a a.data.length block)
      (obj :: cur) blocks)
    (hplain : ∀ a ∈ obj :: cur, Plain heap base a)
    (hbehind : ∀ a ∈ cur, ∀ word ∈ (newHeader a 0).words, ¬ InWindow base word)
    (hrelocated : ∀ a ∈ cur, ∀ b, heap.findAllocationRecord a.type = some b →
      ∀ k r, r < 65536 → ¬ InWindow base (receiver.loc k + BitVec.ofNat 64 r))
    (hlast : ∀ word ∈ (endHeader 0).words, ¬ InWindow base word) (fuel : Nat)
    (more : List (List Alloc)) :
    ∃ uctx', incrementalUnmarshal receiver fuel uctx (preamble ctx ++ messageWords blocks 0 []) =
        .ok ([⟨receiver.loc curs.length + BitVec.ofNat 64 headerLen, receiver.loc curs.length,
          (obj :: cur).flatMap (copyOf heap receiver.gcGuard
            (address receiver.loc 0 (curs ++ (obj :: cur) :: more)))⟩], uctx') ∧
      Idle receiver.loc base true (curs ++ [obj :: cur]) uctx' := by
  have hbase : base ≠ 0 := by
    rintro rfl
    exact hlast 0 (by decide) (by decide)
  have hblocks := hfilled
  obtain ⟨block, blocks, hfirst, hothers, rfl⟩ :
      ∃ block rest, Filled heap base (curs.flatten ++ obj :: cur) obj obj.data.length block ∧
        List.Forall₂ (fun a block =>
          Filled heap base (curs.flatten ++ obj :: cur) a a.data.length block) cur rest ∧
        blocks = block :: rest := by
    cases hfilled with
    | cons hfirst hothers => exact ⟨_, _, hfirst, hothers, rfl⟩
  -- the message is cut off, and its first record is the one of the object
  obtain ⟨ready, steps, hreceived, hpartial, hcursor, hstart⟩ :=
    incrementalUnmarshal_ready h hctx haligned hbase
      (show messageWords (block :: blocks) 0 [] ≠ [] by simp [messageWords, RecordHdr.words])
      receiver fuel
  have hready := checkUnpickleReadiness_message (by decide) hblocks (Nat.zero_le _) ready hpartial
    hcursor
  have hwhole : messageWords (block :: blocks) 0 ([].take (2 * 0)) =
      block ++ (blocks.flatten ++ (endHeader 0).words) := by
    simp [messageWords]
  rw [hwhole] at hready
  obtain ⟨type, words, htype, hwords, rfl⟩ :=
    hfirst.words (hplain obj List.mem_cons_self).data
  have hsize : 8 * ((newHeader obj type).words ++ words ++ blocks.flatten).length =
      extent (obj :: cur) := by
    have := flatten_length hblocks
    rwa [List.flatten_cons] at this
  have hroom : (curs.map extent).sum + extent (obj :: cur) ≤ 65536 := by
    rw [← extent_flatten]
    rwa [extent, Placement.total_append] at hsmall
  have hwaits : Received receiver.loc base (curs.map extent)
      { ready with partialData := leftOver [] (2 * 0), partCursor := 0 } :=
    ⟨hreceived.vaddrStart, hreceived.curRecordEndOffset, hreceived.vaddrInfo⟩
  obtain ⟨uctx', hone, hreceived', hpartial', -⟩ := unpickleOne_message hwaits hsize hroom
    (fun uctx hdecoding =>
      { first := decoded_of_stands hdecoding haligned hbase hmem htype hwords
          (hplain obj List.mem_cons_self) receiver.gcGuard more
        others := records_of_filled hdecoding haligned hbase hmem hothers
          (fun a ha => hplain a (List.mem_cons_of_mem _ ha)) hbehind hrelocated receiver.gcGuard
          more
        last := fun word hword =>
          reads_of_not_inWindow hdecoding.vaddrStart (hlast word hword) }) fuel
  refine ⟨uctx', ?_, .between ?_ hpartial'⟩
  · rw [hstart, unmarshalReady_message hready hone hpartial', List.length_map, List.flatMap_cons,
      List.flatMap_def]
    rfl
  · rw [List.map_append]
    exact hreceived'

/-! ## Streams -/

theorem mem_of_reaches (hobj : obj ∈ heap.allocs) (h : Reaches heap obj a) :
    a ∈ heap.allocs := by
  cases h with
  | refl => exact hobj
  | tail _ hrefers =>
    obtain ⟨p, -, hfind⟩ := hrefers
    exact Heap.mem_of_find hfind

/-- What a message waits for is reached from its object. -/
theorem Awaits.reaches (h : Awaits heap ctx obj a) :
    Reaches heap obj a ∧ ctx.memos.lookup a.addr = none := by
  induction h with
  | root hnone => exact ⟨.refl, hnone⟩
  | step _ hpoints hnone ih =>
    obtain ⟨p, hp, hfind⟩ := hpoints
    exact ⟨ih.1.tail ⟨p, hp.imp_right And.left, hfind⟩, hnone⟩

/-- What is reached and was not sent yet the message waits for. -/
theorem awaits_of_reaches (h : Between heap ctx lay) (hobj : obj ∈ heap.allocs)
    (hlay : ∀ a ∈ lay, a ∈ heap.allocs ∧ ∀ b, Refers heap a b → b ∈ lay)
    (hclean : ∀ a, Reaches heap obj a → ∀ s ∈ a.data, ¬ InWindow ctx.base s)
    (hreach : Reaches heap obj a) (hnot : a ∉ lay) : Awaits heap ctx obj a := by
  have hmemo : ∀ b ∈ heap.allocs, b ∉ lay → ctx.memos.lookup b.addr = none := by
    rintro b hb hnot
    rw [h.laid.memo_none, startOf, Placement.place_eq_none]
    rintro c hc haddr
    exact hnot (Heap.eq_of_addr (hlay c hc).1 hb haddr ▸ hc)
  induction hreach with
  | refl => exact .root (hmemo obj hobj hnot)
  | @tail a b hreach hrefers ih =>
    have ha : a ∉ lay := fun ha => hnot ((hlay a ha).2 b hrefers)
    have hb := mem_of_reaches hobj (hreach.tail hrefers)
    obtain ⟨p, hp, hfind⟩ := hrefers
    exact .step (ih ha)
      ⟨p, hp.imp_right fun hmem => ⟨hmem, hclean a hreach p hmem⟩, hfind⟩ (hmemo b hb hnot)

/-- The message of an object has all that is reached and was not sent yet. -/
theorem exists_message (h : Between heap ctx lay) (hobj : obj ∈ heap.allocs)
    (hlay : ∀ a ∈ lay, a ∈ heap.allocs ∧ ∀ b, Refers heap a b → b ∈ lay)
    (hclean : ∀ a, Reaches heap obj a → ∀ s ∈ a.data, ¬ InWindow ctx.base s) (hnot : obj ∉ lay)
    (hsmall : ∀ as : List Alloc, as.Nodup → (∀ a ∈ as, Reaches heap obj a) → extent as < 65536)
    (beyond : Nat → Word) :
    ∃ cur blocks ctx', internalMarshal heap beyond ctx obj =
        some (some (preamble ctx ++ messageWords blocks 0 []), ctx') ∧
      cur.head? = some obj ∧ cur.Nodup ∧ (∀ a, a ∈ cur ↔ Reaches heap obj a ∧ a ∉ lay) ∧
      List.Forall₂ (fun a block => Filled heap ctx.base (lay ++ cur) a a.data.length block)
        cur blocks ∧
      Between heap ctx' (lay ++ cur) ∧ ctx'.base = ctx.base ∧ ctx'.started = true := by
  have hroot := awaits_of_reaches h hobj hlay hclean .refl hnot
  obtain ⟨cur, blocks, n, log, hmessage, -, hsend⟩ | ⟨-, a, ha, hlarge⟩ := internalMarshal_new
    beyond h hobj (h.laid.memo_none.mp hroot.reaches.2)
  swap
  · have hlt := hsmall [a] (List.nodup_singleton a) (by simpa using ha.reaches.1)
    exact absurd (recordFits_of_extent (by omega)) hlarge
  obtain rfl : n = 0 := hmessage.patches.mpr fun a ha =>
    hclean a (hmessage.awaits a ha).2.reaches.1
  have hlt := hsmall cur hmessage.fresh.nodup fun a ha => (hmessage.awaits a ha).2.reaches.1
  obtain ⟨tail, ctx', htail, hcall, hnext, hbase, hstarted, -⟩ := hsend
    (sendable_of_extent ctx (by omega))
  obtain rfl : tail = [] := List.eq_nil_of_length_eq_zero htail
  rw [List.append_assoc, List.append_assoc] at hcall
  refine ⟨cur, blocks, ctx', hcall, hmessage.first, hmessage.fresh.nodup, fun a => ⟨?_, ?_⟩,
    hmessage.blocks, hnext, hbase, hstarted⟩
  · intro ha
    obtain ⟨hreach, hnone⟩ := (hmessage.awaits a ha).2.reaches
    refine ⟨hreach, fun halay => ?_⟩
    rw [h.laid.memo_none, startOf, Placement.place_eq_none] at hnone
    exact hnone a halay rfl
  · rintro ⟨hreach, halay⟩
    exact hmessage.complete h (awaits_of_reaches h hobj hlay hclean hreach halay)

theorem reached_concat :
    Reached heap (pre ++ [obj]) a ↔ Reached heap pre a ∨ Reaches heap obj a := by
  simp only [Reached, List.mem_append, List.mem_singleton, or_and_right, exists_or, exists_eq_left]

/-- **The rest of a stream** comes back, by induction on its objects. -/
theorem roundTrips_rest {all : List Alloc} (haligned : lsbErase base = base)
    (hobjs : ∀ obj ∈ all, obj ∈ heap.allocs) (hsmall : Small heap all)
    (hund : Undisturbed heap base receiver all) (beyond : Nat → Word) (fuel : Nat) :
    ∀ (objs pre : List Alloc) (curs : List (List Alloc)) (ctx : PickleCtx) (uctx : UnpickleCtx),
      all = pre ++ objs → Between heap ctx curs.flatten → ctx.base = base →
      Idle receiver.loc base ctx.started curs uctx →
      (∀ a, a ∈ curs.flatten ↔ Reached heap pre a) → curs.flatten.Nodup →
      ∃ messages bufs ctx' uctx', Splits heap curs.flatten objs messages ∧
        marshalAll heap beyond ctx objs = some (bufs, ctx') ∧
        List.Forall₂ (fun b m => b.isSome = m.isSome) bufs messages ∧
        unmarshalAll receiver fuel uctx bufs.reduceOption =
          .ok (copies heap receiver (address receiver.loc 0 (curs ++ messages.reduceOption))
            curs.length messages.reduceOption, uctx') := by
  intro objs
  induction objs with
  | nil =>
    rintro pre curs ctx uctx - - - - - -
    exact ⟨[], [], ctx, uctx, .nil, rfl, .nil, rfl⟩
  | cons obj objs ih =>
    rintro pre curs ctx uctx hall hbetween hbase hidle hreached hnodup
    have hmemAll : obj ∈ all := by simp [hall]
    have hobj := hobjs obj hmemAll
    have hpre : ∀ a, Reached heap pre a → Reached heap all a := by
      rintro a ⟨o, ho, hreach⟩
      exact ⟨o, by simp [hall, ho], hreach⟩
    by_cases hwritten : obj ∈ curs.flatten
    · -- the object was written with an earlier one
      obtain ⟨r, hr⟩ : ∃ r, startOf curs.flatten obj.addr = some r := Placement.place_of_mem hwritten
      have hsame : ∀ a, a ∈ curs.flatten ↔ Reached heap (pre ++ [obj]) a := by
        intro a
        rw [reached_concat, hreached, or_iff_left_of_imp]
        obtain ⟨o, ho, hreach⟩ := (hreached obj).mp hwritten
        exact fun h => ⟨o, ho, hreach.trans h⟩
      obtain ⟨messages, bufs, ctx', uctx', hsplits, hmarshal, hbufs, hunmarshal⟩ :=
        ih (pre ++ [obj]) curs ctx uctx (by simp [hall]) hbetween hbase hidle hsame hnodup
      refine ⟨none :: messages, none :: bufs, ctx', uctx', .again hwritten hsplits, ?_,
        .cons rfl hbufs, hunmarshal⟩
      rw [marshalAll, internalMarshal_written hbetween hr]
      show (marshalAll heap beyond ctx objs >>= _) = _
      rw [hmarshal]
      rfl
    · have hmemLay : ∀ a ∈ curs.flatten, a ∈ heap.allocs ∧ ∀ b, Refers heap a b → b ∈ curs.flatten := by
        intro a ha
        obtain ⟨o, ho, hreach⟩ := (hreached a).mp ha
        exact ⟨mem_of_reaches (hobjs o (by simp [hall, ho])) hreach,
          fun b hrefers => (hreached b).mpr ⟨o, ho, hreach.tail hrefers⟩⟩
      obtain ⟨cur, blocks, ctx₁, hcall, hhead, hcurNodup, hcur, hblocks, hnext, hbase₁, hstarted⟩ :=
        exists_message hbetween hobj hmemLay
          (fun a hreach => hbase ▸ hund.data a ⟨obj, hmemAll, hreach⟩) hwritten
          (fun as hnodup has => hsmall as hnodup fun a ha => ⟨obj, hmemAll, has a ha⟩) beyond
      obtain ⟨cur, rfl⟩ : ∃ rest, cur = obj :: rest := by
        cases cur with
        | nil => cases hhead
        | cons a rest => exact ⟨rest, by rw [Option.some.inj hhead]⟩
      have hflat : (curs ++ [obj :: cur]).flatten = curs.flatten ++ obj :: cur := by simp
      have hreached₁ : ∀ a, a ∈ curs.flatten ++ obj :: cur ↔ Reached heap (pre ++ [obj]) a := by
        intro a
        rw [reached_concat, List.mem_append, hcur, hreached]
        tauto
      have hnodup₁ : (curs.flatten ++ obj :: cur).Nodup :=
        hnodup.append hcurNodup fun a ha ha' => ((hcur a).mp ha').2 ha
      have hreachedAll : ∀ a ∈ curs.flatten ++ obj :: cur, Reached heap all a := by
        intro a ha
        obtain ⟨o, ho, hreach⟩ := (hreached₁ a).mp ha
        exact ⟨o, by rw [hall]; simp at ho ⊢; tauto, hreach⟩
      have hmem₁ : ∀ a ∈ curs.flatten ++ obj :: cur, a ∈ heap.allocs := by
        intro a ha
        obtain ⟨o, ho, hreach⟩ := hreachedAll a ha
        exact mem_of_reaches (hobjs o ho) hreach
      have hbehind : ∀ a ∈ cur, Behind heap all a := by
        intro a ha
        obtain ⟨hreach, hnot⟩ := (hcur a).mp (List.mem_cons_of_mem _ ha)
        refine ⟨pre, obj, objs, hall, hreach, ?_, fun h => hnot ((hreached a).mpr h)⟩
        rintro rfl
        exact (List.nodup_cons.mp hcurNodup).1 ha
      have hroom := hsmall _ hnodup₁ hreachedAll
      have hmessage := incrementalUnmarshal_message hidle hbase haligned hmem₁ hroom.le
        (hbase ▸ hblocks)
        (fun a ha =>
          have hreach := hreachedAll a (List.mem_append_right _ ha)
          ⟨hund.data a hreach, hund.type a hreach⟩)
        (fun a ha => hund.behind a (hbehind a ha))
        (fun a ha b => hund.relocated a b (hbehind a ha))
        (hund.last (List.ne_nil_of_mem hmemAll)) fuel
      obtain ⟨uctx₁, hread₁, hidle₁⟩ := hmessage []
      obtain ⟨messages, bufs, ctx', uctx', hsplits, hmarshal, hbufs, hunmarshal⟩ :=
        ih (pre ++ [obj]) (curs ++ [obj :: cur]) ctx₁ uctx₁ (by simp [hall]) (hflat ▸ hnext)
          (hbase₁.trans hbase) (hstarted ▸ hidle₁) (hflat ▸ hreached₁) (hflat ▸ hnodup₁)
      obtain ⟨uctx₂, hread₂, -⟩ := hmessage messages.reduceOption
      obtain rfl : uctx₁ = uctx₂ := by
        rw [hread₁] at hread₂
        injection hread₂ with hpair
        exact (Prod.mk.inj hpair).2
      rw [hflat] at hsplits
      rw [List.append_assoc, List.singleton_append, List.length_append, List.length_singleton]
        at hunmarshal
      refine ⟨some (obj :: cur) :: messages, some (preamble ctx ++ messageWords blocks 0 []) :: bufs,
        ctx', uctx', .new hwritten rfl hcurNodup hcur hsplits, ?_, .cons rfl hbufs, ?_⟩
      · rw [marshalAll, hcall]
        show (marshalAll heap beyond ctx₁ objs >>= _) = _
        rw [hmarshal]
        rfl
      · rw [List.reduceOption_cons_of_some, List.reduceOption_cons_of_some, unmarshalAll, hread₂]
        show (unmarshalAll receiver fuel uctx₁ bufs.reduceOption >>= _) = _
        rw [hunmarshal]
        rfl

/-- **A stream that is not disturbed makes the round trip**, whatever memory holds behind its
messages and however long the loop over the patches may run. -/
theorem roundTrips {random : Word} (hobjs : ∀ obj ∈ objs, obj ∈ heap.allocs)
    (hsmall : Small heap objs) (hund : Undisturbed heap (lsbErase random) receiver objs)
    (beyond : Nat → Word) (fuel : Nat) : RoundTrips heap random beyond receiver fuel objs := by
  obtain ⟨messages, bufs, ctx, uctx, hsplits, hmarshal, hbufs, hunmarshal⟩ :=
    roundTrips_rest (lsbErase_lsbErase random) hobjs hsmall hund beyond fuel objs [] []
      (marshalSetup random) unmarshalSetup rfl (between_setup heap random) rfl .setup
      (by simp [Reached]) List.nodup_nil
  exact ⟨messages, bufs, ctx, uctx, hsplits, hmarshal, hbufs, hunmarshal⟩

/-- Two allocations with pointers to each other, one of them an interior pointer. -/
def knotHeap : Heap where
  allocs := [⟨0x10000, 0, true, true, (5, 6), [0x20038, 7], by decide⟩,
    ⟨0x20000, 0, true, false, (0, 0), [0x10000, 42], by decide⟩]
  apart := by decide
  addressable := by decide

def plainReceiver : Receiver :=
  ⟨0x6c78f5d2a0b4e397, fun _ => 0x7fff00001000, fun _ _ => 0⟩

theorem roundTrips_knot :
    RoundTrips knotHeap 0x555512345678 (fun _ => 0) plainReceiver 0 knotHeap.allocs := by
  have hmem : ∀ a, Reached knotHeap knotHeap.allocs a → a ∈ knotHeap.allocs := by
    rintro a ⟨obj, hobj, hreach⟩
    exact mem_of_reaches hobj hreach
  have hbehind : ∀ a, Behind knotHeap knotHeap.allocs a → a ∈ knotHeap.allocs := by
    rintro a ⟨pre, obj, post, hsplit, hreach, -⟩
    exact hmem a ⟨obj, by simp [hsplit], hreach⟩
  have htypes : ∀ a ∈ knotHeap.allocs, knotHeap.findAllocationRecord a.type = none := by decide
  have hclean : ∀ a ∈ knotHeap.allocs, ¬ InWindow (lsbErase 0x555512345678) a.type := by
    decide
  have hdata : ∀ a ∈ knotHeap.allocs, ∀ s ∈ a.data, ¬ InWindow (lsbErase 0x555512345678) s := by
    simp only [← List.all_iff_forall_prop]
    decide
  have hwords : ∀ a ∈ knotHeap.allocs, ∀ word ∈ (newHeader a 0).words,
      ¬ InWindow (lsbErase 0x555512345678) word := by
    simp only [← List.all_iff_forall_prop]
    decide
  refine roundTrips (fun _ h => h) ?_ ⟨?_, ?_, ?_, ?_, ?_⟩ _ _
  · rintro as hnodup has
    have hlt : extent knotHeap.allocs < 65536 := by decide
    have hle : extent as ≤ extent knotHeap.allocs :=
      Placement.total_le_of_subset hnodup fun a ha => hmem a (has a ha)
    exact hle.trans_lt hlt
  · exact fun a ha => hdata a (hmem a ha)
  · exact fun a ha _ => hclean a (hmem a ha)
  · exact fun _ => List.all_iff_forall_prop.mp (by decide)
  · exact fun a ha => hwords a (hbehind a ha)
  · intro a b ha hfind
    rw [htypes a (hbehind a ha)] at hfind
    cases hfind

/-! ## An end record that is taken for an address -/

def bareAlloc : Alloc :=
  ⟨0x10000, 0, false, false, (0, 0), [], by decide⟩

/-- The heap of `bareAlloc`. -/
def bareHeap : Heap where
  allocs := [bareAlloc]
  apart := by simp
  addressable := by decide

/-- The message for `bareAlloc`. -/
def bareMessage : List Word :=
  (newHeader bareAlloc 0).words ++ (endHeader 0).words

/-- What `n00b_unmarshal_records` leaves of it: the length of the end record, 0x0001eeee00000000
with its line and its mark, is an address. -/
def bareRead : List Word :=
  { newHeader bareAlloc 0 with guard := plainReceiver.gcGuard }.words ++
    [marshalRecordGuard, 0, 0, 0x7fff00001000, 0, 0]

def bareCtx : UnpickleCtx :=
  { unmarshalSetup with vaddrStart := 0x1eeee00000000 }

theorem checkUnpickleReadiness_bare :
    checkUnpickleReadiness { bareCtx with partialData := some bareMessage } =
      .ok (some bareMessage, bareCtx) := by
  decide

theorem unmarshalRecords_bare :
    unmarshalRecords plainReceiver.gcGuard (readingCtx plainReceiver bareCtx 6) 6
      (bareMessage.length + 1) 0 bareMessage = .ok bareRead := by
  decide

theorem readPreamble_bare :
    readPreamble { unmarshalSetup with
        partialData := some (marshalMagic :: 0x1eeee00000000 :: bareMessage) }
      (marshalMagic :: 0x1eeee00000000 :: bareMessage) =
        .ok ({ bareCtx with partialData := some bareMessage }, true) := by
  decide

theorem unpickleOne_bare (fuel : Nat) (r : Unpickled × UnpickleCtx) :
    unpickleOne plainReceiver fuel bareCtx bareMessage ≠ .ok r := by
  have hfind : findEndRecord bareMessage = some 6 := by decide
  have hcount : allocLenOf (bareRead.getD (6 + 3) 0) / 16 ≠ 0 := by decide
  rw [unpickleOne_eq fuel hfind unmarshalRecords_bare, performUnmarshalBackpatching]
  cases hloop : backpatchLoop (readingCtx plainReceiver bareCtx 6)
      (plainReceiver.beyond bareCtx.vaddrInfo.length) fuel
      (allocLenOf (bareRead.getD (6 + 3) 0) / 16) (6 + 6) bareRead with
  | error e => simp [Except.map]
  | ok b => exact absurd hloop (not_performsBackpatching _ _ fuel _ _ _ b hcount)

theorem incrementalUnmarshal_bare (fuel : Nat) (r : List Unpickled × UnpickleCtx) :
    incrementalUnmarshal plainReceiver fuel unmarshalSetup
      (marshalMagic :: 0x1eeee00000000 :: bareMessage) ≠ .ok r := by
  unfold incrementalUnmarshal
  show (readPreamble { unmarshalSetup with
        partialData := some (marshalMagic :: 0x1eeee00000000 :: bareMessage) }
      (marshalMagic :: 0x1eeee00000000 :: bareMessage) >>= _) ≠ _
  rw [readPreamble_bare]
  show unmarshalReady plainReceiver fuel _ { bareCtx with partialData := some bareMessage } ≠ _
  rw [unmarshalReady, checkUnpickleReadiness_bare]
  show (unpickleOne plainReceiver fuel bareCtx bareMessage >>= _) ≠ _
  cases hone : unpickleOne plainReceiver fuel bareCtx bareMessage with
  | error e => exact fun h => by cases h
  | ok r => exact absurd hone (unpickleOne_bare fuel r)

/-- The heap and its object are as the encoder expects them, and yet the decoder never hands the
object out. -/
theorem not_roundTrips_bare :
    Small bareHeap [bareAlloc] ∧
      (∀ a, Reached bareHeap [bareAlloc] a → ∀ word ∈ (newHeader a a.type).words ++ a.data,
        ¬ InWindow (lsbErase 0x1eeee00000000) word) ∧
      ¬ ∃ fuel, RoundTrips bareHeap 0x1eeee00000000 (fun _ => 0) plainReceiver fuel [bareAlloc] := by
  have hmem : ∀ a, Reached bareHeap [bareAlloc] a → a ∈ bareHeap.allocs := by
    rintro a ⟨obj, hobj, hreach⟩
    exact mem_of_reaches hobj hreach
  refine ⟨?_, ?_, ?_⟩
  · rintro as hnodup has
    have hlt : extent bareHeap.allocs < 65536 := by decide
    have hle : extent as ≤ extent bareHeap.allocs :=
      Placement.total_le_of_subset hnodup fun a ha => hmem a (has a ha)
    exact hle.trans_lt hlt
  · rintro a ha
    obtain rfl := List.mem_singleton.mp (hmem a ha)
    exact List.all_iff_forall_prop.mp (by decide)
  · rintro ⟨fuel, messages, bufs, ctx, uctx, -, hmarshal, -, hunmarshal⟩
    have hbufs : (marshalAll bareHeap (fun _ => 0) (marshalSetup 0x1eeee00000000) [bareAlloc]).map
        Prod.fst = some [some (marshalMagic :: 0x1eeee00000000 :: bareMessage)] := by decide
    rw [hmarshal, Option.map_some] at hbufs
    obtain rfl := Option.some.inj hbufs
    rw [List.reduceOption_cons_of_some, unmarshalAll] at hunmarshal
    cases hread : incrementalUnmarshal plainReceiver fuel unmarshalSetup
        (marshalMagic :: 0x1eeee00000000 :: bareMessage) with
    | error e =>
      rw [hread] at hunmarshal
      cases hunmarshal
    | ok r => exact incrementalUnmarshal_bare fuel r hread

end N00b.Marshal
