import Mathlib

/-!
# Collections

What a collection does to the state of the collector: `n00b_add_arena` of core/heap_alloc.nc,
`get_next_heap_request_len` to `n00b_heap_collect` of core/heap_collect.nc, and the entry and exit of
`n00b_heap_deep_copy` of util/deep_copy.nc.

Which allocations the trace reaches is a parameter, since the words in memory are no part of the
state; so are the addresses of new arenas. An allocation is known by its heap, the place of its arena
in the heap and its place in the arena. The counters that a heap keeps for statistics are left out,
and with them what a build that logs its collections does for its messages: their strings, and the
assertion that some allocation was left behind.

## Main results

* `heapCollect_cases`: what a call of `n00b_heap_collect` does, as one of two outcomes.
-/

namespace N00b.Gc

/-! ## State -/

/-- The header fields of an allocation that a collection uses. -/
structure AllocHdr where
  allocLen : Nat
  traced : Bool
deriving DecidableEq, Repr

/-- `n00b_arena_t`, with the allocations in it. -/
structure HeapArena where
  addrStart : Nat
  userLength : Nat
  lastIssued : Nat
  allocs : List AllocHdr
deriving DecidableEq, Repr

/-- `addr_end`. -/
def HeapArena.addrEnd (a : HeapArena) : Nat :=
  a.addrStart + a.userLength

/-- `n00b_heap_t`. `arenas` is the list from `first_arena` on; its last is `newest_arena`. -/
structure Heap where
  arenas : List HeapArena
  nextAlloc : Nat
  pinned : Bool
  expand : Bool
deriving DecidableEq, Repr

abbrev HeapId := Nat

/-- `n00b_to_space`. -/
def toSpace : HeapId := 1

/-- `long_term_pins`. -/
def longTermPins : HeapId := 2

/-- The state of the collector: `__n00b_collector_running`, `__n00b_current_from_space`,
`n00b_collection_suspended` and the heaps. -/
structure GcState where
  collectorRunning : Int
  currentFromSpace : Option HeapId
  collectionSuspended : Bool
  heaps : HeapId → Heap

/-- The parts of a build and its machine that matter here: `N00B_DLOG_GC_ON` in a debug build, and
the page size. -/
structure Build where
  dlogGc : Bool
  pageBytes : Nat
deriving DecidableEq, Repr

def GcState.setHeap (s : GcState) (id : HeapId) (h : Heap) : GcState :=
  { s with heaps := Function.update s.heaps id h }

@[simp] theorem GcState.setHeap_self (s : GcState) (id : HeapId) (h : Heap) :
    (s.setHeap id h).heaps id = h :=
  Function.update_self ..

/-- Changing one heap leaves the others. -/
theorem GcState.setHeap_of_ne (s : GcState) {id j : HeapId} (h : Heap) (hj : j ≠ id) :
    (s.setHeap id h).heaps j = s.heaps j :=
  Function.update_of_ne hj ..

/-! ## Arenas -/

/-- The length that `n00b_add_arena` asks for. -/
def arenaLen (build : Build) (expand : Bool) (byteLen : Nat) : Nat :=
  let byteLen :=
    if byteLen % build.pageBytes ≠ 0 then
      byteLen / build.pageBytes * build.pageBytes + build.pageBytes
    else byteLen
  if expand then 2 * byteLen else byteLen

/-- `n00b_add_arena`, at the address `addr`. -/
def Heap.addArena (build : Build) (h : Heap) (byteLen addr : Nat) : Heap :=
  let len := arenaLen build h.expand byteLen
  { h with
    arenas := h.arenas.modify (h.arenas.length - 1)
      (fun last => { last with lastIssued := h.nextAlloc }) ++ [⟨addr, len, addr + len, []⟩]
    nextAlloc := addr }

/-- An allocation of `len` bytes, header and padding included, for which the newest arena has room:
the part of `_n00b_heap_alloc` behind its loop. The `alloc_len` of a header is an `int32_t`, so an
allocation stays below 2^31 bytes. -/
def Heap.alloc (h : Heap) (len : Nat) : Option Heap :=
  match h.arenas.getLast? with
  | none => none
  | some newest =>
    if h.nextAlloc < newest.addrStart ∨ newest.addrEnd ≤ h.nextAlloc + len then none
    else some { h with
      arenas := h.arenas.modify (h.arenas.length - 1) fun a =>
        { a with allocs := a.allocs ++ [⟨len, false⟩] }
      nextAlloc := h.nextAlloc + len }

/-! ## Collections -/

abbrev Trace := HeapId → Nat → Nat → Bool

def HeapArena.mapAllocs (f : Nat → AllocHdr → AllocHdr) (a : HeapArena) : HeapArena :=
  { a with allocs := a.allocs.mapIdx f }

def Heap.mapAllocs (f : Nat → Nat → AllocHdr → AllocHdr) (h : Heap) : Heap :=
  { h with arenas := h.arenas.mapIdx fun k a => a.mapAllocs (f k) }

/-- The allocations that `new_alloc_reached` is called on: those reached without `n00b_traced`. -/
def newlyReached (s : GcState) (trace : Trace) : Trace := fun id k i =>
  trace id k i &&
    !(((((s.heaps id).arenas[k]?).bind fun a => a.allocs[i]?).map AllocHdr.traced).getD false)

/-- `new_alloc_reached` on each of them. -/
def GcState.markTraced (s : GcState) (reached : Trace) : GcState :=
  { s with heaps := fun id => (s.heaps id).mapAllocs fun k i hdr =>
      if reached id k i then { hdr with traced := true } else hdr }

/-- `cleanup_work_lists`: the allocations out of the collected heap that were marked. -/
def GcState.cleanupWorkLists (s : GcState) (reached : Trace) (fromSpace : HeapId) : GcState :=
  { s with heaps := fun id => (s.heaps id).mapAllocs fun k i hdr =>
      if reached id k i ∧ id ≠ fromSpace then { hdr with traced := false } else hdr }

def copied (h : Heap) (reached : Nat → Nat → Bool) : List AllocHdr :=
  (h.arenas.mapIdx fun k a =>
    (a.allocs.mapIdx fun i hdr => if reached k i then [hdr] else []).flatten).flatten

/-- `initialize_dst_alloc` on each of them: the next free address, and the headers of the copies. -/
def copyAll (nextAlloc : Nat) : List AllocHdr → Nat × List AllocHdr
  | [] => (nextAlloc, [])
  | hdr :: hdrs =>
    let (next, copies) := copyAll (nextAlloc + hdr.allocLen) hdrs
    (next, ⟨hdr.allocLen, false⟩ :: copies)

/-- `get_next_heap_request_len`: the first turn of its loop is the last. -/
def getNextHeapRequestLen (h : Heap) (allocRequest : Nat) : Nat :=
  let result := (h.arenas.head?.map fun a => a.lastIssued - a.addrStart).getD 0
  let result := if h.expand then 2 * result else result
  result * 8 + allocRequest

/-- The head of `setup_collection`: the newest arena learns how far it was used. -/
def Heap.setLastIssued (h : Heap) : Heap :=
  { h with arenas := h.arenas.modify (h.arenas.length - 1) fun a =>
      { a with lastIssued := h.nextAlloc } }

/-- `setup_collection`, with the address of the arena for the copies. -/
def setupCollection (build : Build) (s : GcState) (id : HeapId) (request addr : Nat) : GcState :=
  let h := (s.heaps id).setLastIssued
  let arenaLen := getNextHeapRequestLen h request
  let s := { s with currentFromSpace := some id }
  let s := s.setHeap id { h with expand := false }
  s.setHeap toSpace ((s.heaps toSpace).addArena build arenaLen addr)

/-- `n00b_heap_clear` and `make_to_space_our_space` of `finish_collection`, and the flag that it
sets. -/
def makeToSpaceOurSpace (s : GcState) (id : HeapId) (copies : Nat × List AllocHdr) : GcState :=
  let h := s.heaps id
  let arenas := (s.heaps toSpace).arenas.modify ((s.heaps toSpace).arenas.length - 1) fun a =>
    { a with allocs := copies.2 }
  let total := (arenas.head?.map HeapArena.userLength).getD 0
  let used := copies.1 - (arenas.head?.map HeapArena.addrStart).getD 0
  let h := { h with
    arenas, nextAlloc := copies.1, expand := h.expand || decide (used * 4 < total) }
  (s.setHeap id h).setHeap toSpace { s.heaps toSpace with arenas := [] }

/-- `n00b_heap_collect`. There is no result where a heap without arenas makes it read from a null
pointer. -/
def heapCollect (build : Build) (s : GcState) (id : HeapId) (request addr : Nat) (trace : Trace) :
    Option GcState :=
  match (s.heaps id).arenas with
  | [] => none
  | first :: _ =>
    if (s.heaps id).pinned ∨ s.collectorRunning ≠ 0 then
      some (s.setHeap id ((s.heaps id).addArena build first.userLength addr))
    else
      let s := { s with collectorRunning := s.collectorRunning + 1 }
      let s := setupCollection build s id request addr
      let reached := newlyReached s trace
      let copies := copyAll addr (copied (s.heaps id) (reached id))
      let s := s.markTraced reached
      let s := s.cleanupWorkLists reached id
      let s := makeToSpaceOurSpace s id copies
      if build.dlogGc then
        some { s with currentFromSpace := none, collectorRunning := s.collectorRunning - 1 }
      else some s

/-! ## Calls -/

/-- What a program does to a heap between collections. `moveToPins` is the part of
`n00b_long_term_pin` behind its collection. -/
inductive Work where
  | alloc (id : HeapId) (len : Nat)
  | addArena (id : HeapId) (byteLen addr : Nat)
  | flags (id : HeapId) (pinned expand : Bool)
  | moveToPins (id : HeapId) (addr : Nat)
deriving DecidableEq, Repr

def Work.heap : Work → HeapId
  | .alloc id _ => id
  | .addArena id _ _ => id
  | .flags id _ _ => id
  | .moveToPins id _ => id

/-- `n00b_long_term_pin` behind its collection. -/
def GcState.moveToPins (build : Build) (s : GcState) (id : HeapId) (addr : Nat) : Option GcState :=
  match (s.heaps id).arenas.getLast? with
  | none => none
  | some newest =>
    let moved := (s.heaps id).setLastIssued
    let pins := s.heaps longTermPins
    let s := s.setHeap longTermPins
      { pins with arenas := pins.arenas ++ moved.arenas, nextAlloc := moved.nextAlloc }
    some (s.setHeap id ({ moved with arenas := [] }.addArena build newest.userLength addr))

/-- There is no result where an arena has no room or a heap has no arena. The two heaps of the
collector are used by it only. -/
def GcState.work (build : Build) (s : GcState) (w : Work) : Option GcState :=
  if w.heap = toSpace ∨ w.heap = longTermPins then none
  else match w with
    | .alloc id len => ((s.heaps id).alloc len).map (s.setHeap id)
    | .addArena id byteLen addr => some (s.setHeap id ((s.heaps id).addArena build byteLen addr))
    | .flags id pinned expand => some (s.setHeap id { s.heaps id with pinned, expand })
    | .moveToPins id addr => s.moveToPins build id addr

/-- `n00b_heap_deep_copy`: `srcHeap` is the heap that `n00b_addr_find_heap` finds, and `works` are
the allocations for the copy, which are made while collections are suspended. -/
def heapDeepCopy (build : Build) (s : GcState) (srcHeap : Option HeapId) (works : List Work) :
    Option GcState :=
  let s := { s with collectionSuspended := true }
  match srcHeap with
  | none => some s
  | some _ => do
    let s ← works.foldlM (fun s w => s.work build w) s
    some { s with collectionSuspended := false }

inductive Call where
  | work (w : Work)
  | collect (id : HeapId) (request addr : Nat) (trace : Trace)
  | deepCopy (srcHeap : Option HeapId) (works : List Work)

def GcState.step (build : Build) (s : GcState) : Call → Option GcState
  | .work w => s.work build w
  | .collect id request addr trace => heapCollect build s id request addr trace
  | .deepCopy srcHeap works => heapDeepCopy build s srcHeap works

structure Ready (s : GcState) : Prop where
  collectorRunning : s.collectorRunning = 0
  currentFromSpace : s.currentFromSpace = none
  collectionSuspended : s.collectionSuspended = false
  untraced : ∀ id, ∀ a ∈ (s.heaps id).arenas, ∀ hdr ∈ a.allocs, hdr.traced = false
  toSpaceEmpty : (s.heaps toSpace).arenas = []

/-- A collection of a heap that is not pinned leaves it one arena, the one of the copies. -/
def ReallyCollects (s s' : GcState) : Call → Prop
  | .collect id _ addr _ => (s.heaps id).pinned = false →
      ((s'.heaps id).arenas.map HeapArena.addrStart) = [addr]
  | _ => True

/-- Every call of the sequence leaves the collector ready, and the collections collect. -/
def AlwaysReady (build : Build) : GcState → List Call → Prop
  | _, [] => True
  | s, c :: cs => ∀ s', s.step build c = some s' →
      Ready s' ∧ ReallyCollects s s' c ∧ AlwaysReady build s' cs

/-- The collected heap is pinned, and the copied address lies in a heap. -/
def Harmless (s : GcState) : Call → Prop
  | .work _ => True
  | .collect id _ _ _ => (s.heaps id).pinned = true
  | .deepCopy srcHeap _ => srcHeap.isSome = true

/-- Every call of the sequence that returns is harmless. -/
def AlwaysHarmless (build : Build) : GcState → List Call → Prop
  | _, [] => True
  | s, c :: cs => ∀ s', s.step build c = some s' → Harmless s c ∧ AlwaysHarmless build s' cs

variable {build : Build} {s s' : GcState} {id : HeapId} {h h' : Heap}

/-! ## Heaps -/

def Heap.Untraced (h : Heap) : Prop :=
  ∀ a ∈ h.arenas, ∀ hdr ∈ a.allocs, hdr.traced = false

/-- An element of a modified list is an old one or a modified old one. -/
theorem mem_modify {α : Type} {l : List α} {k : Nat} {f : α → α} {b : α} (h : b ∈ l.modify k f) :
    b ∈ l ∨ ∃ a ∈ l, b = f a := by
  obtain ⟨i, hi, rfl⟩ := List.getElem_of_mem h
  rw [List.getElem_modify]
  split
  · exact Or.inr ⟨_, List.getElem_mem _, rfl⟩
  · exact Or.inl (List.getElem_mem _)

/-- A new arena has no traced headers. -/
theorem Heap.Untraced.addArena (hh : h.Untraced) (byteLen addr : Nat) :
    (h.addArena build byteLen addr).Untraced := by
  rintro a ha hdr hhdr
  rcases List.mem_append.mp ha with ha | ha
  · rcases mem_modify ha with ha | ⟨b, hb, rfl⟩
    · exact hh a ha hdr hhdr
    · exact hh b hb hdr hhdr
  · obtain rfl := List.mem_singleton.mp ha
    simp at hhdr

/-- A new allocation is not traced. -/
theorem Heap.Untraced.alloc {len : Nat} (hh : h.Untraced) (halloc : h.alloc len = some h') :
    h'.Untraced := by
  unfold Heap.alloc at halloc
  split at halloc
  · cases halloc
  · split at halloc
    · cases halloc
    · cases halloc
      rintro a ha hdr hhdr
      rcases mem_modify ha with ha | ⟨b, hb, rfl⟩
      · exact hh a ha hdr hhdr
      · rcases List.mem_append.mp hhdr with hhdr | hhdr
        · exact hh b hb hdr hhdr
        · rw [List.mem_singleton.mp hhdr]

/-- Changing headers without tracing any keeps them untraced. -/
theorem Heap.Untraced.mapAllocs {f : Nat → Nat → AllocHdr → AllocHdr} (hh : h.Untraced)
    (hf : ∀ k i hdr, hdr.traced = false → (f k i hdr).traced = false) :
    (h.mapAllocs f).Untraced := by
  rintro a ha hdr hhdr
  obtain ⟨k, hk, rfl⟩ := List.mem_mapIdx.mp ha
  obtain ⟨i, hi, rfl⟩ := List.mem_mapIdx.mp hhdr
  exact hf k i _ (hh _ (List.getElem_mem hk) _ (List.getElem_mem hi))

/-! ## What keeps the collector ready -/

/-- The part of `Ready` that is about the heaps. -/
structure HeapsReady (s : GcState) : Prop where
  untraced : ∀ id, (s.heaps id).Untraced
  toSpaceEmpty : (s.heaps toSpace).arenas = []

/-- A ready state has ready heaps. -/
theorem Ready.heapsReady (hs : Ready s) : HeapsReady s :=
  ⟨hs.untraced, hs.toSpaceEmpty⟩

/-- An untraced heap may replace any but the to-space. -/
theorem HeapsReady.setHeap (hs : HeapsReady s) (hne : id ≠ toSpace) (hh : h.Untraced) :
    HeapsReady (s.setHeap id h) where
  untraced := by
    intro j
    by_cases hj : j = id
    · subst hj
      rw [GcState.setHeap_self]
      exact hh
    · rw [GcState.setHeap_of_ne s _ hj]
      exact hs.untraced j
  toSpaceEmpty := by
    rw [GcState.setHeap_of_ne s _ hne.symm]
    exact hs.toSpaceEmpty

/-- The last-issued mark does not trace headers. -/
theorem Heap.Untraced.setLastIssued (hh : h.Untraced) : h.setLastIssued.Untraced := by
  rintro a ha hdr hhdr
  rcases mem_modify ha with ha | ⟨b, hb, rfl⟩
  · exact hh a ha hdr hhdr
  · exact hh b hb hdr hhdr

/-- One piece of work allocates, adds an arena, sets a flag or moves a heap to the pins. -/
theorem work_cases {w : Work} (hw : s.work build w = some s') :
    w.heap ≠ toSpace ∧ w.heap ≠ longTermPins ∧
      ((∃ h, s' = s.setHeap w.heap h ∧
          ((∃ len, (s.heaps w.heap).alloc len = some h) ∨
            (∃ byteLen addr, h = (s.heaps w.heap).addArena build byteLen addr) ∨
            (∃ pinned expand, h = { s.heaps w.heap with pinned, expand }))) ∨
        ∃ addr, s.moveToPins build w.heap addr = some s') := by
  unfold GcState.work at hw
  split at hw
  · cases hw
  next hheap =>
    obtain ⟨hspace, hpins⟩ := not_or.mp hheap
    refine ⟨hspace, hpins, ?_⟩
    cases w with
    | alloc id len =>
      obtain ⟨h', halloc, rfl⟩ := Option.map_eq_some_iff.mp hw
      exact .inl ⟨h', rfl, .inl ⟨len, halloc⟩⟩
    | addArena id byteLen addr =>
      cases hw
      exact .inl ⟨_, rfl, .inr (.inl ⟨byteLen, addr, rfl⟩)⟩
    | flags id pinned expand =>
      cases hw
      exact .inl ⟨_, rfl, .inr (.inr ⟨pinned, expand, rfl⟩)⟩
    | moveToPins id addr => exact .inr ⟨addr, hw⟩

/-- Moving a heap to the pins keeps the heaps ready. -/
theorem HeapsReady.moveToPins (hs : HeapsReady s) (hne : id ≠ toSpace) {addr : Nat}
    (hmove : s.moveToPins build id addr = some s') :
    HeapsReady s' ∧ s'.collectorRunning = s.collectorRunning ∧
      s'.currentFromSpace = s.currentFromSpace ∧
      s'.collectionSuspended = s.collectionSuspended := by
  unfold GcState.moveToPins at hmove
  split at hmove
  · cases hmove
  · cases hmove
    refine ⟨(hs.setHeap (by decide) ?_).setHeap hne ?_, rfl, rfl, rfl⟩
    · rintro a ha
      rcases List.mem_append.mp ha with ha | ha
      · exact hs.untraced longTermPins a ha
      · exact (hs.untraced id).setLastIssued a ha
    · refine Heap.Untraced.addArena ?_ _ _
      rintro a ha
      cases ha

/-- One piece of work keeps the heaps ready and the collector's counters. -/
theorem work_spec {w : Work} (hs : HeapsReady s) (hw : s.work build w = some s') :
    HeapsReady s' ∧ s'.collectorRunning = s.collectorRunning ∧
      s'.currentFromSpace = s.currentFromSpace ∧
      s'.collectionSuspended = s.collectionSuspended := by
  obtain ⟨hne, -, ⟨h, rfl, hcases⟩ | ⟨addr, hmove⟩⟩ := work_cases hw
  · refine ⟨hs.setHeap hne ?_, rfl, rfl, rfl⟩
    rcases hcases with ⟨len, halloc⟩ | ⟨byteLen, addr, rfl⟩ | ⟨pinned, expand, rfl⟩
    · exact (hs.untraced _).alloc halloc
    · exact (hs.untraced _).addArena _ _
    · exact hs.untraced _
  · exact hs.moveToPins hne hmove

/-- Any work keeps the heaps ready and the collector's counters. -/
theorem works_spec {works : List Work} (hs : HeapsReady s)
    (hw : works.foldlM (fun s w => s.work build w) s = some s') :
    HeapsReady s' ∧ s'.collectorRunning = s.collectorRunning ∧
      s'.currentFromSpace = s.currentFromSpace := by
  induction works generalizing s with
  | nil =>
    cases hw
    exact ⟨hs, rfl, rfl⟩
  | cons w works ih =>
    rw [List.foldlM_cons] at hw
    obtain ⟨s₁, hone, hrest⟩ := Option.bind_eq_some_iff.mp hw
    obtain ⟨hs₁, hrunning₁, hspace₁, -⟩ := work_spec hs hone
    obtain ⟨hs', hrunning, hspace⟩ := ih hs₁ hrest
    exact ⟨hs', hrunning.trans hrunning₁, hspace.trans hspace₁⟩

/-- Changing the headers twice is changing them once by both. -/
theorem Heap.mapAllocs_mapAllocs (f g : Nat → Nat → AllocHdr → AllocHdr) :
    (h.mapAllocs f).mapAllocs g = h.mapAllocs fun k i hdr => g k i (f k i hdr) := by
  simp [Heap.mapAllocs, HeapArena.mapAllocs, List.mapIdx_mapIdx, Function.comp_def]

/-- Copied headers are not traced. -/
theorem copyAll_untraced (nextAlloc : Nat) (hdrs : List AllocHdr) :
    ∀ hdr ∈ (copyAll nextAlloc hdrs).2, hdr.traced = false := by
  induction hdrs generalizing nextAlloc with
  | nil => simp [copyAll]
  | cons hdr hdrs ih =>
    rintro copy hcopy
    rcases List.mem_cons.mp hcopy with rfl | hcopy
    · rfl
    · exact ih _ copy hcopy

/-- The cleanup takes the trace marks from every heap but the from-space. -/
theorem cleanupWorkLists_markTraced (hs : (s.heaps id).Untraced) (reached : Trace)
    {fromSpace : HeapId} (hne : id ≠ fromSpace) :
    (((s.markTraced reached).cleanupWorkLists reached fromSpace).heaps id).Untraced := by
  show (((s.heaps id).mapAllocs _).mapAllocs _).Untraced
  rw [Heap.mapAllocs_mapAllocs]
  refine hs.mapAllocs fun k i hdr hhdr => ?_
  by_cases hreached : reached id k i = true
  · simp [hreached, hne]
  · simp [hreached, hhdr]

/-! ## Collections -/

/-- The setup gives the to-space one arena. -/
theorem setupCollection_toSpace (hs : (s.heaps toSpace).arenas = []) (hne : id ≠ toSpace)
    (build : Build) (request addr : Nat) :
    ∃ len, len = arenaLen build (s.heaps toSpace).expand
        (getNextHeapRequestLen (s.heaps id).setLastIssued request) ∧
      ((setupCollection build s id request addr).heaps toSpace).arenas =
        [⟨addr, len, addr + len, []⟩] := by
  refine ⟨_, rfl, ?_⟩
  rw [setupCollection, GcState.setHeap_self, GcState.setHeap_of_ne _ _ hne.symm]
  show ((s.heaps toSpace).addArena build _ addr).arenas = _
  rw [Heap.addArena, hs]
  rfl

/-- The setup traces no header of the other heaps. -/
theorem setupCollection_untraced (hs : HeapsReady s) (request addr : Nat) {j : HeapId}
    (hj : j ≠ id) : ((setupCollection build s id request addr).heaps j).Untraced := by
  rw [setupCollection]
  by_cases hspace : j = toSpace
  · subst hspace
    rw [GcState.setHeap_self, GcState.setHeap_of_ne _ _ hj]
    exact (hs.untraced toSpace).addArena _ _
  · rw [GcState.setHeap_of_ne _ _ hspace, GcState.setHeap_of_ne _ _ hj]
    exact hs.untraced j

/-- Taking the to-space over leaves the heaps ready. -/
theorem makeToSpaceOurSpace_spec (hne : id ≠ toSpace) {a : HeapArena}
    (ha : (s.heaps toSpace).arenas = [a]) (hs : ∀ j, j ≠ id → (s.heaps j).Untraced)
    {copies : Nat × List AllocHdr} (hcopies : ∀ hdr ∈ copies.2, hdr.traced = false) :
    HeapsReady (makeToSpaceOurSpace s id copies) ∧
      ((makeToSpaceOurSpace s id copies).heaps id).arenas = [{ a with allocs := copies.2 }] := by
  have harenas : ((makeToSpaceOurSpace s id copies).heaps id).arenas =
      [{ a with allocs := copies.2 }] := by
    rw [makeToSpaceOurSpace, GcState.setHeap_of_ne _ _ hne, GcState.setHeap_self, ha]
    rfl
  refine ⟨⟨fun j => ?_, ?_⟩, harenas⟩
  · by_cases hj : j = id
    · subst hj
      rw [Heap.Untraced, harenas]
      rintro b hb hdr hhdr
      obtain rfl := List.mem_singleton.mp hb
      exact hcopies hdr hhdr
    · by_cases hspace : j = toSpace
      · subst hspace
        rw [makeToSpaceOurSpace, GcState.setHeap_self]
        rintro b hb
        cases hb
      · rw [makeToSpaceOurSpace, GcState.setHeap_of_ne _ _ hspace, GcState.setHeap_of_ne _ _ hj]
        exact hs j hj
  · rw [makeToSpaceOurSpace, GcState.setHeap_self]

/-- **What a call of `n00b_heap_collect` does**: a new arena and nothing else, or a collection,
which leaves `__n00b_collector_running` and `__n00b_current_from_space` as they are during one
unless the build logs collections. -/
theorem heapCollect_cases (hs : HeapsReady s) {request addr : Nat} {trace : Trace}
    (hcollect : heapCollect build s id request addr trace = some s') :
    id ≠ toSpace ∧ HeapsReady s' ∧ s'.collectionSuspended = s.collectionSuspended ∧
      ((((s.heaps id).pinned = true ∨ s.collectorRunning ≠ 0) ∧
          s'.collectorRunning = s.collectorRunning ∧ s'.currentFromSpace = s.currentFromSpace) ∨
        ((s.heaps id).pinned = false ∧ s.collectorRunning = 0 ∧
          s'.collectorRunning = (if build.dlogGc then 0 else 1) ∧
          s'.currentFromSpace = (if build.dlogGc then none else some id) ∧
          (s'.heaps id).arenas.map HeapArena.addrStart = [addr])) := by
  unfold heapCollect at hcollect
  split at hcollect
  · cases hcollect
  next first _ harenas =>
    have hne : id ≠ toSpace := by
      rintro rfl
      rw [hs.toSpaceEmpty] at harenas
      cases harenas
    refine ⟨hne, ?_⟩
    split at hcollect
    next hskip =>
      cases hcollect
      exact ⟨hs.setHeap hne ((hs.untraced id).addArena _ _), rfl, .inl ⟨hskip, rfl, rfl⟩⟩
    next hreally =>
      obtain ⟨hpinned, hrunning⟩ := not_or.mp hreally
      have hrunning : s.collectorRunning = 0 := not_not.mp hrunning
      have hpinned : (s.heaps id).pinned = false := by simpa using hpinned
      -- the state in which the trace runs
      let t : GcState := { s with collectorRunning := s.collectorRunning + 1 }
      have ht : HeapsReady t := ⟨hs.untraced, hs.toSpaceEmpty⟩
      let u := setupCollection build t id request addr
      let reached := newlyReached u trace
      obtain ⟨len, -, hspace⟩ := setupCollection_toSpace ht.toSpaceEmpty hne build request addr
      have hmarked : (((u.markTraced reached).cleanupWorkLists reached id).heaps toSpace).arenas =
          [⟨addr, len, addr + len, []⟩] := by
        show (((u.heaps toSpace).mapAllocs _).mapAllocs _).arenas = _
        rw [Heap.mapAllocs_mapAllocs, Heap.mapAllocs, hspace]
        rfl
      obtain ⟨hready, harena⟩ := makeToSpaceOurSpace_spec hne hmarked
        (fun j hj =>
          cleanupWorkLists_markTraced (setupCollection_untraced ht request addr hj) reached hj)
        (copyAll_untraced addr (copied (u.heaps id) (reached id)))
      have hone : ((makeToSpaceOurSpace ((u.markTraced reached).cleanupWorkLists reached id) id
          (copyAll addr (copied (u.heaps id) (reached id)))).heaps id).arenas.map
            HeapArena.addrStart = [addr] := by
        rw [harena]
        rfl
      cases hdlog : build.dlogGc with
      | true =>
        simp only [hdlog, if_true] at hcollect
        cases hcollect
        refine ⟨⟨hready.untraced, hready.toSpaceEmpty⟩, rfl, .inr ⟨hpinned, hrunning, ?_, rfl, hone⟩⟩
        show s.collectorRunning + 1 - 1 = 0
        omega
      | false =>
        simp only [hdlog, Bool.false_eq_true, if_false] at hcollect
        cases hcollect
        refine ⟨hready, rfl, .inr ⟨hpinned, hrunning, ?_, rfl, hone⟩⟩
        show s.collectorRunning + 1 = 1
        omega

/-! ## Runs -/

/-- A call keeps the state ready and really collects iff it is harmless. -/
theorem ready_step_iff (hbuild : build.dlogGc = false) (hs : Ready s) {c : Call}
    (hstep : s.step build c = some s') : Ready s' ∧ ReallyCollects s s' c ↔ Harmless s c := by
  cases c with
  | work w =>
    obtain ⟨hheaps, hrunning, hspace, hsuspended⟩ := work_spec hs.heapsReady hstep
    refine ⟨fun _ => trivial, fun _ => ⟨⟨?_, ?_, ?_, hheaps.untraced, hheaps.toSpaceEmpty⟩, trivial⟩⟩
    · exact hrunning.trans hs.collectorRunning
    · exact hspace.trans hs.currentFromSpace
    · exact hsuspended.trans hs.collectionSuspended
  | collect id request addr trace =>
    obtain ⟨-, hheaps, hsuspended, hcases⟩ := heapCollect_cases hs.heapsReady hstep
    rcases hcases with ⟨hskip, hrunning, hspace⟩ | ⟨hpinned, -, hrunning, -, -⟩
    · have hpinned : (s.heaps id).pinned = true :=
        hskip.resolve_right (not_not.mpr hs.collectorRunning)
      refine ⟨fun _ => hpinned, fun _ => ⟨⟨?_, ?_, ?_, hheaps.untraced, hheaps.toSpaceEmpty⟩, ?_⟩⟩
      · exact hrunning.trans hs.collectorRunning
      · exact hspace.trans hs.currentFromSpace
      · exact hsuspended.trans hs.collectionSuspended
      · intro hunpinned
        rw [hpinned] at hunpinned
        cases hunpinned
    · -- the counter stays at one
      rw [hbuild, if_neg Bool.false_ne_true] at hrunning
      constructor
      · rintro ⟨hready, -⟩
        have hzero := hready.collectorRunning
        omega
      · intro hharmless
        exact absurd (hpinned.symm.trans hharmless) Bool.false_ne_true
  | deepCopy srcHeap works =>
    cases srcHeap with
    | none =>
      cases hstep
      constructor
      · rintro ⟨hready, -⟩
        exact absurd hready.collectionSuspended Bool.true_eq_false.mp
      · rintro hsome
        cases hsome
    | some src =>
      obtain ⟨t, hworks, hend⟩ := Option.bind_eq_some_iff.mp hstep
      cases hend
      obtain ⟨hheaps, hrunning, hspace⟩ :=
        works_spec (s := { s with collectionSuspended := true })
          ⟨hs.untraced, hs.toSpaceEmpty⟩ hworks
      refine ⟨fun _ => rfl, fun _ => ⟨⟨?_, ?_, rfl, hheaps.untraced, hheaps.toSpaceEmpty⟩, trivial⟩⟩
      · exact hrunning.trans hs.collectorRunning
      · exact hspace.trans hs.currentFromSpace

/-- **Runs without logging**: every call leaves the collector ready and every collection collects if
and only if every call is harmless. -/
theorem ready_run_iff (hbuild : build.dlogGc = false) (hs : Ready s) (calls : List Call) :
    AlwaysReady build s calls ↔ AlwaysHarmless build s calls := by
  induction calls generalizing s with
  | nil => exact Iff.rfl
  | cons c calls ih =>
    constructor
    · intro hall s' hstep
      obtain ⟨hready, hcollects, hrest⟩ := hall s' hstep
      exact ⟨(ready_step_iff hbuild hs hstep).mp ⟨hready, hcollects⟩, (ih hready).mp hrest⟩
    · intro hall s' hstep
      obtain ⟨hharmless, hrest⟩ := hall s' hstep
      obtain ⟨hready, hcollects⟩ := (ready_step_iff hbuild hs hstep).mpr hharmless
      exact ⟨hready, hcollects, (ih hready).mpr hrest⟩

/-- A collector in which every heap but the one for copies has one arena, at 4096. -/
def singleArenas (pinned : Bool) : GcState :=
  ⟨0, none, false, fun id =>
    if id = toSpace then ⟨[], 0, false, false⟩
    else ⟨[⟨4096, 4096, 8192, [⟨64, false⟩]⟩], 4160, pinned, false⟩⟩

theorem ready_singleArenas (pinned : Bool) : Ready (singleArenas pinned) where
  collectorRunning := rfl
  currentFromSpace := rfl
  collectionSuspended := rfl
  untraced := by
    intro id a ha hdr hhdr
    by_cases hid : id = toSpace
    · simp [singleArenas, hid] at ha
    · simp only [singleArenas, hid, if_false, List.mem_singleton] at ha
      rw [ha, List.mem_singleton] at hhdr
      rw [hhdr]
  toSpaceEmpty := rfl

theorem ready_run_pinned :
    AlwaysReady ⟨false, 4096⟩ (singleArenas true)
      [.collect 3 0 16384 (fun _ _ _ => true), .deepCopy (some 3) [.alloc 3 64]] :=
  (ready_run_iff rfl (ready_singleArenas true) _).mpr
    fun _ _ => ⟨rfl, fun _ _ => ⟨rfl, trivial⟩⟩

/-- The first collection of a heap that is not pinned leaves the collector running. -/
theorem not_ready_collect :
    ¬ ∀ s, Ready s → ∀ calls, AlwaysReady ⟨false, 4096⟩ s calls := by
  intro hall
  let c : Call := .collect 3 0 16384 fun _ _ _ => true
  obtain ⟨s', hstep⟩ : ∃ s', (singleArenas false).step ⟨false, 4096⟩ c = some s' := ⟨_, rfl⟩
  obtain ⟨hready, hcollects, -⟩ := hall _ (ready_singleArenas false) [c] s' hstep
  exact Bool.false_ne_true
    ((ready_step_iff rfl (ready_singleArenas false) hstep).mp ⟨hready, hcollects⟩)

end N00b.Gc
