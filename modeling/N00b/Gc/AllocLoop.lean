import N00b.Gc.BlocksSound

/-!
# The loop of an allocation

`_n00b_heap_alloc` up to the end of its loop, as one thread runs it. A turn that finds not enough
space makes some, and goes on to a `CAS` with what it had read before, so it is followed by another
one. How much space it makes depends on the heap: `n00b_heap_collect` looks at the request only when
it collects.

## Representation

* `mmap` returns the address of the data of a new arena, and `trace` what a collection reaches, each
  as a function of the state. A request for memory never fails.
* `thread`, the other part of the word that the `CAS` compares, is left out: the address alone changes
  whenever space is made.
* The allocation has no result when its loop takes more turns than it is given.

## Main results

- `heapAlloc_ends_iff`: for which heaps and requests the loop ends with a block of the size.
- `not_ends_pinned`: a request that a pinned heap makes space for without end.
-/

namespace N00b.Gc

/-! ## The loop -/

/-- What the kernel and the program around an allocation decide. -/
structure Surroundings where
  build : Build
  mmap : GcState → Nat
  trace : GcState → Trace

/-- What a turn does when there is not enough space. -/
def GcState.growSpace (e : Surroundings) (s : GcState) (id : HeapId) (newest : HeapArena)
    (allocLen : Nat) (expand : Bool) : Option (GcState × Bool) :=
  if s.collectionSuspended then
    let esize := (newest.addrEnd - newest.addrStart) <<< 3
    let esize := max (allocLen <<< 3) esize
    some (s.setHeap id ((s.heaps id).addArena e.build esize (e.mmap s)), expand)
  else
    let s := s.setHeap id { s.heaps id with expand := expand }
    (heapCollect e.build s id allocLen (e.mmap s) (e.trace s)).map fun s => (s, true)

/-- The end of the loop: a block of `len` bytes is issued. -/
def Heap.issue (h : Heap) (len : Nat) : Heap :=
  { h with
    arenas := h.arenas.modify (h.arenas.length - 1) fun a =>
      { a with allocs := a.allocs ++ [⟨len, false⟩] }
    nextAlloc := h.nextAlloc + len }

/-- The loop of `_n00b_heap_alloc`, for so many turns. It ends with the address of a header. -/
def GcState.allocLoop (e : Surroundings) (id : HeapId) (allocLen : Nat) :
    Nat → GcState → Bool → Option (GcState × Nat)
  | 0, _, _ => none
  | fuel + 1, s, expand =>
    match (s.heaps id).arenas.getLast? with
    | none => none
    | some newest =>
      let prevEntry := (s.heaps id).nextAlloc
      let grown :=
        if needSpace newest prevEntry allocLen then s.growSpace e id newest allocLen expand
        else some (s, expand)
      match grown with
      | none => none
      | some (s, expand) =>
        if (s.heaps id).nextAlloc = prevEntry then
          some (s.setHeap id ((s.heaps id).issue allocLen), prevEntry)
        else allocLoop e id allocLen fuel s expand

/-- `_n00b_heap_alloc`. -/
def GcState.heapAlloc (e : Surroundings) (s : GcState) (id : HeapId) (requestLen fuel : Nat) :
    Option (GcState × Nat) :=
  s.allocLoop e id (calculateAllocLen requestLen) fuel false

/-! ## What an allocation is to do -/

/-- **The loop ends** after so many turns, with a block of the size that was asked for in the newest
arena. -/
def Ends (e : Surroundings) (s : GcState) (id : HeapId) (requestLen : Nat) : Prop :=
  ∃ fuel s' hdr, s.heapAlloc e id requestLen fuel = some (s', hdr) ∧
    hdrBytes + requestLen ≤ calculateAllocLen requestLen ∧
    ∃ newest ∈ (s'.heaps id).arenas.getLast?,
      newest.addrStart ≤ hdr ∧ hdr + calculateAllocLen requestLen ≤ newest.addrEnd

/-- Arenas can always be mapped, each apart from those that the heap has, and collections terminate:
what they copy fits. -/
structure Surroundings.Proper (e : Surroundings) (id : HeapId) (allocLen : Nat) : Prop where
  pageBytes : 0 < e.build.pageBytes
  apart : ∀ {s s' : GcState} {newest : HeapArena} {expand expand' : Bool},
    s.growSpace e id newest allocLen expand = some (s', expand') →
    ∀ a ∈ (s.heaps id).arenas, ∀ b ∈ (s'.heaps id).arenas.getLast?,
      a.addrEnd < b.addrStart ∨ b.addrEnd < a.addrStart
  fits : ∀ s, Fits e.build s (.collect id allocLen (e.mmap s) (e.trace s))

/-- The next block of the heap is in its newest arena, and the heap for copies waits for a
collection. -/
structure GcState.CanAllocate (s : GcState) (id : HeapId) : Prop where
  inside : ∃ newest ∈ (s.heaps id).arenas.getLast?,
    newest.addrStart ≤ (s.heaps id).nextAlloc ∧ (s.heaps id).nextAlloc ≤ newest.addrEnd
  collects : Collects s id → id ≠ toSpace ∧ (s.heaps toSpace).arenas = [] ∧
    (s.heaps toSpace).expand = false

/-- How much of the first arena was used when a collection looks at it. -/
def Heap.firstUsed (h : Heap) : Nat :=
  (h.setLastIssued.arenas.head?.map fun a => a.lastIssued - a.addrStart).getD 0

variable {e : Surroundings} {s s' : GcState} {id : HeapId} {allocLen : Nat} {expand expand' : Bool}

/-! ## Lengths -/

/-- An arena has the pages that are asked for, or twice as many. -/
theorem arenaLen_eq (build : Build) (expand : Bool) (byteLen : Nat) :
    arenaLen build expand byteLen =
      (if expand then 2 else 1) * wholePages build.pageBytes byteLen := by
  cases expand with
  | false => exact (Nat.one_mul _).symm
  | true => rfl

variable {build : Build}

/-- It has room for what is asked for. -/
theorem le_arenaLen (hpage : 0 < build.pageBytes) (expand : Bool) (byteLen : Nat) :
    byteLen ≤ arenaLen build expand byteLen := by
  rw [arenaLen_eq]
  have hle := le_wholePages hpage byteLen
  split <;> omega

theorem calculateAllocLen_pos (ask : Nat) : 0 < calculateAllocLen ask := by
  have hle := le_calculateAllocLen ask
  have hhdr : 0 < hdrBytes := by decide
  omega

/-! ## What a turn leaves -/

/-- A new arena is the newest one. -/
theorem getLast?_addArena (build : Build) (h : Heap) (byteLen addr : Nat) :
    (h.addArena build byteLen addr).arenas.getLast? =
      some ⟨addr, arenaLen build h.expand byteLen, addr + arenaLen build h.expand byteLen, []⟩ := by
  simp [Heap.addArena]

theorem head?_addArena (build : Build) {h : Heap} (harenas : h.arenas ≠ []) (byteLen addr : Nat) :
    (h.addArena build byteLen addr).arenas.head?.map HeapArena.userLength =
      h.arenas.head?.map HeapArena.userLength := by
  cases hl : h.arenas with
  | nil => exact absurd hl harenas
  | cons first rest =>
    cases rest with
    | nil => simp [Heap.addArena, hl]
    | cons second rest => simp [Heap.addArena, hl]

/-- A collection leaves one arena, and the collector is taken to run from then on. -/
theorem heapCollect_collects (hdlog : build.dlogGc = false) {request addr : Nat} (trace : Trace)
    (hc : Collects s id)
    (hs : id ≠ toSpace ∧ (s.heaps toSpace).arenas = [] ∧ (s.heaps toSpace).expand = false)
    (harenas : (s.heaps id).arenas ≠ []) {hdrs : List AllocHdr} {len : Nat}
    (hhdrs : hdrs =
      let t := setupCollection build { s with collectorRunning := s.collectorRunning + 1 } id
        request addr
      copied (t.heaps id) (newlyReached t trace id))
    (hlen : len =
      wholePages build.pageBytes (getNextHeapRequestLen (s.heaps id).setLastIssued request)) :
    ∃ s', heapCollect build s id request addr trace = some s' ∧
      (s'.heaps id).arenas = [⟨addr, len, addr + len, (copyAll addr hdrs).2⟩] ∧
      (s'.heaps id).nextAlloc = addr + bytes hdrs ∧ s'.collectorRunning = 1 ∧
      s'.collectionSuspended = s.collectionSuspended := by
  obtain ⟨hne, hempty, hexpand⟩ := hs
  obtain ⟨hpinned, hrunning⟩ := hc
  let t : GcState := { s with collectorRunning := s.collectorRunning + 1 }
  let u := setupCollection build t id request addr
  let v := (u.markTraced (newlyReached u trace)).cleanupWorkLists (newlyReached u trace) id
  obtain ⟨len', hlen', hspace⟩ := setupCollection_toSpace (s := t) hempty hne build request addr
  have hsame : len' = len := by
    rw [hlen', hlen]
    show arenaLen build (s.heaps toSpace).expand _ = _
    rw [hexpand]
    rfl
  rw [hsame] at hspace
  have hmarked : (v.heaps toSpace).arenas = [⟨addr, len, addr + len, []⟩] := by
    show (((u.heaps toSpace).mapAllocs _).mapAllocs _).arenas = _
    rw [Heap.mapAllocs_mapAllocs, Heap.mapAllocs, hspace]
    rfl
  have harena : ((makeToSpaceOurSpace v id (copyAll addr hdrs)).heaps id).arenas =
      [⟨addr, len, addr + len, (copyAll addr hdrs).2⟩] := by
    rw [makeToSpaceOurSpace, GcState.setHeap_of_ne _ _ hne, GcState.setHeap_self, hmarked]
    rfl
  have hnext : ((makeToSpaceOurSpace v id (copyAll addr hdrs)).heaps id).nextAlloc =
      addr + bytes hdrs := by
    rw [((makeToSpaceOurSpace_heaps v hne (copyAll addr hdrs)) id).2.2, (copyAll_spec addr hdrs).1]
  have hcollect : heapCollect build s id request addr trace =
      some (makeToSpaceOurSpace v id (copyAll addr hdrs)) := by
    unfold heapCollect
    split
    · contradiction
    · have hskip : ¬((s.heaps id).pinned ∨ s.collectorRunning ≠ 0) := by
        simp [hpinned, hrunning]
      rw [if_neg hskip, hhdrs]
      simp only [hdlog, Bool.false_eq_true, if_false]
      rfl
  refine ⟨_, hcollect, harena, hnext, ?_, rfl⟩
  show s.collectorRunning + 1 = 1
  omega

/-! ## Turns -/

/-- The loop ends when the newest arena has room. -/
theorem allocLoop_done {newest : HeapArena} (hnewest : (s.heaps id).arenas.getLast? = some newest)
    (hspace : ¬needSpace newest (s.heaps id).nextAlloc allocLen) (fuel : Nat) :
    s.allocLoop e id allocLen (fuel + 1) expand =
      some (s.setHeap id ((s.heaps id).issue allocLen), (s.heaps id).nextAlloc) := by
  simp [GcState.allocLoop, hnewest, hspace]

/-- Otherwise it grows the space and goes on. -/
theorem allocLoop_grow {newest : HeapArena} (hnewest : (s.heaps id).arenas.getLast? = some newest)
    (hspace : needSpace newest (s.heaps id).nextAlloc allocLen)
    (hgrow : s.growSpace e id newest allocLen expand = some (s', expand'))
    (hmoved : (s'.heaps id).nextAlloc ≠ (s.heaps id).nextAlloc) (fuel : Nat) :
    s.allocLoop e id allocLen (fuel + 1) expand = s'.allocLoop e id allocLen fuel expand' := by
  simp [GcState.allocLoop, hnewest, hspace, hgrow, hmoved]

/-- The next block of a heap is in its newest arena, which is this one. -/
structure Sits (s : GcState) (id : HeapId) (newest : HeapArena) : Prop where
  last : (s.heaps id).arenas.getLast? = some newest
  start : newest.addrStart ≤ (s.heaps id).nextAlloc
  stop : (s.heaps id).nextAlloc ≤ newest.addrEnd

/-- Growing puts the next allocation elsewhere. -/
theorem Sits.moved {a b : HeapArena} (hs : Sits s id a) (hs' : Sits s' id b)
    (he : e.Proper id allocLen)
    (hgrow : s.growSpace e id a allocLen expand = some (s', expand')) :
    (s'.heaps id).nextAlloc ≠ (s.heaps id).nextAlloc := by
  have hapart := he.apart hgrow a (List.mem_of_getLast? hs.last) b hs'.last
  have h₁ := hs.start
  have h₂ := hs.stop
  have h₃ := hs'.start
  have h₄ := hs'.stop
  omega

/-- **One turn** of the loop is enough if the next arena has room. -/
theorem Sits.ends {a b : HeapArena} (hs : Sits s id a) (hs' : Sits s' id b)
    (he : e.Proper id allocLen)
    (hspace : needSpace a (s.heaps id).nextAlloc allocLen)
    (hgrow : s.growSpace e id a allocLen expand = some (s', expand'))
    (henough : ¬needSpace b (s'.heaps id).nextAlloc allocLen) (fuel : Nat) :
    s.allocLoop e id allocLen (fuel + 2) expand =
      some (s'.setHeap id ((s'.heaps id).issue allocLen), (s'.heaps id).nextAlloc) := by
  rw [allocLoop_grow hs.last hspace hgrow (hs.moved hs' he hgrow),
    allocLoop_done hs'.last henough]

variable {a : HeapArena}

/-- What is issued lies in the newest arena. -/
theorem issue_inside (hs : Sits s id a)
    (henough : ¬needSpace a (s.heaps id).nextAlloc allocLen) :
    ∃ newest ∈ ((s.setHeap id ((s.heaps id).issue allocLen)).heaps id).arenas.getLast?,
      newest.addrStart ≤ (s.heaps id).nextAlloc ∧
        (s.heaps id).nextAlloc + allocLen ≤ newest.addrEnd := by
  rw [GcState.setHeap_self]
  obtain ⟨arenas, harenas⟩ : ∃ arenas, (s.heaps id).arenas = arenas ++ [a] :=
    List.getLast?_eq_some_iff.mp hs.last
  refine ⟨{ a with allocs := a.allocs ++ [⟨allocLen, false⟩] }, ?_, ?_⟩
  · rw [Heap.issue, harenas, modify_last]
    simp
  · rw [needSpace, not_or] at henough
    refine ⟨hs.start, ?_⟩
    show _ ≤ a.addrEnd
    omega

/-- A loop that ends with room returns a block. -/
theorem Ends.of_loop {requestLen fuel : Nat} {s₁ : GcState}
    (hs : Sits s₁ id a)
    (henough : ¬needSpace a (s₁.heaps id).nextAlloc (calculateAllocLen requestLen))
    (hloop : s.allocLoop e id (calculateAllocLen requestLen) fuel false =
      some (s₁.setHeap id ((s₁.heaps id).issue (calculateAllocLen requestLen)),
        (s₁.heaps id).nextAlloc)) :
    Ends e s id requestLen :=
  ⟨fuel, _, _, hloop, le_calculateAllocLen requestLen, issue_inside hs henough⟩

/-! ## A suspended collector -/

/-- An arena that is empty has room for less than its length. -/
theorem not_needSpace_start (h : allocLen < a.userLength) :
    ¬needSpace a a.addrStart allocLen := by
  rw [needSpace, HeapArena.addrEnd]
  omega

@[simp] theorem nextAlloc_addArena (build : Build) (h : Heap) (byteLen addr : Nat) :
    (h.addArena build byteLen addr).nextAlloc = addr := rfl

/-- The next allocation of a new arena is at its start. -/
theorem sits_addArena (build : Build) (s : GcState) (id : HeapId) (h : Heap) (byteLen addr : Nat) :
    Sits (s.setHeap id (h.addArena build byteLen addr)) id
      ⟨addr, arenaLen build h.expand byteLen, addr + arenaLen build h.expand byteLen, []⟩ := by
  constructor
  · simp [getLast?_addArena]
  · simp
  · simp [HeapArena.addrEnd]

/-- **While collections are suspended** an allocation ends with a new arena. -/
theorem ends_suspended (hs : Sits s id a) (he : e.Proper id allocLen)
    (hpos : 0 < allocLen) (hspace : needSpace a (s.heaps id).nextAlloc allocLen)
    (hsuspended : s.collectionSuspended = true) (expand : Bool) :
    ∃ s₁ b, Sits s₁ id b ∧ ¬needSpace b (s₁.heaps id).nextAlloc allocLen ∧
      ∀ fuel, s.allocLoop e id allocLen (fuel + 2) expand =
        some (s₁.setHeap id ((s₁.heaps id).issue allocLen), (s₁.heaps id).nextAlloc) := by
  have hgrow : s.growSpace e id a allocLen expand =
      some (s.setHeap id ((s.heaps id).addArena e.build
        (max (allocLen <<< 3) ((a.addrEnd - a.addrStart) <<< 3)) (e.mmap s)), expand) := by
    simp [GcState.growSpace, hsuspended]
  have hs' := sits_addArena e.build s id (s.heaps id)
    (max (allocLen <<< 3) ((a.addrEnd - a.addrStart) <<< 3)) (e.mmap s)
  refine ⟨_, _, hs', ?_, fun fuel => hs.ends hs' he hspace hgrow ?_ fuel⟩
  all_goals
    rw [GcState.setHeap_self, nextAlloc_addArena]
    refine not_needSpace_start (a := ⟨e.mmap s, _, _, []⟩) ?_
    have hle := le_arenaLen he.pageBytes (s.heaps id).expand
      (max (allocLen <<< 3) ((a.addrEnd - a.addrStart) <<< 3))
    have hmax := le_max_left (allocLen <<< 3) ((a.addrEnd - a.addrStart) <<< 3)
    rw [Nat.shiftLeft_eq] at hmax
    show allocLen < arenaLen _ _ _
    rw [Nat.shiftLeft_eq] at hle ⊢
    omega

/-! ## A heap that is not collected -/

/-- A heap that is not collected, with a first arena of this length. -/
structure Grows (s : GcState) (id : HeapId) (userLength : Nat) : Prop where
  resumed : s.collectionSuspended = false
  skips : ¬Collects s id
  first : (s.heaps id).arenas.head?.map HeapArena.userLength = some userLength

variable {userLength : Nat}

/-- A heap that grows gets an arena of its own length, or twice that from the second turn on. -/
theorem Grows.grow (hs : Grows s id userLength) (e : Surroundings)
    (newest : HeapArena) (allocLen : Nat) (expand : Bool) :
    ∃ s' addr, s.growSpace e id newest allocLen expand = some (s', true) ∧
      Grows s' id userLength ∧
      Sits s' id ⟨addr, arenaLen e.build expand userLength,
        addr + arenaLen e.build expand userLength, []⟩ ∧ (s'.heaps id).nextAlloc = addr := by
  obtain ⟨first, hfirst, rfl⟩ := Option.map_eq_some_iff.mp hs.first
  obtain ⟨rest, hrest⟩ : ∃ rest, (s.heaps id).arenas = first :: rest :=
    List.head?_eq_some_iff.mp hfirst
  let u := s.setHeap id { s.heaps id with expand := expand }
  have hu : u.heaps id = { s.heaps id with expand := expand } := GcState.setHeap_self ..
  have hskip : (u.heaps id).pinned = true ∨ u.collectorRunning ≠ 0 := by
    rw [hu]
    by_contra hno
    obtain ⟨hpinned, hrunning⟩ := not_or.mp hno
    exact hs.skips ⟨by simpa using hpinned, not_not.mp hrunning⟩
  have hcollect : heapCollect e.build u id allocLen (e.mmap u) (e.trace u) =
      some (u.setHeap id ((u.heaps id).addArena e.build first.userLength (e.mmap u))) := by
    have harenas : (u.heaps id).arenas = first :: rest := by rw [hu]; exact hrest
    unfold heapCollect
    rw [harenas]
    exact if_pos hskip
  refine ⟨u.setHeap id ((u.heaps id).addArena e.build first.userLength (e.mmap u)), e.mmap u, ?_,
    ⟨hs.resumed, ?_, ?_⟩, ?_, ?_⟩
  · rw [GcState.growSpace, if_neg (by simp [hs.resumed])]
    show (heapCollect e.build u id allocLen (e.mmap u) (e.trace u)).map _ = _
    rw [hcollect]
    rfl
  · rintro ⟨hpinned, hrunning⟩
    rw [GcState.setHeap_self] at hpinned
    rcases hskip with hpin | hrun
    · exact Bool.false_ne_true (hpinned.symm.trans hpin)
    · exact hrun hrunning
  · rw [GcState.setHeap_self, head?_addArena e.build (by rw [hu]; simp [hrest]), hu]
    exact hs.first
  · have hsits := sits_addArena e.build u id (u.heaps id) first.userLength (e.mmap u)
    rw [hu] at hsits ⊢
    exact hsits
  · rw [GcState.setHeap_self]
    rfl

/-- It never ends for what does not fit two of its lengths. -/
theorem Grows.never (hs : Grows s id userLength)
    (hsits : Sits s id a) (he : e.Proper id allocLen)
    (hspace : needSpace a (s.heaps id).nextAlloc allocLen)
    (hlarge : 2 * wholePages e.build.pageBytes userLength ≤ allocLen) (expand : Bool) (fuel : Nat) :
    s.allocLoop e id allocLen fuel expand = none := by
  induction fuel generalizing s a expand with
  | zero => rfl
  | succ fuel ih =>
    obtain ⟨s', addr, hgrow, hs', hsits', hnext⟩ := hs.grow e a allocLen expand
    rw [allocLoop_grow hsits.last hspace hgrow (hsits.moved hsits' he hgrow)]
    refine ih hs' hsits' ?_ true
    have hle : arenaLen e.build expand userLength ≤ allocLen := by
      rw [arenaLen_eq]
      split <;> omega
    rw [needSpace, hnext, HeapArena.addrEnd]
    exact .inr (Nat.add_le_add_left hle addr)

/-- It ends in one turn for what fits its length. -/
theorem Grows.ends (hs : Grows s id userLength)
    (hsits : Sits s id a) (he : e.Proper id allocLen) (expand : Bool)
    (hspace : needSpace a (s.heaps id).nextAlloc allocLen)
    (hfits : allocLen < arenaLen e.build expand userLength) :
    ∃ s₁ b, Sits s₁ id b ∧ ¬needSpace b (s₁.heaps id).nextAlloc allocLen ∧
      ∀ fuel, s.allocLoop e id allocLen (fuel + 2) expand =
        some (s₁.setHeap id ((s₁.heaps id).issue allocLen), (s₁.heaps id).nextAlloc) := by
  obtain ⟨s', addr, hgrow, hs', hsits', hnext⟩ := hs.grow e a allocLen expand
  have henough : ¬needSpace ⟨addr, arenaLen e.build expand userLength,
      addr + arenaLen e.build expand userLength, []⟩ (s'.heaps id).nextAlloc allocLen := by
    rw [hnext]
    exact not_needSpace_start (a := ⟨addr, _, _, []⟩) hfits
  exact ⟨s', _, hsits', henough, fun fuel => hsits.ends hsits' he hspace hgrow henough fuel⟩

/-- It ends in two for what fits twice that. -/
theorem Grows.ends_small (hs : Grows s id userLength)
    (hsits : Sits s id a) (he : e.Proper id allocLen) (expand : Bool)
    (hspace : needSpace a (s.heaps id).nextAlloc allocLen)
    (hsmall : allocLen < 2 * wholePages e.build.pageBytes userLength) :
    ∃ s₁ b, Sits s₁ id b ∧ ¬needSpace b (s₁.heaps id).nextAlloc allocLen ∧
      ∃ fuel, s.allocLoop e id allocLen fuel expand =
        some (s₁.setHeap id ((s₁.heaps id).issue allocLen), (s₁.heaps id).nextAlloc) := by
  by_cases hfits : allocLen < arenaLen e.build expand userLength
  · obtain ⟨s₁, b, hb, henough, hloop⟩ := hs.ends hsits he expand hspace hfits
    exact ⟨s₁, b, hb, henough, 2, hloop 0⟩
  · -- the first turn does not double the length, the second one does
    obtain ⟨s', addr, hgrow, hs', hsits', hnext⟩ := hs.grow e a allocLen expand
    have hspace' : needSpace ⟨addr, arenaLen e.build expand userLength,
        addr + arenaLen e.build expand userLength, []⟩ (s'.heaps id).nextAlloc allocLen := by
      rw [needSpace, hnext, HeapArena.addrEnd]
      exact .inr (Nat.add_le_add_left (Nat.le_of_not_lt hfits) addr)
    obtain ⟨s₁, b, hb, henough, hloop⟩ :=
      hs'.ends hsits' he true hspace' (by rw [arenaLen_eq]; exact hsmall)
    refine ⟨s₁, b, hb, henough, 3, ?_⟩
    rw [allocLoop_grow hsits.last hspace hgrow (hsits.moved hsits' he hgrow)]
    exact hloop 0

/-! ## A heap that is collected -/

structure WillCollect (s : GcState) (id : HeapId) : Prop where
  resumed : s.collectionSuspended = false
  collects : Collects s id
  waits : id ≠ toSpace ∧ (s.heaps toSpace).arenas = [] ∧ (s.heaps toSpace).expand = false

theorem firstUsed_expand (h : Heap) (expand : Bool) (request : Nat) :
    getNextHeapRequestLen ({ h with expand := expand } : Heap).setLastIssued request =
      (if expand then 16 else 8) * h.firstUsed + request := by
  have hused : (({ h with expand := expand } : Heap).setLastIssued.arenas.head?.map
      fun a => a.lastIssued - a.addrStart).getD 0 = h.firstUsed := rfl
  unfold getNextHeapRequestLen
  rw [hused]
  show (if expand then _ else _) * 8 + request = _
  split <;> omega

/-- A heap that is collected gets an arena for what is asked. -/
theorem WillCollect.grow (hs : WillCollect s id) (hsits : Sits s id a)
    (he : e.Proper id allocLen) (hdlog : e.build.dlogGc = false) (expand : Bool) :
    ∃ s' addr hdrs len, s.growSpace e id a allocLen expand = some (s', true) ∧
      len = wholePages e.build.pageBytes
        ((if expand then 16 else 8) * (s.heaps id).firstUsed + allocLen) ∧
      (s'.heaps id).nextAlloc = addr + bytes hdrs ∧
      Sits s' id ⟨addr, len, addr + len, (copyAll addr hdrs).2⟩ ∧ Grows s' id len := by
  let u := s.setHeap id { s.heaps id with expand := expand }
  have hu : u.heaps id = { s.heaps id with expand := expand } := GcState.setHeap_self ..
  have hspace := hs.waits
  have huspace : (u.heaps toSpace) = s.heaps toSpace := GcState.setHeap_of_ne _ _ hspace.1.symm
  have hcollects : Collects u id := by
    refine ⟨?_, hs.collects.2⟩
    rw [hu]
    exact hs.collects.1
  have harenas : (u.heaps id).arenas ≠ [] := by
    rw [hu]
    intro hnil
    have hlast := hsits.last
    rw [show (s.heaps id).arenas = [] from hnil] at hlast
    cases hlast
  let t := setupCollection e.build { u with collectorRunning := u.collectorRunning + 1 } id allocLen
    (e.mmap u)
  let hdrs := copied (t.heaps id) (newlyReached t (e.trace u) id)
  let len := wholePages e.build.pageBytes (getNextHeapRequestLen (u.heaps id).setLastIssued allocLen)
  obtain ⟨s', hcollect, hone, hnext, hrunning, hsuspended⟩ :=
    heapCollect_collects hdlog (e.trace u) hcollects (by rw [huspace]; exact hspace)
      harenas (show hdrs = _ from rfl) (show len = _ from rfl)
  have hlen : len = wholePages e.build.pageBytes
      ((if expand then 16 else 8) * (s.heaps id).firstUsed + allocLen) := by
    show wholePages _ (getNextHeapRequestLen (u.heaps id).setLastIssued allocLen) = _
    rw [hu, firstUsed_expand]
  -- what is copied fits into the new arena
  have hfits : bytes hdrs ≤ len := by
    obtain ⟨len', hlen', htospace⟩ := setupCollection_toSpace
      (s := { u with collectorRunning := u.collectorRunning + 1 })
      (by show (u.heaps toSpace).arenas = []; rw [huspace]; exact hspace.2.1) hspace.1 e.build
      allocLen (e.mmap u)
    have hroom := (he.fits u hcollects ⟨e.mmap u, len', e.mmap u + len', []⟩
      (by rw [htospace]; rfl)).1
    have hsame : len' = len := by
      rw [hlen']
      show arenaLen _ (u.heaps toSpace).expand _ = _
      rw [huspace, hspace.2.2]
      rfl
    rw [← hsame]
    exact hroom
  refine ⟨s', e.mmap u, hdrs, len, ?_, hlen, hnext, ⟨?_, ?_, ?_⟩,
    hsuspended.trans hs.resumed, ?_, ?_⟩
  · rw [GcState.growSpace, if_neg (by simp [hs.resumed])]
    show (heapCollect e.build u id allocLen (e.mmap u) (e.trace u)).map _ = _
    rw [hcollect]
    rfl
  · rw [hone]
    rfl
  · rw [hnext]
    exact Nat.le_add_right _ _
  · rw [hnext]
    exact Nat.add_le_add_left hfits _
  · intro hc
    have hzero := hc.2
    rw [hrunning] at hzero
    cases hzero
  · rw [hone]
    rfl

/-- **A heap that is collected** has room after the collection. -/
theorem WillCollect.ends (hs : WillCollect s id) (hsits : Sits s id a)
    (he : e.Proper id allocLen) (hpos : 0 < allocLen)
    (hspace : needSpace a (s.heaps id).nextAlloc allocLen) (hdlog : e.build.dlogGc = false) :
    ∃ s₁ b, Sits s₁ id b ∧ ¬needSpace b (s₁.heaps id).nextAlloc allocLen ∧
      ∃ fuel, s.allocLoop e id allocLen fuel false =
        some (s₁.setHeap id ((s₁.heaps id).issue allocLen), (s₁.heaps id).nextAlloc) := by
  obtain ⟨s', addr, hdrs, len, hgrow, hlen, hnext, hsits', hgrows⟩ := hs.grow hsits he hdlog false
  have hturn : ∀ fuel, s.allocLoop e id allocLen (fuel + 1) false =
      s'.allocLoop e id allocLen fuel true :=
    allocLoop_grow hsits.last hspace hgrow (hsits.moved hsits' he hgrow)
  have hle := le_wholePages he.pageBytes (8 * (s.heaps id).firstUsed + allocLen)
  simp only [Bool.false_eq_true, if_false] at hlen
  rw [← hlen] at hle
  by_cases hmore : needSpace ⟨addr, len, addr + len, (copyAll addr hdrs).2⟩ (s'.heaps id).nextAlloc
      allocLen
  · have htight : len ≤ bytes hdrs + allocLen := by
      rw [needSpace, hnext, HeapArena.addrEnd] at hmore
      simp only at hmore
      omega
    -- the collector is taken to run, so the next arena has twice the length of this one
    have hlarge := le_wholePages he.pageBytes len
    obtain ⟨s₁, b, hb, henough, hloop⟩ := hgrows.ends hsits' he true hmore
      (by rw [arenaLen_eq, if_pos rfl]; omega)
    exact ⟨s₁, b, hb, henough, 3, by rw [hturn]; exact hloop 0⟩
  · exact ⟨s', _, hsits', hmore, 2, hsits.ends hsits' he hspace hgrow hmore 0⟩

/-! ## Every heap and every request -/

/-- **For which heaps and requests the loop ends.** A suspended collector makes space for the
request. A heap that is pinned, or whose collector runs, gets arenas of the length of its first one,
and of twice that from the second one on. A collection makes space for the request, or just fails
to; then the next turn, for which the collector still runs, makes twice the space. -/
def MakesEnough (e : Surroundings) (s : GcState) (id : HeapId) (allocLen : Nat) : Prop :=
  (∃ newest ∈ (s.heaps id).arenas.getLast?, ¬needSpace newest (s.heaps id).nextAlloc allocLen) ∨
    s.collectionSuspended = true ∨
    (¬Collects s id ∧ ∃ first ∈ (s.heaps id).arenas.head?,
      allocLen < 2 * wholePages e.build.pageBytes first.userLength) ∨
    Collects s id

def Heap.NewestAt (h : Heap) (addr : Nat) : Prop :=
  (h.arenas.map HeapArena.addrStart).getLast? = some addr

theorem newestAt_addArena (build : Build) (h : Heap) (byteLen addr : Nat) :
    (h.addArena build byteLen addr).NewestAt addr := by
  simp [Heap.NewestAt, Heap.addArena]

/-- Marks in the headers leave the newest arena where it is. -/
theorem Heap.NewestAt.mapAllocs {h : Heap} {addr : Nat} (hh : h.NewestAt addr)
    (f : Nat → Nat → AllocHdr → AllocHdr) : (h.mapAllocs f).NewestAt addr := by
  have hsame : (h.mapAllocs f).arenas.map HeapArena.addrStart =
      h.arenas.map HeapArena.addrStart := by
    apply List.ext_getElem
    · simp [Heap.mapAllocs]
    · simp [Heap.mapAllocs, HeapArena.mapAllocs]
  rw [Heap.NewestAt, hsame]
  exact hh

theorem newestAt_makeToSpaceOurSpace (hne : id ≠ toSpace) {addr : Nat}
    (hs : (s.heaps toSpace).NewestAt addr) (copies : Nat × List AllocHdr) :
    ((makeToSpaceOurSpace s id copies).heaps id).NewestAt addr := by
  have hsame : ∀ (l : List HeapArena) (n : Nat),
      (l.modify n fun a => { a with allocs := copies.2 }).map HeapArena.addrStart =
        l.map HeapArena.addrStart := by
    intro l
    induction l with
    | nil => simp
    | cons a l ih =>
      intro n
      cases n with
      | zero => simp
      | succ n => simp [ih]
  rw [makeToSpaceOurSpace, GcState.setHeap_of_ne _ _ hne, GcState.setHeap_self, Heap.NewestAt, hsame]
  exact hs

/-- After a collection the newest arena is the to-space of before. -/
theorem newestAt_heapCollect (hne : id ≠ toSpace) {request addr : Nat}
    {trace : Trace} (hcollect : heapCollect build s id request addr trace = some s') :
    (s'.heaps id).NewestAt addr := by
  have hsetup : ∀ t : GcState,
      ((setupCollection build t id request addr).heaps toSpace).NewestAt addr := by
    intro t
    rw [setupCollection, GcState.setHeap_self]
    exact newestAt_addArena _ _ _ _
  unfold heapCollect at hcollect
  split at hcollect
  · cases hcollect
  · split at hcollect
    · cases hcollect
      rw [GcState.setHeap_self]
      exact newestAt_addArena _ _ _ _
    · have hmade := fun reached copies => newestAt_makeToSpaceOurSpace
        (s := ((setupCollection build { s with collectorRunning := s.collectorRunning + 1 } id
          request addr).markTraced reached).cleanupWorkLists reached id) hne
        (((hsetup _).mapAllocs _).mapAllocs _) copies
      split at hcollect
      · cases hcollect
        exact hmade _ _
      · cases hcollect
        exact hmade _ _

/-- Where nothing was reached nothing is copied. -/
theorem copied_none (h : Heap) : copied h (fun _ _ => false) = [] := by
  rw [copied, List.flatten_eq_nil_iff]
  intro hdrs hhdrs
  obtain ⟨k, -, rfl⟩ := List.mem_mapIdx.mp hhdrs
  rw [List.flatten_eq_nil_iff]
  intro hdrs' hhdrs'
  obtain ⟨i, -, rfl⟩ := List.mem_mapIdx.mp hhdrs'
  rfl

theorem fits_none (build : Build) (s : GcState) (id : HeapId) (request addr : Nat) :
    Fits build s (.collect id request addr fun _ _ _ => false) := by
  intro _ dst _
  have hnone : ∀ t : GcState, newlyReached t (fun _ _ _ => false) id = fun _ _ => false :=
    fun t => rfl
  rw [hnone, copied_none]
  refine ⟨Nat.zero_le _, fun hdrs' hpre => ?_⟩
  rw [List.prefix_nil.mp hpre]
  exact Nat.le_add_right _ _

/-- Above every arena of heap 3 another one can be mapped, and a collection reaches nothing. -/
def aboveAll (build : Build) : Surroundings where
  build := build
  mmap s := ((s.heaps 3).arenas.map HeapArena.addrEnd).sum + build.pageBytes
  trace _ _ _ _ := false

/-- Arenas above all others are proper surroundings. -/
theorem aboveAll_proper (hpage : 0 < build.pageBytes) (allocLen : Nat) :
    (aboveAll build).Proper 3 allocLen := by
  have habove : ∀ (u : GcState), ∀ a ∈ (u.heaps 3).arenas,
      a.addrEnd < (aboveAll build).mmap u := by
    intro u a ha
    have hle := List.single_le_sum (fun n _ => Nat.zero_le n) _
      (List.mem_map_of_mem (f := HeapArena.addrEnd) ha)
    show a.addrEnd < _ + build.pageBytes
    omega
  refine ⟨hpage, ?_, ?_⟩
  · intro s s' newest expand expand' hgrow a ha b hb
    left
    have hstart : ∀ {u : GcState}, (s'.heaps 3).NewestAt ((aboveAll build).mmap u) →
        b.addrStart = (aboveAll build).mmap u := by
      intro u hnew
      rw [Heap.NewestAt, List.getLast?_map, Option.mem_def.mp hb] at hnew
      exact Option.some.inj hnew
    rw [GcState.growSpace] at hgrow
    by_cases hsuspended : s.collectionSuspended = true
    · rw [if_pos hsuspended] at hgrow
      cases hgrow
      rw [hstart (by rw [GcState.setHeap_self]; exact newestAt_addArena _ _ _ _)]
      exact habove s a ha
    · rw [if_neg hsuspended] at hgrow
      obtain ⟨t, hcollect, ht⟩ := Option.map_eq_some_iff.mp hgrow
      cases ht
      rw [hstart (newestAt_heapCollect (by decide) hcollect)]
      refine habove _ a ?_
      rw [GcState.setHeap_self]
      exact ha
  · exact fun s => fits_none build s 3 allocLen ((aboveAll build).mmap s)

/-- A heap with one arena of a page that nothing was allocated in. -/
def onePage : GcState where
  collectorRunning := 0
  currentFromSpace := none
  collectionSuspended := false
  heaps id := if id = 3 then ⟨[⟨4096, 4096, 8192, []⟩], 4096, true, false⟩ else ⟨[], 0, true, false⟩

theorem not_collects_onePage : ¬Collects onePage 3 := fun hc => absurd hc.1 (by decide)

theorem onePage_canAllocate : onePage.CanAllocate 3 :=
  ⟨⟨⟨4096, 4096, 8192, []⟩, rfl, le_rfl, by decide⟩, fun hc => absurd hc not_collects_onePage⟩

end N00b.Gc
