import N00b.Gc.Collect

/-!
# The room for the copies

`get_next_heap_request_len` sizes the arena for the copies before anything is known about what will
be reached. Its loop over the arenas ends after the first of them, so what counts is how far the
first arena was used, taken eight times.

How far an arena was used is what was allocated in it, in every state that a process comes to. So the
lengths of the allocations alone say whether the copies fit.

## Main results

* `getNextHeapRequestLen_eq`: the length of the new arena in terms of the allocations.
* `small_of_oneArena`: a heap with one arena never shows a shortage.
-/

namespace N00b.Gc

/-! ## Lengths -/

def bytes (hdrs : List AllocHdr) : Nat :=
  (hdrs.map AllocHdr.allocLen).sum

@[simp] theorem bytes_nil : bytes [] = 0 := rfl

@[simp] theorem bytes_cons (hdr : AllocHdr) (hdrs : List AllocHdr) :
    bytes (hdr :: hdrs) = hdr.allocLen + bytes hdrs := by
  simp [bytes]

/-- The bytes of two lists of headers are added. -/
@[simp] theorem bytes_append (hdrs hdrs' : List AllocHdr) :
    bytes (hdrs ++ hdrs') = bytes hdrs + bytes hdrs' := by
  simp [bytes]

def Heap.liveBytes (h : Heap) (reached : Nat → Nat → Bool) : Nat :=
  bytes (copied h reached)

def Heap.firstBytes (h : Heap) : Nat :=
  (h.arenas.head?.map fun a => bytes a.allocs).getD 0

/-- The length of whole pages that hold `len` bytes. -/
def wholePages (pageBytes len : Nat) : Nat :=
  if len % pageBytes ≠ 0 then len / pageBytes * pageBytes + pageBytes else len

/-! ## What a collection is to do -/

/-- A collection that the call makes: its heap is not pinned and no other collection runs. -/
def Collects (s : GcState) (id : HeapId) : Prop :=
  (s.heaps id).pinned = false ∧ s.collectorRunning = 0

/-- **The arena for the copies has room** for all allocations that the trace reaches, and while they
are copied one after the other the next free address does not pass its end. -/
def Fits (build : Build) (s : GcState) : Call → Prop
  | .collect id request addr trace =>
    let t :=
      setupCollection build { s with collectorRunning := s.collectorRunning + 1 } id request addr
    let hdrs := copied (t.heaps id) (newlyReached t trace id)
    Collects s id → ∀ dst ∈ (t.heaps toSpace).arenas.getLast?,
      bytes hdrs ≤ dst.userLength ∧
        ∀ hdrs', hdrs' <+: hdrs → (copyAll dst.addrStart hdrs').1 ≤ dst.addrEnd
  | _ => True

/-- What is reached is at most eight times what was allocated in the first arena, sixteen times if
the heap is to expand, and the request, in whole pages. -/
def Small (build : Build) (s : GcState) : Call → Prop
  | .collect id request _ trace => Collects s id →
      (s.heaps id).liveBytes (trace id) ≤ wholePages build.pageBytes
        ((if (s.heaps id).expand then 16 else 8) * (s.heaps id).firstBytes + request)
  | _ => True

/-- A property of every call of a sequence that returns. -/
def AlwaysCalls (build : Build) (p : GcState → Call → Prop) : GcState → List Call → Prop
  | _, [] => True
  | s, c :: cs => ∀ s', s.step build c = some s' → p s c ∧ AlwaysCalls build p s' cs

/-- The state before the first heap gets an arena. -/
def GcState.start : GcState :=
  ⟨0, none, false, fun id => ⟨[], 0, decide (id = toSpace ∨ id = longTermPins), false⟩⟩

variable {build : Build} {s s' : GcState} {id : HeapId} {h h' : Heap}

/-! ## Arenas without gaps -/

/-- The arenas of a heap are filled without gaps. -/
structure Heap.Tight (h : Heap) : Prop where
  closed : ∀ a ∈ h.arenas.dropLast, a.lastIssued = a.addrStart + bytes a.allocs
  newest : ∀ a ∈ h.arenas.getLast?, h.nextAlloc = a.addrStart + bytes a.allocs

theorem modify_last {α : Type} (l : List α) (a : α) (f : α → α) :
    (l ++ [a]).modify ((l ++ [a]).length - 1) f = l ++ [f a] := by
  induction l with
  | nil => rfl
  | cons b l ih =>
    have hlen : (b :: l ++ [a]).length - 1 = (l ++ [a]).length - 1 + 1 := by simp
    rw [hlen, List.cons_append, List.modify_succ_cons, ih]
    rfl

theorem Heap.tight_nil (hh : h.arenas = []) : h.Tight := by
  constructor
  · simp [hh]
  · simp [hh]

/-- A heap is tight just if every arena is filled from its start on. -/
theorem Heap.tight_concat {arenas : List HeapArena} {newest : HeapArena}
    (hh : h.arenas = arenas ++ [newest]) :
    h.Tight ↔ (∀ a ∈ arenas, a.lastIssued = a.addrStart + bytes a.allocs) ∧
      h.nextAlloc = newest.addrStart + bytes newest.allocs := by
  constructor
  · rintro ⟨hclosed, hnewest⟩
    rw [hh, List.dropLast_concat] at hclosed
    exact ⟨hclosed, hnewest newest (by simp [hh])⟩
  · rintro ⟨hclosed, hnewest⟩
    constructor
    · rwa [hh, List.dropLast_concat]
    · simp [hh, hnewest]

/-- A new arena leaves a heap tight. -/
theorem Heap.Tight.addArena (hh : h.Tight) (byteLen addr : Nat) :
    (h.addArena build byteLen addr).Tight := by
  refine (Heap.tight_concat rfl).mpr ⟨?_, rfl⟩
  rcases List.eq_nil_or_concat h.arenas with hnil | ⟨arenas, newest, hconcat⟩
  · simp [hnil]
  · rw [List.concat_eq_append] at hconcat
    obtain ⟨hclosed, hnewest⟩ := (Heap.tight_concat hconcat).mp hh
    rw [hconcat, modify_last]
    rintro a ha
    rcases List.mem_append.mp ha with ha | ha
    · exact hclosed a ha
    · obtain rfl := List.mem_singleton.mp ha
      exact hnewest

/-- So does an allocation. -/
theorem Heap.Tight.alloc {len : Nat} (hh : h.Tight) (halloc : h.alloc len = some h') :
    h'.Tight := by
  unfold Heap.alloc at halloc
  split at halloc
  · cases halloc
  next newest hlast =>
    split at halloc
    · cases halloc
    · cases halloc
      rcases List.eq_nil_or_concat h.arenas with hnil | ⟨arenas, newest', hconcat⟩
      · simp [hnil] at hlast
      · rw [List.concat_eq_append] at hconcat
        obtain ⟨hclosed, hnewest⟩ := (Heap.tight_concat hconcat).mp hh
        have harenas : h.arenas.modify (h.arenas.length - 1)
            (fun a => { a with allocs := a.allocs ++ [⟨len, false⟩] }) =
              arenas ++ [{ newest' with allocs := newest'.allocs ++ [⟨len, false⟩] }] := by
          rw [hconcat, modify_last]
        refine (Heap.tight_concat harenas).mpr ⟨hclosed, ?_⟩
        simp only [bytes_append, bytes_cons, bytes_nil]
        omega

/-- Headers that keep their lengths keep their bytes. -/
theorem bytes_mapIdx {f : Nat → AllocHdr → AllocHdr}
    (hf : ∀ i hdr, (f i hdr).allocLen = hdr.allocLen) (hdrs : List AllocHdr) :
    bytes (hdrs.mapIdx f) = bytes hdrs := by
  unfold bytes
  congr 1
  refine List.ext_getElem (by simp) fun i hi _ => ?_
  simp [hf]

/-- Marks in the headers leave a heap tight. -/
theorem Heap.Tight.mapAllocs {f : Nat → Nat → AllocHdr → AllocHdr} (hh : h.Tight)
    (hf : ∀ k i hdr, (f k i hdr).allocLen = hdr.allocLen) : (h.mapAllocs f).Tight := by
  rcases List.eq_nil_or_concat h.arenas with hnil | ⟨arenas, newest, hconcat⟩
  · exact Heap.tight_nil (by simp [Heap.mapAllocs, hnil])
  · rw [List.concat_eq_append] at hconcat
    obtain ⟨hclosed, hnewest⟩ := (Heap.tight_concat hconcat).mp hh
    have harenas : (h.mapAllocs f).arenas = arenas.mapIdx (fun k a => a.mapAllocs (f k)) ++
        [newest.mapAllocs (f arenas.length)] := by
      rw [Heap.mapAllocs, hconcat, List.mapIdx_concat]
    refine (Heap.tight_concat harenas).mpr ⟨?_, ?_⟩
    · rintro a ha
      obtain ⟨k, hk, rfl⟩ := List.mem_mapIdx.mp ha
      show arenas[k].lastIssued = arenas[k].addrStart + bytes (arenas[k].allocs.mapIdx (f k))
      rw [bytes_mapIdx (hf k)]
      exact hclosed _ (List.getElem_mem hk)
    · show h.nextAlloc = newest.addrStart + bytes (newest.allocs.mapIdx _)
      rw [bytes_mapIdx (hf _)]
      exact hnewest

/-! ## The length of the new arena -/

/-- Copying lays the allocations one behind the other. -/
theorem copyAll_spec (nextAlloc : Nat) (hdrs : List AllocHdr) :
    (copyAll nextAlloc hdrs).1 = nextAlloc + bytes hdrs ∧
      bytes (copyAll nextAlloc hdrs).2 = bytes hdrs := by
  induction hdrs generalizing nextAlloc with
  | nil => exact ⟨rfl, rfl⟩
  | cons hdr hdrs ih =>
    obtain ⟨hnext, hbytes⟩ := ih (nextAlloc + hdr.allocLen)
    constructor
    · show (copyAll (nextAlloc + hdr.allocLen) hdrs).1 = _
      rw [hnext, bytes_cons]
      omega
    · show bytes (_ :: (copyAll (nextAlloc + hdr.allocLen) hdrs).2) = _
      rw [bytes_cons, bytes_cons, hbytes]

/-- **The length of the next arena** counts the bytes of the first one only, eight times. -/
theorem getNextHeapRequestLen_eq (hh : h.Tight) (request : Nat) :
    getNextHeapRequestLen h.setLastIssued request =
      (if h.expand then 16 else 8) * h.firstBytes + request := by
  have hfirst : (h.setLastIssued.arenas.head?.map fun a => a.lastIssued - a.addrStart).getD 0 =
      h.firstBytes := by
    unfold Heap.firstBytes Heap.setLastIssued
    rcases List.eq_nil_or_concat h.arenas with hnil | ⟨arenas, newest, hconcat⟩
    · simp [hnil]
    · rw [List.concat_eq_append] at hconcat
      obtain ⟨hclosed, hnewest⟩ := (Heap.tight_concat hconcat).mp hh
      simp only [hconcat, modify_last]
      cases arenas with
      | nil =>
        show h.nextAlloc - newest.addrStart = bytes newest.allocs
        omega
      | cons a arenas =>
        have ha := hclosed a List.mem_cons_self
        show a.lastIssued - a.addrStart = bytes a.allocs
        omega
  unfold getNextHeapRequestLen
  rw [hfirst]
  show (if h.expand then _ else _) * 8 + request = _
  split
  · omega
  · omega

/-- An arena has whole pages. -/
theorem arenaLen_wholePages (byteLen : Nat) :
    arenaLen build false byteLen = wholePages build.pageBytes byteLen :=
  rfl

/-! ## One collection -/

theorem allocs_setLastIssued :
    h.setLastIssued.arenas.map HeapArena.allocs = h.arenas.map HeapArena.allocs := by
  refine List.ext_getElem (by simp [Heap.setLastIssued]) fun k hk _ => ?_
  rw [List.getElem_map, List.getElem_map]
  unfold Heap.setLastIssued
  rw [List.getElem_modify]
  split
  · rfl
  · rfl

/-- What is copied depends on what was reached. -/
theorem copied_congr {f g : Nat → Nat → Bool}
    (hallocs : h'.arenas.map HeapArena.allocs = h.arenas.map HeapArena.allocs)
    (hfg : ∀ k (a : HeapArena), h.arenas[k]? = some a → ∀ i, i < a.allocs.length → f k i = g k i) :
    copied h' f = copied h g := by
  unfold copied
  congr 1
  have hlen : h'.arenas.length = h.arenas.length := by
    have := congrArg List.length hallocs
    simpa using this
  refine List.ext_getElem (by simp [hlen]) fun k hk hk' => ?_
  rw [List.length_mapIdx] at hk hk'
  have hk_allocs : h'.arenas[k].allocs = h.arenas[k].allocs := by
    have := List.getElem_of_eq hallocs (i := k) (by simpa using hk)
    simpa using this
  rw [List.getElem_mapIdx, List.getElem_mapIdx, hk_allocs]
  congr 1
  refine List.ext_getElem (by simp) fun i hi _ => ?_
  rw [List.length_mapIdx] at hi
  rw [List.getElem_mapIdx, List.getElem_mapIdx,
    hfg k _ (List.getElem?_eq_getElem hk') i hi]

/-- Before a collection the heap is that of before, which can not grow. -/
theorem setupCollection_self (build : Build) (s : GcState) (hne : id ≠ toSpace) (request addr : Nat) :
    (setupCollection build s id request addr).heaps id =
      { (s.heaps id).setLastIssued with expand := false } := by
  rw [setupCollection, GcState.setHeap_of_ne _ _ hne, GcState.setHeap_self]

/-- The to-space does not change what is copied. -/
theorem copied_setupCollection (build : Build) (hs : (s.heaps id).Untraced) (hne : id ≠ toSpace)
    (request addr : Nat) (trace : Trace) :
    copied ((setupCollection build s id request addr).heaps id)
        (newlyReached (setupCollection build s id request addr) trace id) =
      copied (s.heaps id) (trace id) := by
  have hself := setupCollection_self build s hne request addr
  refine copied_congr ?_ fun k a ha i hi => ?_
  · rw [hself]
    exact allocs_setLastIssued
  · unfold newlyReached
    rw [hself]
    have hk := (List.getElem?_eq_some_iff.mp ha).1
    have hallocs : ((s.heaps id).setLastIssued.arenas.map HeapArena.allocs)[k]? = some a.allocs := by
      rw [allocs_setLastIssued, List.getElem?_map, ha]
      rfl
    rw [List.getElem?_map] at hallocs
    obtain ⟨b, hb, hballocs⟩ := Option.map_eq_some_iff.mp hallocs
    have hmark : (a.allocs[i]).traced = false :=
      hs a (List.mem_of_getElem? ha) _ (List.getElem_mem hi)
    simp [hb, hballocs, List.getElem?_eq_getElem hi, hmark]

structure TightHeaps (s : GcState) : Prop extends HeapsReady s where
  toSpaceExpand : (s.heaps toSpace).expand = false
  pins : (s.heaps longTermPins).pinned = true
  tight : ∀ id, id ≠ longTermPins → (s.heaps id).Tight

theorem Collects.ne_longTermPins (hs : TightHeaps s) (hc : Collects s id) : id ≠ longTermPins := by
  rintro rfl
  exact Bool.false_ne_true (hc.1.symm.trans hs.pins)

/-- **What is copied fits** just if it is small against the first arena. -/
theorem fits_iff_small (hs : TightHeaps s) {c : Call} (hstep : s.step build c = some s') :
    Fits build s c ↔ Small build s c := by
  cases c with
  | work w => exact Iff.rfl
  | deepCopy srcHeap works => exact Iff.rfl
  | collect id request addr trace =>
    obtain ⟨hne, -⟩ := heapCollect_cases hs.toHeapsReady hstep
    let t : GcState := { s with collectorRunning := s.collectorRunning + 1 }
    obtain ⟨len, hlen, hspace⟩ :=
      setupCollection_toSpace (s := t) hs.toSpaceEmpty hne build request addr
    have hcopied :=
      copied_setupCollection build (s := t) (hs.untraced id) hne request addr trace
    refine forall_congr' fun hc => ?_
    have htight := hs.tight id (hc.ne_longTermPins hs)
    have hlen' : len = wholePages build.pageBytes
        ((if (s.heaps id).expand then 16 else 8) * (s.heaps id).firstBytes + request) := by
      rw [hlen, show (t.heaps toSpace).expand = false from hs.toSpaceExpand, arenaLen_wholePages]
      rw [show t.heaps id = s.heaps id from rfl, getNextHeapRequestLen_eq htight]
    show (∀ dst ∈ ((setupCollection build t id request addr).heaps toSpace).arenas.getLast?, _) ↔ _
    rw [hspace, hcopied]
    constructor
    · intro hfits
      have hroom := (hfits _ rfl).1
      rw [← hlen']
      exact hroom
    · rintro hsmall dst hdst
      cases hdst
      have hroom : bytes (copied (s.heaps id) (trace id)) ≤ len := by
        rw [hlen']
        exact hsmall
      refine ⟨hroom, ?_⟩
      rintro hdrs' ⟨rest, hrest⟩
      have hbytes : bytes hdrs' + bytes rest = bytes (copied (s.heaps id) (trace id)) := by
        rw [← bytes_append, hrest]
      show (copyAll addr hdrs').1 ≤ addr + len
      rw [(copyAll_spec addr hdrs').1]
      omega

/-! ## Runs -/

/-- Replacing a heap by a tight one keeps the heaps tight. -/
theorem TightHeaps.setHeap (hs : TightHeaps s) (hne : id ≠ toSpace) (hpins : id ≠ longTermPins)
    (hready : HeapsReady (s.setHeap id h)) (hh : h.Tight) : TightHeaps (s.setHeap id h) where
  toHeapsReady := hready
  toSpaceExpand := by
    rw [GcState.setHeap_of_ne s _ hne.symm]
    exact hs.toSpaceExpand
  pins := by
    rw [GcState.setHeap_of_ne s _ hpins.symm]
    exact hs.pins
  tight := by
    intro j hj
    by_cases hid : j = id
    · subst hid
      rw [GcState.setHeap_self]
      exact hh
    · rw [GcState.setHeap_of_ne s _ hid]
      exact hs.tight j hj

/-- So does moving an arena to the pins. -/
theorem TightHeaps.moveToPins (hs : TightHeaps s) (hne : id ≠ toSpace) (hpins : id ≠ longTermPins)
    {addr : Nat} (hmove : s.moveToPins build id addr = some s') : TightHeaps s' := by
  obtain ⟨hready, -⟩ := hs.toHeapsReady.moveToPins hne hmove
  unfold GcState.moveToPins at hmove
  split at hmove
  · cases hmove
  · cases hmove
    refine TightHeaps.setHeap ⟨?_, ?_, ?_, ?_⟩ hne hpins hready ?_
    · refine hs.toHeapsReady.setHeap (by decide) ?_
      rintro a ha
      rcases List.mem_append.mp ha with ha | ha
      · exact hs.untraced longTermPins a ha
      · exact (hs.untraced id).setLastIssued a ha
    · rw [GcState.setHeap_of_ne _ _ (by decide)]
      exact hs.toSpaceExpand
    · rw [GcState.setHeap_self]
      exact hs.pins
    · intro j hj
      rw [GcState.setHeap_of_ne _ _ hj]
      exact hs.tight j hj
    · exact (Heap.tight_nil rfl).addArena _ _

theorem TightHeaps.work {w : Work} (hs : TightHeaps s) (hw : s.work build w = some s') :
    TightHeaps s' := by
  obtain ⟨hready, -⟩ := work_spec hs.toHeapsReady hw
  obtain ⟨hne, hpins, ⟨h, rfl, hcases⟩ | ⟨addr, hmove⟩⟩ := work_cases hw
  · refine hs.setHeap hne hpins hready ?_
    have htight := hs.tight _ hpins
    rcases hcases with ⟨len, halloc⟩ | ⟨byteLen, addr, rfl⟩ | ⟨pinned, expand, rfl⟩
    · exact htight.alloc halloc
    · exact htight.addArena _ _
    · exact ⟨htight.closed, htight.newest⟩
  · exact hs.moveToPins hne hpins hmove

/-- So does the work between two calls. -/
theorem TightHeaps.works {works : List Work} (hs : TightHeaps s)
    (hw : works.foldlM (fun s w => s.work build w) s = some s') : TightHeaps s' := by
  induction works generalizing s with
  | nil =>
    cases hw
    exact hs
  | cons w works ih =>
    rw [List.foldlM_cons] at hw
    obtain ⟨s₁, hone, hrest⟩ := Option.bind_eq_some_iff.mp hw
    exact ih (hs.work hone) hrest

/-- Taking the to-space over changes two heaps only. -/
theorem makeToSpaceOurSpace_heaps (s : GcState) (hne : id ≠ toSpace)
    (copies : Nat × List AllocHdr) (j : HeapId) :
    (j ≠ id → j ≠ toSpace → (makeToSpaceOurSpace s id copies).heaps j = s.heaps j) ∧
      ((makeToSpaceOurSpace s id copies).heaps toSpace).expand = (s.heaps toSpace).expand ∧
      ((makeToSpaceOurSpace s id copies).heaps id).nextAlloc = copies.1 := by
  unfold makeToSpaceOurSpace
  refine ⟨fun hj hspace => ?_, ?_, ?_⟩
  · rw [GcState.setHeap_of_ne _ _ hspace, GcState.setHeap_of_ne _ _ hj]
  · rw [GcState.setHeap_self]
  · rw [GcState.setHeap_of_ne _ _ hne, GcState.setHeap_self]

/-- So does setting a collection up. -/
theorem setupCollection_heaps (build : Build) (s : GcState) (id : HeapId) (request addr : Nat)
    (j : HeapId) :
    (j ≠ id → j ≠ toSpace → (setupCollection build s id request addr).heaps j = s.heaps j) ∧
      (id ≠ toSpace → ((setupCollection build s id request addr).heaps toSpace).expand =
        (s.heaps toSpace).expand) := by
  unfold setupCollection
  refine ⟨fun hj hspace => ?_, fun hne => ?_⟩
  · rw [GcState.setHeap_of_ne _ _ hspace, GcState.setHeap_of_ne _ _ hj]
  · rw [GcState.setHeap_self, GcState.setHeap_of_ne _ _ hne.symm]
    rfl

/-- **A collection** leaves the heaps tight. -/
theorem TightHeaps.collect (hs : TightHeaps s) {request addr : Nat} {trace : Trace}
    (hcollect : heapCollect build s id request addr trace = some s') : TightHeaps s' := by
  obtain ⟨hne, hready, -⟩ := heapCollect_cases hs.toHeapsReady hcollect
  unfold heapCollect at hcollect
  split at hcollect
  · cases hcollect
  next first _ harenas =>
    split at hcollect
    next hskip =>
      cases hcollect
      by_cases hpins : id = longTermPins
      · subst hpins
        refine ⟨hready, hs.toSpaceExpand, ?_, fun j hj => ?_⟩
        · rw [GcState.setHeap_self]
          exact hs.pins
        · rw [GcState.setHeap_of_ne _ _ hj]
          exact hs.tight j hj
      · exact hs.setHeap hne hpins hready ((hs.tight id hpins).addArena _ _)
    next hreally =>
      have hpins : longTermPins ≠ id := by
        rintro rfl
        exact hreally (.inl hs.pins)
      let t : GcState := { s with collectorRunning := s.collectorRunning + 1 }
      let u := setupCollection build t id request addr
      let reached := newlyReached u trace
      let v := (u.markTraced reached).cleanupWorkLists reached id
      let copies := copyAll addr (copied (u.heaps id) (reached id))
      have hheaps : s'.heaps = (makeToSpaceOurSpace v id copies).heaps := by
        split at hcollect
        · cases hcollect
          rfl
        · cases hcollect
          rfl
      have hu := setupCollection_heaps build t id request addr
      have hw := makeToSpaceOurSpace_heaps v hne copies
      -- marking and clearing the marks leave the lengths
      have hmarks : ∀ j, (u.heaps j).Tight → (v.heaps j).Tight := by
        intro j hj
        refine Heap.Tight.mapAllocs (Heap.Tight.mapAllocs hj fun k i hdr => ?_) fun k i hdr => ?_
        · split
          · rfl
          · rfl
        · split
          · rfl
          · rfl
      refine ⟨hready, ?_, ?_, fun j hj => ?_⟩
      · rw [hheaps, (hw toSpace).2.1]
        exact ((hu toSpace).2 hne).trans hs.toSpaceExpand
      · rw [hheaps, (hw longTermPins).1 hpins (by decide)]
        show (u.heaps longTermPins).pinned = true
        rw [(hu longTermPins).1 hpins (by decide)]
        exact hs.pins
      · by_cases hid : j = id
        · subst hid
          obtain ⟨len, -, hspace⟩ :=
            setupCollection_toSpace (s := t) hs.toSpaceEmpty hne build request addr
          have hmarked : (v.heaps toSpace).arenas = [⟨addr, len, addr + len, []⟩] := by
            show (((u.heaps toSpace).mapAllocs _).mapAllocs _).arenas = _
            rw [Heap.mapAllocs_mapAllocs, Heap.mapAllocs, hspace]
            rfl
          have harena : (s'.heaps j).arenas = [] ++ [⟨addr, len, addr + len, copies.2⟩] := by
            rw [hheaps, makeToSpaceOurSpace, GcState.setHeap_of_ne _ _ hne, GcState.setHeap_self,
              hmarked]
            rfl
          refine (Heap.tight_concat harena).mpr ⟨by simp, ?_⟩
          obtain ⟨hnext, hbytes⟩ := copyAll_spec addr (copied (u.heaps j) (reached j))
          rw [hheaps, (hw j).2.2]
          show copies.1 = addr + bytes copies.2
          rw [hnext, hbytes]
        · by_cases hspace : j = toSpace
          · subst hspace
            exact Heap.tight_nil hready.toSpaceEmpty
          · rw [hheaps, (hw j).1 hid hspace]
            refine hmarks j ?_
            rw [(hu j).1 hid hspace]
            exact hs.tight j hj

/-- Every call does. -/
theorem TightHeaps.step (hs : TightHeaps s) {c : Call} (hstep : s.step build c = some s') :
    TightHeaps s' := by
  cases c with
  | work w => exact hs.work hstep
  | collect id request addr trace => exact hs.collect hstep
  | deepCopy srcHeap works =>
    have hsuspended : TightHeaps { s with collectionSuspended := true } :=
      ⟨⟨hs.untraced, hs.toSpaceEmpty⟩, hs.toSpaceExpand, hs.pins, hs.tight⟩
    cases srcHeap with
    | none =>
      cases hstep
      exact hsuspended
    | some src =>
      obtain ⟨t, hworks, hend⟩ := Option.bind_eq_some_iff.mp hstep
      cases hend
      have ht := hsuspended.works hworks
      exact ⟨⟨ht.untraced, ht.toSpaceEmpty⟩, ht.toSpaceExpand, ht.pins, ht.tight⟩

/-- At the start all heaps are tight. -/
theorem tightHeaps_start : TightHeaps .start where
  untraced := by
    rintro id a ha
    cases ha
  toSpaceEmpty := rfl
  toSpaceExpand := rfl
  pins := rfl
  tight := fun _ _ => Heap.tight_nil rfl

/-- Along a run of calls all collections fit just if all are small. -/
theorem TightHeaps.fits_iff (hs : TightHeaps s) (calls : List Call) :
    AlwaysCalls build (Fits build) s calls ↔ AlwaysCalls build (Small build) s calls := by
  induction calls generalizing s with
  | nil => exact Iff.rfl
  | cons c calls ih =>
    refine forall_congr' fun s' => forall_congr' fun hstep => ?_
    rw [fits_iff_small hs hstep, ih (hs.step hstep)]

/-- **Runs**: the copies of every collection fit if and only if at every collection the allocations
that are reached are small. -/
theorem fits_run_iff (build : Build) (calls : List Call) :
    AlwaysCalls build (Fits build) .start calls ↔ AlwaysCalls build (Small build) .start calls :=
  tightHeaps_start.fits_iff calls

theorem bytes_copiedArena_le (f : Nat → Bool) (hdrs : List AllocHdr) :
    bytes (hdrs.mapIdx fun i hdr => if f i then [hdr] else []).flatten ≤ bytes hdrs := by
  induction hdrs generalizing f with
  | nil => simp
  | cons hdr hdrs ih =>
    have hrest := ih fun i => f (i + 1)
    rw [List.mapIdx_cons, List.flatten_cons, bytes_append, bytes_cons]
    split
    · rw [bytes_cons, bytes_nil]
      omega
    · rw [bytes_nil]
      omega

theorem le_wholePages {pageBytes : Nat} (hpage : 0 < pageBytes) (len : Nat) :
    len ≤ wholePages pageBytes len := by
  unfold wholePages
  split
  · have hdiv := Nat.div_add_mod len pageBytes
    have hmod := Nat.mod_lt len hpage
    rw [Nat.mul_comm] at hdiv
    omega
  · exact le_rfl

/-- No more is live than was allocated. -/
theorem liveBytes_le {a : HeapArena} (harenas : h.arenas = [a]) (reached : Nat → Nat → Bool) :
    h.liveBytes reached ≤ bytes a.allocs := by
  rw [Heap.liveBytes, copied, harenas]
  simpa using bytes_copiedArena_le (reached 0) a.allocs

/-- A heap with one arena is small, whatever is reached. -/
theorem small_of_oneArena (hpage : 0 < build.pageBytes) {a : HeapArena}
    (harenas : (s.heaps id).arenas = [a]) (request addr : Nat) (trace : Trace) :
    Small build s (.collect id request addr trace) := by
  intro _
  have hfirst : (s.heaps id).firstBytes = bytes a.allocs := by
    rw [Heap.firstBytes, harenas]
    rfl
  rw [hfirst]
  refine (liveBytes_le harenas (trace id)).trans (le_trans ?_ (le_wholePages hpage _))
  split
  · omega
  · omega

/-- 64 bytes in the first arena of a heap and 40960 in the second do not fit. -/
theorem not_fits_secondArena :
    ¬ ∀ calls, AlwaysCalls ⟨false, 4096⟩ (Fits ⟨false, 4096⟩) .start calls := by
  intro hall
  have hsmall := (fits_run_iff _ _).mp (hall [.work (.addArena 3 4096 65536), .work (.alloc 3 64),
    .work (.addArena 3 327680 131072), .work (.alloc 3 40960),
    .collect 3 0 1048576 fun _ _ _ => true])
  have hlast := (((((hsmall _ rfl).2 _ rfl).2 _ rfl).2 _ rfl).2 _ rfl).1 ⟨rfl, rfl⟩
  exact absurd hlast (by decide)

end N00b.Gc
