import N00b.Gc.Blocks
import N00b.Lib.Trace

/-!
# Blocks are disjoint and found

Blocks lie in the parts of the arenas that were handed out, and in each of them only the first word
is the guard, so a lookup that goes back from any of its words ends at its header. A call adds a
block behind all others of its arena, or in a new arena, and a store or a copy changes one block only.

## Main results

* `MemState.Inv.find`: the lookup finds the header of a block from each of its addresses.
-/

namespace N00b.Gc

open N00b.Lib

/-! ## Lengths -/

/-- A block has room for its header and what was asked for. -/
theorem le_calculateAllocLen (ask : Nat) : hdrBytes + ask ≤ calculateAllocLen ask := by
  unfold calculateAllocLen forcedAlignment hdrBytes
  dsimp only
  split
  · omega
  · omega

/-- Blocks are aligned. -/
theorem dvd_calculateAllocLen (ask : Nat) : forcedAlignment ∣ calculateAllocLen ask := by
  unfold calculateAllocLen forcedAlignment hdrBytes
  dsimp only
  split
  · omega
  · omega

theorem calculateAllocLen_le {ask : Nat} (h : ask < 2 ^ 31 - hdrBytes) :
    calculateAllocLen ask ≤ 2 ^ 31 := by
  unfold hdrBytes at h
  unfold calculateAllocLen forcedAlignment hdrBytes
  dsimp only
  split
  · omega
  · omega

/-- The low half of the length word is the length. -/
theorem lengthWord_mod (allocLen line : Nat) (ptrScan : Bool) :
    lengthWord allocLen line ptrScan % 2 ^ 32 = allocLen % 2 ^ 32 := by
  unfold lengthWord
  omega

/-- The length word is no page jump. -/
theorem lengthWord_ne_gcPagejump {allocLen : Nat} (h : allocLen ≤ 2 ^ 31) (line : Nat)
    (ptrScan : Bool) : lengthWord allocLen line ptrScan ≠ gcPagejump := by
  intro heq
  have hmod := lengthWord_mod allocLen line ptrScan
  rw [heq] at hmod
  unfold gcPagejump at hmod
  omega

theorem bmod_of_lt {n : Nat} (h : n < 2 ^ 31) : (n : Int).bmod (2 ^ 32) = n := by
  rw [Int.bmod_def]
  split
  · omega
  · omega

/-! ## Blocks in memory -/

structure Block.Stands (p : Process) (mem : Mem) (b : Block) : Prop where
  start : forcedAlignment ∣ b.hdr
  len : forcedAlignment ∣ b.allocLen
  small : b.allocLen ≤ 2 ^ 31
  enough : hdrBytes + b.requested ≤ b.allocLen
  guard : mem b.hdr = p.guard
  length : mem (b.hdr + 24) % 2 ^ 32 = b.allocLen % 2 ^ 32
  clear : ∀ addr, 8 ∣ addr → b.hdr < addr → addr < b.stop →
    mem addr ≠ p.guard ∧ mem addr ≠ gcPagejump

variable {p : Process} {s s' : MemState} {h h' : Heap} {b c : Block} {mem mem' : Mem}
  {a newest : HeapArena} {old : List HeapArena} {len : Nat}

/-- A block stands as long as nothing is written between its ends. -/
theorem Block.Stands.congr (hb : b.Stands p mem)
    (hmem : ∀ addr, b.hdr ≤ addr → addr < b.stop → mem' addr = mem addr) : b.Stands p mem' := by
  have hlen : b.hdr + hdrBytes ≤ b.stop := by
    have henough := hb.enough
    unfold Block.stop
    omega
  unfold hdrBytes at hlen
  refine { hb with guard := ?_, length := ?_, clear := fun addr hdvd hlt hstop => ?_ }
  · rw [hmem _ (Nat.le_refl _) (by omega)]
    exact hb.guard
  · rw [hmem _ (by omega) (by omega)]
    exact hb.length
  · rw [hmem _ (Nat.le_of_lt hlt) hstop]
    exact hb.clear addr hdvd hlt hstop

/-- The length is read back from the header, as an `int32_t`. -/
theorem Block.Stands.allocLenAt (hb : b.Stands p mem) :
    allocLenAt mem b.hdr = if b.allocLen < 2 ^ 31 then (b.allocLen : Int) else -2 ^ 31 := by
  have hsmall := hb.small
  have hlength := hb.length
  unfold Gc.allocLenAt
  rewrite [Int.bmod_def]
  split
  · split
    · omega
    · omega
  · split
    · omega
    · omega

/-- **The scan back** from anywhere in a block ends at its header. -/
theorem Block.Stands.scanBack (hb : b.Stands p mem) {addrStart : Nat} (hstart : addrStart ≤ b.hdr)
    (pageBytes addr : Nat) (hdvd : 8 ∣ addr) (hle : b.hdr ≤ addr) (hlt : addr < b.stop) :
    scanBack pageBytes p.guard mem addrStart addr = b.hdr := by
  have hhdr : 8 ∣ b.hdr := Nat.dvd_trans (by decide) hb.start
  induction addr using Nat.strong_induction_on with
  | _ addr ih =>
    rw [Gc.scanBack]
    split
    · rcases Nat.eq_or_lt_of_le hle with heq | hbehind
      · rw [← heq, if_pos hb.guard]
      · obtain ⟨hguard, hjump⟩ := hb.clear addr hdvd hbehind hlt
        rw [if_neg hguard, if_neg hjump]
        exact ih (addr - 8) (by omega) (by omega) (by omega) (by omega)
    · omega

/-! ## Arenas -/

/-- Where the arenas of a heap lie, and how far they are handed out. -/
structure ArenaLayout (p : Process) (h : Heap) (old : List HeapArena) (newest : HeapArena) :
    Prop where
  arenas : h.arenas = old ++ [newest]
  issued : newest.lastIssued = newest.addrEnd
  first : newest.addrStart ≤ h.nextAlloc
  last : h.nextAlloc ≤ newest.addrEnd
  closed : ∀ a ∈ old, a.lastIssued ≤ a.addrEnd
  start : ∀ a ∈ h.arenas, 0 < a.addrStart
  aligned : forcedAlignment ∣ h.nextAlloc
  apart : h.arenas.Pairwise fun a a' => Apart a.addrStart a.addrEnd a'.addrStart a'.addrEnd
  others : ∀ a ∈ h.arenas, ∀ o ∈ p.others, Apart a.addrStart a.addrEnd o.addrStart o.addrEnd

def HandedOut (h : Heap) (old : List HeapArena) (newest : HeapArena) (b : Block) : Prop :=
  (newest.addrStart ≤ b.hdr ∧ b.stop ≤ h.nextAlloc) ∨
    ∃ a ∈ old, a.addrStart ≤ b.hdr ∧ b.stop ≤ a.lastIssued

theorem Apart.symm {start stop start' stop' : Nat} (h : Apart start stop start' stop') :
    Apart start' stop' start stop :=
  Or.symm h

/-- A block that was handed out lies in one arena. -/
theorem HandedOut.inside (hb : HandedOut h old newest b) (hl : ArenaLayout p h old newest) :
    ∃ a ∈ h.arenas, a.addrStart ≤ b.hdr ∧ b.stop ≤ a.addrEnd ∧ b.stop ≤ a.lastIssued ∧
      (h.arenas.getLast? = some a → b.stop ≤ h.nextAlloc) := by
  have hlast := hl.last
  have hissued := hl.issued
  rcases hb with ⟨hstart, hstop⟩ | ⟨a, ha, hstart, hstop⟩
  · refine ⟨newest, by simp [hl.arenas], hstart, by omega, by omega, fun _ => hstop⟩
  · have hclosed := hl.closed a ha
    refine ⟨a, by simp [hl.arenas, ha], hstart, by omega, hstop, fun hnewest => ?_⟩
    -- an arena that is the newest and an older one would not be apart from itself
    have hpair := hl.apart
    rw [hl.arenas, List.getLast?_concat] at hnewest
    cases hnewest
    rw [hl.arenas, List.pairwise_append] at hpair
    have hself := hpair.2.2 newest ha newest List.mem_cons_self
    unfold Apart at hself
    have hfirst := hl.first
    omega

/-- An address lies in one arena at most. -/
theorem ArenaLayout.unique (hl : ArenaLayout p h old newest) {a' : HeapArena} (ha : a ∈ h.arenas)
    (ha' : a' ∈ h.arenas) {x : Nat} (hin : a.addrStart ≤ x ∧ x < a.addrEnd)
    (hin' : a'.addrStart ≤ x ∧ x < a'.addrEnd) : a = a' := by
  by_contra hne
  have hsymm : Std.Symm fun a a' : HeapArena =>
      Apart a.addrStart a.addrEnd a'.addrStart a'.addrEnd := ⟨fun _ _ => Apart.symm⟩
  have happart := hl.apart.forall ha ha' hne
  unfold Apart at happart
  omega

/-- A new arena keeps the arenas apart. -/
theorem ArenaLayout.addArena (hl : ArenaLayout p h old newest) {byteLen start : Nat}
    (hfresh : p.Fresh h start (arenaLen p.build h.expand byteLen + 4 * p.build.pageBytes)) :
    ArenaLayout p (h.addArena p.build byteLen (start + 3 * p.build.pageBytes))
      (old ++ [{ newest with lastIssued := h.nextAlloc }])
      ⟨start + 3 * p.build.pageBytes, arenaLen p.build h.expand byteLen,
        start + 3 * p.build.pageBytes + arenaLen p.build h.expand byteLen, []⟩ := by
  obtain ⟨hdvd, -, hapart⟩ := hfresh
  obtain ⟨hpos, hpage⟩ := p.pageBytes
  have harenas : (h.addArena p.build byteLen (start + 3 * p.build.pageBytes)).arenas =
      (old ++ [{ newest with lastIssued := h.nextAlloc }]) ++
        [⟨start + 3 * p.build.pageBytes, arenaLen p.build h.expand byteLen,
          start + 3 * p.build.pageBytes + arenaLen p.build h.expand byteLen, []⟩] := by
    rw [Heap.addArena, hl.arenas, modify_last]
  -- the arena that is full keeps its place
  have hplace : ∀ a ∈ old ++ [{ newest with lastIssued := h.nextAlloc }], ∃ a' ∈ h.arenas,
      a'.addrStart = a.addrStart ∧ a'.addrEnd = a.addrEnd := by
    rintro a ha
    rcases List.mem_append.mp ha with ha | ha
    · exact ⟨a, by simp [hl.arenas, ha], rfl, rfl⟩
    · obtain rfl := List.mem_singleton.mp ha
      exact ⟨newest, by simp [hl.arenas], rfl, rfl⟩
  have hnew : ∀ o ∈ p.others ++ h.arenas.map HeapArena.toArena,
      Apart (start + 3 * p.build.pageBytes)
        (start + 3 * p.build.pageBytes + arenaLen p.build h.expand byteLen)
        o.addrStart o.addrEnd := by
    intro o ho
    rcases hapart o ho with hbefore | hbehind
    · exact .inl (by omega)
    · exact .inr (by omega)
  refine ⟨harenas, rfl, Nat.le_refl _, Nat.le_add_right _ _, ?_, ?_, ?_, ?_, ?_⟩
  · rintro a ha
    rcases List.mem_append.mp ha with ha | ha
    · exact hl.closed a ha
    · obtain rfl := List.mem_singleton.mp ha
      exact hl.last
  · rw [harenas]
    rintro a ha
    rcases List.mem_append.mp ha with ha | ha
    · obtain ⟨a', ha', hstart, -⟩ := hplace a ha
      rw [← hstart]
      exact hl.start a' ha'
    · obtain rfl := List.mem_singleton.mp ha
      show 0 < start + 3 * p.build.pageBytes
      omega
  · exact Nat.dvd_add (Nat.dvd_trans hpage hdvd) (Nat.dvd_mul_left_of_dvd hpage 3)
  · rw [harenas]
    refine List.pairwise_append.mpr ⟨?_, List.pairwise_singleton _ _, ?_⟩
    · have hpair := hl.apart
      rw [hl.arenas] at hpair
      obtain ⟨hold, -, hnewest⟩ := List.pairwise_append.mp hpair
      refine List.pairwise_append.mpr ⟨hold, List.pairwise_singleton _ _, fun a ha b hb => ?_⟩
      obtain rfl := List.mem_singleton.mp hb
      exact hnewest a ha newest List.mem_cons_self
    · intro a ha b hb
      obtain rfl := List.mem_singleton.mp hb
      obtain ⟨a', ha', hstart, hend⟩ := hplace a ha
      rw [← hstart, ← hend]
      exact (hnew a'.toArena (by simp [List.mem_map_of_mem ha'])).symm
  · rw [harenas]
    rintro a ha o ho
    rcases List.mem_append.mp ha with ha | ha
    · obtain ⟨a', ha', hstart, hend⟩ := hplace a ha
      rw [← hstart, ← hend]
      exact hl.others a' ha' o ho
    · obtain rfl := List.mem_singleton.mp ha
      exact hnew o (by simp [ho])

theorem HandedOut.addArena (hb : HandedOut h old newest b) (byteLen addr : Nat) (a : HeapArena) :
    HandedOut (h.addArena p.build byteLen addr) (old ++ [{ newest with lastIssued := h.nextAlloc }])
      a b := by
  rcases hb with ⟨hstart, hstop⟩ | ⟨a', ha', hstart, hstop⟩
  · exact .inr ⟨_, List.mem_append_right _ List.mem_cons_self, hstart, hstop⟩
  · exact .inr ⟨a', List.mem_append_left _ ha', hstart, hstop⟩

/-- An allocation takes the next bytes of the newest arena. -/
theorem ArenaLayout.alloc (hl : ArenaLayout p h old newest) (hlen : forcedAlignment ∣ len)
    (halloc : h.alloc len = some h') :
    ¬ needSpace newest h.nextAlloc len ∧ h'.nextAlloc = h.nextAlloc + len ∧
      ∃ allocs, ArenaLayout p h' old { newest with allocs := allocs } := by
  have hlast : h.arenas.getLast? = some newest := by
    rw [hl.arenas, List.getLast?_concat]
  unfold Heap.alloc at halloc
  rw [hlast] at halloc
  dsimp only at halloc
  split at halloc
  · cases halloc
  next hspace =>
    cases halloc
    refine ⟨hspace, rfl, newest.allocs ++ [⟨len, false⟩], ?_⟩
    obtain ⟨-, hend⟩ := not_or.mp hspace
    have hsame : ∀ a ∈ old ++ [{ newest with allocs := newest.allocs ++ [⟨len, false⟩] }],
        ∃ a' ∈ h.arenas, a'.addrStart = a.addrStart ∧ a'.addrEnd = a.addrEnd := by
      rintro a ha
      rcases List.mem_append.mp ha with ha | ha
      · exact ⟨a, by simp [hl.arenas, ha], rfl, rfl⟩
      · obtain rfl := List.mem_singleton.mp ha
        exact ⟨newest, by simp [hl.arenas], rfl, rfl⟩
    have harenas : h.arenas.modify (h.arenas.length - 1)
        (fun a => { a with allocs := a.allocs ++ [⟨len, false⟩] }) =
          old ++ [{ newest with allocs := newest.allocs ++ [⟨len, false⟩] }] := by
      rw [hl.arenas, modify_last]
    refine ⟨harenas, hl.issued, ?_, ?_, hl.closed, ?_, Nat.dvd_add hl.aligned hlen, ?_, ?_⟩
    · have hfirst := hl.first
      show newest.addrStart ≤ h.nextAlloc + len
      omega
    · show h.nextAlloc + len ≤ newest.addrEnd
      omega
    · show ∀ a ∈ List.modify _ _ _, _
      rw [harenas]
      intro a ha
      obtain ⟨a', ha', hstart, -⟩ := hsame a ha
      rw [← hstart]
      exact hl.start a' ha'
    · show List.Pairwise _ (List.modify _ _ _)
      rw [harenas]
      have hpair := hl.apart
      rw [hl.arenas] at hpair
      obtain ⟨hold, -, hnewest⟩ := List.pairwise_append.mp hpair
      refine List.pairwise_append.mpr ⟨hold, List.pairwise_singleton _ _, fun a ha b hb => ?_⟩
      obtain rfl := List.mem_singleton.mp hb
      exact hnewest a ha newest List.mem_cons_self
    · show ∀ a ∈ List.modify _ _ _, _
      rw [harenas]
      intro a ha o ho
      obtain ⟨a', ha', hstart, hend⟩ := hsame a ha
      rw [← hstart, ← hend]
      exact hl.others a' ha' o ho

theorem HandedOut.grow {allocs : List AllocHdr} (hb : HandedOut h old newest b)
    (hnext : h.nextAlloc ≤ h'.nextAlloc) :
    HandedOut h' old { newest with allocs := allocs } b := by
  rcases hb with ⟨hstart, hstop⟩ | hold
  · exact .inl ⟨hstart, Nat.le_trans hstop hnext⟩
  · exact .inr hold

/-! ## New blocks -/

theorem store_of_ne {addr addr' : Nat} (hne : addr' ≠ addr) (w : Nat) :
    mem.store addr w addr' = mem addr' :=
  Function.update_of_ne hne ..

theorem store_self (addr w : Nat) : mem.store addr w addr = w :=
  Function.update_self ..

theorem zero_of_apart {start len addr : Nat} (h : addr < start ∨ start + len ≤ addr) :
    mem.zero start len addr = mem addr :=
  if_neg (by omega)

theorem zero_of_mem {start len addr : Nat} (hge : start ≤ addr) (hlt : addr < start + len) :
    mem.zero start len addr = 0 :=
  if_pos ⟨hge, hlt⟩

section

variable {hdr len file line : Nat} {ptrScan : Bool}

/-- Writing a header leaves what is outside of the block. -/
theorem initBlock_of_apart (hlen : hdrBytes ≤ len) {addr : Nat}
    (h : addr < hdr ∨ hdr + len ≤ addr) :
    mem.initBlock hdr len p.guard file line ptrScan addr = mem addr := by
  unfold hdrBytes at hlen
  unfold Mem.initBlock
  rw [store_of_ne (by omega), store_of_ne (by omega), store_of_ne (by omega), zero_of_apart h]

theorem initBlock_hdr : mem.initBlock hdr len p.guard file line ptrScan hdr = p.guard := by
  unfold Mem.initBlock
  rw [store_of_ne (by omega), store_of_ne (by omega), store_self]

theorem initBlock_length :
    mem.initBlock hdr len p.guard file line ptrScan (hdr + 24) = lengthWord len line ptrScan := by
  unfold Mem.initBlock
  rw [store_of_ne (by omega), store_self]

/-- A new block is zero behind its header. -/
theorem initBlock_zero {addr : Nat} (hge : hdr < addr) (hlt : addr < hdr + len)
    (hfile : addr ≠ hdr + 16) (hlength : addr ≠ hdr + 24) :
    mem.initBlock hdr len p.guard file line ptrScan addr = 0 := by
  unfold Mem.initBlock
  rw [store_of_ne hfile, store_of_ne hlength, store_of_ne (by omega), zero_of_mem (by omega) hlt]

/-- **A new block stands**: its header is found again, and names its length. -/
theorem stands_initBlock (hguard : p.guard ≠ 0) {requestLen : Nat}
    (hclear : p.Clear requestLen file line ptrScan) (hsize : requestLen < 2 ^ 31 - hdrBytes)
    (hdr_dvd : forcedAlignment ∣ hdr) :
    Block.Stands p (mem.initBlock hdr (calculateAllocLen requestLen) p.guard file line ptrScan)
      ⟨hdr, calculateAllocLen requestLen, requestLen⟩ where
  start := hdr_dvd
  len := dvd_calculateAllocLen requestLen
  small := calculateAllocLen_le hsize
  enough := le_calculateAllocLen requestLen
  guard := initBlock_hdr
  length := by rw [initBlock_length, lengthWord_mod]
  clear addr _ hge hlt := by
    obtain ⟨hfile, hjump, hlength⟩ := hclear
    by_cases hat_file : addr = hdr + 16
    · rw [hat_file, Mem.initBlock, store_self]
      exact ⟨hfile, hjump⟩
    by_cases hat_length : addr = hdr + 24
    · rw [hat_length, initBlock_length]
      exact ⟨hlength, lengthWord_ne_gcPagejump (calculateAllocLen_le hsize) line ptrScan⟩
    · rw [initBlock_zero hge hlt hat_file hat_length]
      exact ⟨hguard.symm, by decide⟩

end

/-! ## The invariant -/

/-- **The invariant**: the blocks stand in memory, in what the arenas have handed out, and apart
from each other. -/
structure MemState.Inv (p : Process) (s : MemState) : Prop where
  layout : ∃ old newest, ArenaLayout p s.heap old newest ∧
    ∀ b ∈ s.blocks, HandedOut s.heap old newest b
  stands : ∀ b ∈ s.blocks, b.Stands p s.mem
  apart : s.blocks.Pairwise fun b c => Apart b.hdr b.stop c.hdr c.stop

/-- Every block lies in an arena of the heap. -/
theorem MemState.Inv.inside (hs : s.Inv p) (hb : b ∈ s.blocks) :
    ∃ a ∈ s.heap.arenas, a.addrStart ≤ b.hdr ∧ b.stop ≤ a.addrEnd := by
  obtain ⟨old, newest, hl, hout⟩ := hs.layout
  obtain ⟨a, ha, hstart, hstop, -⟩ := (hout b hb).inside hl
  exact ⟨a, ha, hstart, hstop⟩

/-- The heap has more room than before, and its arenas hold what they held. -/
structure MemState.Extends (s s' : MemState) : Prop where
  arenas : ∀ a ∈ s.heap.arenas, ∃ a' ∈ s'.heap.arenas,
    a'.addrStart = a.addrStart ∧ a'.addrEnd = a.addrEnd
  mem : ∀ a ∈ s.heap.arenas, ∀ addr, a.addrStart ≤ addr → addr < a.addrEnd →
    s'.mem addr = s.mem addr

theorem MemState.Extends.readable (he : s.Extends s') {start stop : Nat}
    (h : s.heap.Readable start stop) : s'.heap.Readable start stop := by
  obtain ⟨a, ha, hstart, hstop⟩ := h
  obtain ⟨a', ha', hstart', hend'⟩ := he.arenas a ha
  exact ⟨a', ha', by omega, by omega⟩

/-- **Making space** adds an arena where the newest has no room, and keeps the blocks. -/
theorem MemState.Inv.makeSpace (hs : s.Inv p) {len start : Nat}
    (h : s.makeSpace p len start = some s') :
    s'.Inv p ∧ s.Extends s' ∧ s'.blocks = s.blocks ∧
      (s' = s ∨ ((∀ newest ∈ s.heap.arenas.getLast?, needSpace newest s.heap.nextAlloc len) ∧
        ∀ a ∈ s.heap.arenas, ∀ newest ∈ s'.heap.arenas.getLast?,
          s'.heap.nextAlloc = newest.addrStart ∧
            Apart a.addrStart a.addrEnd newest.addrStart newest.addrEnd)) := by
  obtain ⟨old, newest, hl, hout⟩ := hs.layout
  have hlast : s.heap.arenas.getLast? = some newest := by
    rw [hl.arenas, List.getLast?_concat]
  unfold MemState.makeSpace at h
  rw [hlast] at h
  dsimp only at h
  split at h
  next hspace =>
    unfold MemState.addArena at h
    dsimp only at h
    split at h
    next hfresh =>
      cases h
      have hl' := hl.addArena hfresh
      have hkeep : ∀ a ∈ s.heap.arenas, ∀ addr, a.addrStart ≤ addr → addr < a.addrEnd →
          s.mem.zero (start + 3 * p.build.pageBytes) (arenaLen p.build s.heap.expand
            (max (len * 8) (newest.userLength * 8))) addr = s.mem addr := by
        intro a ha addr hge hlt
        have hapart := hfresh.2.2 a.toArena (by simp [List.mem_map_of_mem ha])
        unfold Mem.zero
        rw [if_neg]
        unfold Apart HeapArena.toArena at hapart
        dsimp only at hapart
        omega
      refine ⟨⟨⟨_, _, hl', fun b hb => (hout b hb).addArena ..⟩, fun b hb => ?_, hs.apart⟩,
        ⟨fun a ha => ?_, hkeep⟩, rfl, .inr ⟨fun a ha => ?_, fun a ha a' ha' => ?_⟩⟩
      · obtain ⟨a, ha, hstart, hstop⟩ := hs.inside hb
        exact (hs.stands b hb).congr fun addr hge hlt => hkeep a ha addr (by omega) (by omega)
      · rw [hl.arenas] at ha
        rw [hl'.arenas]
        rcases List.mem_append.mp ha with ha | ha
        · exact ⟨a, by simp [ha], rfl, rfl⟩
        · obtain rfl := List.mem_singleton.mp ha
          exact ⟨{ a with lastIssued := s.heap.nextAlloc }, by simp, rfl, rfl⟩
      · rw [hlast] at ha
        cases ha
        exact hspace
      · rw [hl'.arenas, List.getLast?_concat] at ha'
        cases ha'
        refine ⟨rfl, ?_⟩
        have hapart := hfresh.2.2 a.toArena (by simp [List.mem_map_of_mem ha])
        unfold Apart HeapArena.toArena at hapart
        dsimp only at hapart
        show Apart _ _ _ (start + 3 * p.build.pageBytes + _)
        unfold Apart
        dsimp only
        omega
    next => cases h
  next =>
    cases h
    exact ⟨hs, ⟨fun a ha => ⟨a, ha, rfl, rfl⟩, fun _ _ _ _ _ => rfl⟩, rfl, .inl rfl⟩

structure MemState.Adds (s s' : MemState) (b : Block) (requestLen : Nat) : Prop where
  requested : b.requested = requestLen
  allocLen : b.allocLen = calculateAllocLen requestLen
  ret : s'.ret = b.data
  blocks : s'.blocks = b :: s.blocks
  zero : ∀ addr, b.data ≤ addr → addr < b.stop → s'.mem addr = 0
  kept : ∀ a ∈ s.heap.arenas, ∀ addr, a.addrStart ≤ addr → addr < a.addrEnd →
    addr < b.hdr ∨ b.stop ≤ addr → s'.mem addr = s.mem addr
  readable : ∀ start stop, s.heap.Readable start stop → s'.heap.Readable start stop
  place : b.hdr = s.heap.nextAlloc ∧
      (∀ newest ∈ s.heap.arenas.getLast?, ¬ needSpace newest s.heap.nextAlloc b.allocLen) ∨
    ∀ a ∈ s.heap.arenas, Apart a.addrStart a.addrEnd b.hdr b.stop

/-- **An allocation** returns a block that is new, zero and apart from the others. -/
theorem MemState.Inv.heapAlloc (hs : s.Inv p) (hguard : p.guard ≠ 0) {requestLen : Nat}
    {ptrScan : Bool} {file line start : Nat} (hclear : p.Clear requestLen file line ptrScan)
    (hsize : requestLen < 2 ^ 31 - hdrBytes)
    (h : s.heapAlloc p requestLen ptrScan file line start = some s') :
    s'.Inv p ∧ ∃ b, s.Adds s' b requestLen := by
  unfold MemState.heapAlloc at h
  obtain ⟨s₁, hspace, halloc⟩ := Option.bind_eq_some_iff.mp h
  obtain ⟨heap, hheap, rfl⟩ := Option.map_eq_some_iff.mp halloc
  obtain ⟨hs₁, hextends, hblocks, hwhere⟩ := hs.makeSpace hspace
  obtain ⟨old, newest, hl, hout⟩ := hs₁.layout
  obtain ⟨hroom, hnext, allocs, hl'⟩ := hl.alloc (dvd_calculateAllocLen requestLen) hheap
  have hlen : hdrBytes ≤ calculateAllocLen requestLen := by
    have hle := le_calculateAllocLen requestLen
    omega
  have hlast : s₁.heap.arenas.getLast? = some newest := by
    rw [hl.arenas, List.getLast?_concat]
  obtain ⟨hstart, hend⟩ := not_or.mp hroom
  have hfirst := hl.first
  -- the new block lies behind all others
  have hbehind : ∀ b ∈ s₁.blocks, Apart s₁.heap.nextAlloc
      (s₁.heap.nextAlloc + calculateAllocLen requestLen) b.hdr b.stop := by
    intro b hb
    rcases hout b hb with ⟨-, hstop⟩ | ⟨a, ha, hge, hstop⟩
    · exact .inr hstop
    · have hpair := hl.apart
      rw [hl.arenas] at hpair
      have happart := (List.pairwise_append.mp hpair).2.2 a ha newest List.mem_cons_self
      have hclosed := hl.closed a ha
      unfold Apart at happart ⊢
      omega
  have hapart : ∀ b ∈ s₁.blocks, ∀ addr, b.hdr ≤ addr → addr < b.stop →
      addr < s₁.heap.nextAlloc ∨ s₁.heap.nextAlloc + calculateAllocLen requestLen ≤ addr := by
    intro b hb addr hge hlt
    rcases hbehind b hb with hbefore | hafter
    · exact .inr (by omega)
    · exact .inl (by omega)
  refine ⟨⟨⟨old, _, hl', ?_⟩, ?_, ?_⟩,
    ⟨s₁.heap.nextAlloc, calculateAllocLen requestLen, requestLen⟩, rfl, rfl, rfl, by rw [hblocks], ?_, ?_, ?_, ?_⟩
  · rintro b hb
    rcases List.mem_cons.mp hb with rfl | hb
    · exact .inl ⟨hfirst, Nat.le_of_eq hnext.symm⟩
    · exact (hout b hb).grow (by rw [hnext]; exact Nat.le_add_right _ _)
  · rintro b hb
    rcases List.mem_cons.mp hb with rfl | hb
    · exact stands_initBlock hguard hclear hsize hl.aligned
    · exact (hs₁.stands b hb).congr fun addr hge hlt =>
        initBlock_of_apart hlen (hapart b hb addr hge hlt)
  · exact List.pairwise_cons.mpr ⟨hbehind, hs₁.apart⟩
  · intro addr hge hlt
    have hge : s₁.heap.nextAlloc + hdrBytes ≤ addr := hge
    unfold hdrBytes at hge
    exact initBlock_zero (by omega) hlt (by omega) (by omega)
  · intro a ha addr hge hlt hout
    exact (initBlock_of_apart hlen hout).trans (hextends.mem a ha addr hge hlt)
  · intro start stop hread
    obtain ⟨a, ha, hge, hle⟩ := hextends.readable hread
    rw [hl.arenas] at ha
    rcases List.mem_append.mp ha with ha | ha
    · exact ⟨a, by simp [hl'.arenas, ha], hge, hle⟩
    · obtain rfl := List.mem_singleton.mp ha
      exact ⟨{ a with allocs := allocs }, by simp [hl'.arenas], hge, hle⟩
  · rcases hwhere with rfl | ⟨-, hfresh⟩
    · refine .inl ⟨rfl, fun a ha => ?_⟩
      rw [hlast] at ha
      cases ha
      exact hroom
    · refine .inr fun a ha => ?_
      obtain ⟨hnext₁, hnew⟩ := hfresh a ha newest hlast
      show Apart _ _ s₁.heap.nextAlloc (s₁.heap.nextAlloc + calculateAllocLen requestLen)
      unfold Apart at hnew ⊢
      omega

/-! ## Changes to one block -/

/-- Blocks do not overlap. -/
theorem MemState.Inv.unique (hs : s.Inv p) (hb : b ∈ s.blocks) (hc : c ∈ s.blocks) {x : Nat}
    (hin : b.hdr ≤ x ∧ x < b.stop) (hin' : c.hdr ≤ x ∧ x < c.stop) : b = c := by
  by_contra hne
  have hsymm : Std.Symm fun b c : Block => Apart b.hdr b.stop c.hdr c.stop :=
    ⟨fun _ _ => Apart.symm⟩
  have happart := hs.apart.forall hb hc hne
  unfold Apart at happart
  omega

theorem Block.Stands.data_le (hb : b.Stands p mem) : b.data + b.requested ≤ b.stop := by
  have henough := hb.enough
  unfold Block.data Block.stop
  omega

theorem Block.hdr_lt_data (b : Block) : b.hdr < b.data :=
  Nat.lt_add_of_pos_right (by decide)

/-- What is stored in the data of a block leaves the headers. -/
theorem MemState.Inv.rewrite (hs : s.Inv p) (hb : b ∈ s.blocks) {m : Mem}
    (hout : ∀ addr, addr < b.data ∨ b.stop ≤ addr → m addr = s.mem addr)
    (hclear : ∀ addr, 8 ∣ addr → b.data ≤ addr → addr < b.stop →
      m addr ≠ p.guard ∧ m addr ≠ gcPagejump) : MemState.Inv p { s with mem := m } := by
  refine ⟨hs.layout, fun c hc => ?_, hs.apart⟩
  have hstands := hs.stands c hc
  have hdata := hstands.data_le
  by_cases hcb : c = b
  · subst hcb
    have hlt := c.hdr_lt_data
    have hdata_eq : c.data = c.hdr + 48 := rfl
    refine { hstands with guard := ?_, length := ?_, clear := fun addr hdvd hge hstop => ?_ }
    · exact (hout c.hdr (.inl hlt)).trans hstands.guard
    · have hkeep := hout (c.hdr + 24) (.inl (by omega))
      show m (c.hdr + 24) % _ = _
      rw [hkeep]
      exact hstands.length
    · by_cases haddr : addr < c.data
      · show m addr ≠ _ ∧ m addr ≠ _
        rw [hout addr (.inl haddr)]
        exact hstands.clear addr hdvd hge hstop
      · exact hclear addr hdvd (Nat.le_of_not_lt haddr) hstop
  · refine hstands.congr fun addr hge hlt => hout addr ?_
    by_contra hin
    have hlt_data := b.hdr_lt_data
    exact hcb (hs.unique hc hb ⟨hge, hlt⟩ ⟨by omega, by omega⟩)

/-- A store of the program keeps the heap, unless it writes a page jump. -/
theorem MemState.Inv.store (hs : s.Inv p) {addr w : Nat} (hjump : w ≠ gcPagejump)
    (h : s.step p (.store addr w) = some s') : s'.Inv p := by
  unfold MemState.step at h
  dsimp only at h
  split at h
  next hok =>
    cases h
    obtain ⟨-, -, hguard, b, hb, hge, hlt, -⟩ := hok
    have hdata := (hs.stands b hb).data_le
    refine hs.rewrite hb (fun addr' hout => store_of_ne (by omega) w)
      fun addr' hdvd hge' hstop => ?_
    by_cases haddr : addr' = addr
    · rw [haddr, store_self]
      exact ⟨hguard, hjump⟩
    · rw [store_of_ne haddr]
      have hlt_data := b.hdr_lt_data
      exact (hs.stands b hb).clear addr' hdvd (by omega) hstop
  next => cases h

/-- A block is given another length inside of its bytes. -/
theorem MemState.Inv.resize (hs : s.Inv p) (hb : b ∈ s.blocks) {len : Nat}
    (hlen : hdrBytes + len ≤ b.allocLen) (ret : Nat) :
    MemState.Inv p { s with
      blocks := s.blocks.map fun c => if c.hdr = b.hdr then { c with requested := len } else c
      ret := ret } := by
  have hplace : ∀ c : Block,
      (if c.hdr = b.hdr then { c with requested := len } else c).hdr = c.hdr ∧
      (if c.hdr = b.hdr then { c with requested := len } else c).stop = c.stop := by
    intro c
    split
    · exact ⟨rfl, rfl⟩
    · exact ⟨rfl, rfl⟩
  refine ⟨?_, fun c' hc' => ?_, ?_⟩
  · obtain ⟨old, newest, hl, hout⟩ := hs.layout
    refine ⟨old, newest, hl, fun c' hc' => ?_⟩
    obtain ⟨c, hc, rfl⟩ := List.mem_map.mp hc'
    unfold HandedOut
    rw [(hplace c).1, (hplace c).2]
    exact hout c hc
  · obtain ⟨c, hc, rfl⟩ := List.mem_map.mp hc'
    split
    next hsame =>
      have hstop_c := (hs.stands c hc).data_le
      have hstop_b := (hs.stands b hb).data_le
      have hlt_c := c.hdr_lt_data
      have hlt_b := b.hdr_lt_data
      obtain rfl := hs.unique hc hb (x := c.hdr) ⟨Nat.le_refl _, by omega⟩ ⟨by omega, by omega⟩
      have hstands := hs.stands c hc
      exact ⟨hstands.start, hstands.len, hstands.small, hlen, hstands.guard, hstands.length,
        hstands.clear⟩
    next => exact hs.stands c hc
  · refine List.pairwise_map.mpr (hs.apart.imp fun {c c'} h => ?_)
    rw [(hplace c).1, (hplace c).2, (hplace c').1, (hplace c').2]
    exact h

/-! ## Calls -/

theorem MemState.Adds.carries (hadds : s.Adds s' b len) : Carries s s' none len :=
  ⟨b, by simp [hadds.blocks], hadds.ret, hadds.requested, fun i _ hlt =>
    hadds.zero _ (Nat.le_add_right _ _) hlt⟩

/-- The bytes that are copied behind a shorter block are zero. -/
theorem MemState.Adds.spare (hadds : s.Adds s' b len) {ptr allocLen : Nat}
    (hspare : s.Spare ptr allocLen len) {addr : Nat} (hge : ptr + allocLen - hdrBytes ≤ addr)
    (hlt : addr < ptr + allocLen) (hlen : hdrBytes ≤ allocLen)
    (hdvd : 8 ∣ addr - (ptr + allocLen - hdrBytes)) : s'.mem addr = 0 := by
  obtain ⟨⟨a, ha, hstart, hend⟩, hzero, hplace⟩ := hspare
  unfold hdrBytes at hge hlen hdvd hzero hplace
  have hout : addr < b.hdr ∨ b.stop ≤ addr := by
    have hallocLen := hadds.allocLen
    unfold Block.stop
    rcases hadds.place with ⟨hnext, hroom⟩ | hfresh
    · obtain ⟨newest, hnewest⟩ : ∃ newest, s.heap.arenas.getLast? = some newest :=
        ⟨_, List.getLast?_eq_some_getLast (List.ne_nil_of_mem ha)⟩
      rcases hplace newest hnewest with hspace | happart
      · rw [← hallocLen] at hspace
        exact absurd hspace (hroom newest hnewest)
      · unfold Apart at happart
        omega
    · have happart := hfresh a ha
      unfold Apart Block.stop at happart
      omega
  rw [hadds.kept a ha addr (by omega) (by omega) hout]
  obtain ⟨k, hk⟩ := hdvd
  have haddr : addr = ptr + allocLen - 48 + 8 * k := by omega
  have hk_lt : k < 6 := by omega
  rw [haddr]
  exact hzero (8 * k) (by interval_cases k <;> simp)

theorem copy_of_apart {dst src addr : Nat} (h : addr < dst ∨ dst + len ≤ addr) :
    mem.copy dst src len addr = mem addr :=
  if_neg (by omega)

/-- What was copied is what was there. -/
theorem copy_of_mem {dst src addr : Nat} (hge : dst ≤ addr) (hlt : addr < dst + len) :
    mem.copy dst src len addr = mem (src + (addr - dst)) :=
  if_pos ⟨hge, hlt⟩

theorem Block.Stands.eight_dvd_data (hb : b.Stands p mem) : 8 ∣ b.data :=
  Nat.dvd_add (Nat.dvd_trans (by decide) hb.start) (by decide)

/-- A block that grows keeps its contents, with zeros behind them. -/
theorem MemState.Inv.copied (hs : s.Inv p) (hb : b ∈ s.blocks) (hs' : s'.Inv p)
    (hadds : s.Adds s' c len) (hspare : s.Spare b.data b.allocLen len) (i : Nat) (hdvd : 8 ∣ i)
    (hstop : c.data + i < c.stop) :
    s'.mem.copy c.data b.data b.allocLen (c.data + i) =
      if b.data + i < b.stop then s.mem (b.data + i) else 0 := by
  have hstands := hs.stands b hb
  have hstop_b : b.stop + hdrBytes = b.data + b.allocLen := by
    unfold Block.stop Block.data
    omega
  have hlen := hstands.enough
  have hdvd_len : 8 ∣ b.allocLen := Nat.dvd_trans (by decide) hstands.len
  unfold hdrBytes at hstop_b hlen
  by_cases hi : i < b.allocLen
  · rw [copy_of_mem (Nat.le_add_right _ _) (by omega), Nat.add_sub_cancel_left]
    split
    next hin =>
      obtain ⟨a, ha, hge, hle⟩ := hs.inside hb
      have hpair := hs'.apart
      rw [hadds.blocks] at hpair
      have happart := (List.pairwise_cons.mp hpair).1 b hb
      have hlt := b.hdr_lt_data
      unfold Apart at happart
      exact hadds.kept a ha _ (by omega) (by omega) (by omega)
    next hout =>
      have hhdr : hdrBytes = 48 := rfl
      exact hadds.spare hspare (by omega) (by omega) (by omega) (by omega)
  · rw [copy_of_apart (.inr (by omega)), if_neg (by omega)]
    exact hadds.zero _ (Nat.le_add_right _ _) hstop

/-- **A resized block** keeps what it held. -/
theorem MemState.Inv.reallocWrap (hs : s.Inv p) (hguard : p.guard ≠ 0) (hb : b ∈ s.blocks)
    {ptrScan : Bool} {file line start : Nat} (hsize : len < 2 ^ 31 - hdrBytes)
    (hcareful : hdrBytes + len ≤ allocLenAt s.mem b.hdr ∨
      0 ≤ allocLenAt s.mem b.hdr ∧ allocLenAt s.mem b.hdr < len ∧ p.Clear len file line ptrScan ∧
        s.Spare b.data (allocLenAt s.mem b.hdr).toNat len)
    (h : s.reallocWrap p b.data len ptrScan file line start = some s') :
    s'.Inv p ∧ Carries s s' (some b) len := by
  have hstands := hs.stands b hb
  have hdata : b.data - hdrBytes = b.hdr := Nat.add_sub_cancel _ _
  have hne : b.data ≠ 0 := Nat.ne_of_gt (Nat.lt_of_le_of_lt (Nat.zero_le _) b.hdr_lt_data)
  have hlen : (len : Int).bmod (2 ^ 32) = len := by
    unfold hdrBytes at hsize
    exact bmod_of_lt (by omega)
  -- the header tells the length, where it is not negative
  have hstored : 0 ≤ allocLenAt s.mem b.hdr → allocLenAt s.mem b.hdr = b.allocLen := by
    intro hpos
    rw [hstands.allocLenAt] at hpos ⊢
    split at hpos
    next hlt => rw [if_pos hlt]
    next => omega
  unfold MemState.reallocWrap at h
  rw [if_neg hne] at h
  dsimp only at h
  rw [hdata, if_neg (not_not.mpr hstands.guard), hlen] at h
  rcases hcareful with hkeep | ⟨hpos, hlt, hclear, hspare⟩
  · have hpos : 0 ≤ allocLenAt s.mem b.hdr := by omega
    rw [if_pos (by omega)] at h
    cases h
    rw [hstored hpos] at hkeep
    refine ⟨hs.resize hb (by exact_mod_cast hkeep) _, { b with requested := len }, ?_, rfl, rfl, ?_⟩
    · exact List.mem_map.mpr ⟨b, hb, if_pos rfl⟩
    · intro i _ hstop
      exact (if_pos hstop).symm
  · rw [if_neg (by omega), hstored hpos] at h
    rw [hstored hpos] at hlt hspare
    obtain ⟨s₁, halloc, hcopy⟩ := Option.bind_eq_some_iff.mp h
    obtain ⟨hs₁, c, hadds⟩ := hs.heapAlloc hguard hclear hsize halloc
    unfold MemState.memcpy at hcopy
    split at hcopy
    next =>
      cases hcopy
      have hmem : s₁.mem.copy s₁.ret b.data (b.allocLen : Int).toNat =
          s₁.mem.copy c.data b.data b.allocLen := by
        rw [hadds.ret, Int.toNat_natCast]
      rw [hmem]
      rw [Int.toNat_natCast] at hspare
      have hvalue := hs.copied hb hs₁ hadds hspare
      have hc : c ∈ s₁.blocks := by simp [hadds.blocks]
      have hstands_c := hs₁.stands c hc
      refine ⟨?_, c, hc, hadds.ret, hadds.requested, hvalue⟩
      refine hs₁.rewrite (m := s₁.mem.copy c.data b.data b.allocLen) hc
        (fun addr hout => copy_of_apart ?_) fun addr hdvd hge hstop => ?_
      · have hdata_c := hstands_c.data_le
        rw [hadds.requested] at hdata_c
        omega
      · obtain ⟨i, rfl⟩ := Nat.exists_eq_add_of_le hge
        have hdvd_b := hstands.eight_dvd_data
        have hdvd_c := hstands_c.eight_dvd_data
        have hlt_b := b.hdr_lt_data
        rw [hvalue i ((Nat.dvd_add_right hdvd_c).mp hdvd) hstop]
        split
        next hin =>
          exact hstands.clear _ (Nat.dvd_add hdvd_b ((Nat.dvd_add_right hdvd_c).mp hdvd))
            (by omega) hin
        next => exact ⟨hguard.symm, by decide⟩
    next => cases hcopy

/-- **Every call keeps the heap sound** and returns what it should, if it is careful. -/
theorem MemState.Inv.step (hs : s.Inv p) {e : MemCall} (hcareful : Careful p s e)
    (h : s.step p e = some s') : s'.Inv p ∧ Returns s s' e := by
  obtain ⟨-, hguard, hcareful⟩ := hcareful
  cases e with
  | alloc requestLen ptrScan file line start =>
    unfold MemState.step at h
    dsimp only at h
    split at h
    next hsize =>
      obtain ⟨hs', b, hadds⟩ := hs.heapAlloc hguard hcareful hsize h
      exact ⟨hs', hadds.carries⟩
    next => cases h
  | realloc ptr len ptrScan file line start =>
    unfold MemState.step at h
    dsimp only at h
    split at h
    next hok =>
      obtain ⟨hsize, hptr⟩ := hok
      by_cases hnull : ptr = 0
      · dsimp only at hcareful
        rw [if_pos hnull] at hcareful
        unfold MemState.reallocWrap at h
        rw [if_pos hnull] at h
        obtain ⟨hs', b, hadds⟩ := hs.heapAlloc hguard hcareful hsize h
        refine ⟨hs', ?_⟩
        simp only [Returns, if_pos hnull]
        exact hadds.carries
      · obtain ⟨b, hb, rfl⟩ := hptr.resolve_left hnull
        have hdata : b.data - hdrBytes = b.hdr := Nat.add_sub_cancel _ _
        dsimp only at hcareful
        rw [if_neg hnull, hdata] at hcareful
        obtain ⟨hs', hcarries⟩ := hs.reallocWrap hguard hb hsize hcareful h
        refine ⟨hs', ?_⟩
        simp only [Returns, if_neg hnull]
        exact ⟨b, hb, rfl, hcarries⟩
    next => cases h
  | store addr w => exact ⟨hs.store hcareful h, trivial⟩

/-- A new heap is sound. -/
theorem MemState.inv_newHeap {expand : Bool} {byteLen start : Nat}
    (h : MemState.newHeap p expand byteLen start = some s) : s.Inv p := by
  unfold MemState.newHeap MemState.addArena at h
  dsimp only at h
  split at h
  next hfresh =>
    cases h
    obtain ⟨hdvd, -, hapart⟩ := hfresh
    obtain ⟨hpos, hpage⟩ := p.pageBytes
    refine ⟨⟨[], _, ⟨rfl, rfl, Nat.le_refl _, Nat.le_add_right _ _, by simp, ?_, ?_, ?_, ?_⟩,
      by simp⟩, by simp, by simp⟩
    · rintro a ha
      obtain rfl := List.mem_singleton.mp ha
      show 0 < start + 3 * p.build.pageBytes
      omega
    · exact Nat.dvd_add (Nat.dvd_trans hpage hdvd) (Nat.dvd_mul_left_of_dvd hpage 3)
    · exact List.pairwise_singleton _ _
    · rintro a ha o ho
      obtain rfl := List.mem_singleton.mp ha
      show Apart (start + 3 * p.build.pageBytes)
        (start + 3 * p.build.pageBytes + arenaLen p.build expand byteLen) _ _
      rcases hapart o (by simp [ho]) with hbefore | hbehind
      · exact .inl (by omega)
      · exact .inr (by omega)
  next => cases h

theorem blocks_newHeap {expand : Bool} {byteLen start : Nat}
    (h : MemState.newHeap p expand byteLen start = some s) : s.blocks = [] := by
  unfold MemState.newHeap MemState.addArena at h
  dsimp only at h
  split at h
  · cases h
    rfl
  · cases h

/-! ## Lookups -/

/-- An address in an arena is found there. -/
theorem addrInArenas_of_mem {nextAlloc addr : Nat} {arenas : List Arena} {a : Arena}
    (ha : a ∈ arenas) (hin : addrInArena a addr)
    (hlast : ∀ newest ∈ arenas.getLast?, addrInArena newest addr → addr ≤ nextAlloc) :
    addrInArenas nextAlloc addr arenas = true := by
  induction arenas with
  | nil => cases ha
  | cons c cs ih =>
    rw [addrInArenas]
    split
    next hc =>
      cases cs with
      | nil =>
        have hle := hlast c rfl hc
        simp [hle]
      | cons d ds => rfl
    next hc =>
      have ha' : a ∈ cs := by
        rcases List.mem_cons.mp ha with rfl | ha'
        · exact absurd hin hc
        · exact ha'
      refine ih ha' fun newest hnewest => hlast newest ?_
      rw [List.getLast?_cons, hnewest]
      rfl

theorem exists_of_addrInArenas {nextAlloc addr : Nat} {arenas : List Arena}
    (h : addrInArenas nextAlloc addr arenas = true) : ∃ a ∈ arenas, addrInArena a addr := by
  induction arenas with
  | nil => cases h
  | cons c cs ih =>
    rw [addrInArenas] at h
    split at h
    next hc => exact ⟨c, List.mem_cons_self, hc⟩
    next =>
      obtain ⟨a, ha, hin⟩ := ih h
      exact ⟨a, List.mem_cons_of_mem _ ha, hin⟩

section

variable {reg : Registry} {page : Page}

/-- A walk over the heaps returns at the first one that it is sent back from. -/
theorem Registry.loop_returned {β : Type} (hpage : reg.pages[0]? = some page)
    (hentries : page.entries.length = reg.heapEntriesPp)
    (visit : Unit → HeapPtr → HeapRec → Except β Unit) (link : Unit → HeapPtr → Unit) {id : Nat}
    {r : β} (hid : id < reg.heapEntriesPp)
    (hmiss : ∀ j < id, visit () (.slot 0 j) (page.entries.getD j default) = .ok ())
    (hhit : visit () (.slot 0 id) (page.entries.getD id default) = .error r) :
    ∀ n i todo, i + n = id → n < todo →
      reg.loop visit link todo i (.slot 0 i) () = .returned r := by
  intro n
  induction n with
  | zero =>
    intro i todo heq hlt
    rw [Nat.add_zero] at heq
    subst heq
    obtain ⟨todo, rfl⟩ := Nat.exists_eq_succ_of_ne_zero (Nat.ne_of_gt hlt)
    rw [Registry.loop, if_neg (Registry.not_boundary hid), Registry.heapAt_page hpage hentries hid]
    dsimp only
    rw [hhit]
  | succ n ih =>
    rintro i todo hsum hlt
    obtain ⟨todo, rfl⟩ := Nat.exists_eq_succ_of_ne_zero (Nat.ne_of_gt (Nat.zero_lt_of_lt hlt))
    have hi : i < reg.heapEntriesPp := by omega
    rw [Registry.loop, if_neg (Registry.not_boundary hi), Registry.heapAt_page hpage hentries hi]
    dsimp only
    rw [hmiss i (by omega)]
    exact ih (i + 1) todo (by omega) (by omega)

end

theorem Process.mem_others {page : Page} (hpage : p.reg.pages[0]? = some page)
    (hentries : page.entries.length = p.reg.heapEntriesPp) {j : Nat} (hj : j < p.reg.heapEntriesPp)
    (hindex : j < p.reg.nextHeapIndex) (hne : j ≠ p.id) {o : Arena}
    (ho : o ∈ (page.entries.getD j default).arenas) : o ∈ p.others := by
  refine List.mem_flatMap.mpr ⟨j, ?_, ?_⟩
  · exact List.mem_filter.mpr ⟨List.mem_range.mpr hindex, decide_eq_true hne⟩
  · rw [Registry.slotOf_onePage hj, Registry.heapAt_page hpage hentries hj]
    exact ho

/-- **The heap of an address** in a block is the one that handed it out. -/
theorem MemState.Inv.addrFindHeap (hs : s.Inv p) (hid : p.id < p.reg.heapEntriesPp)
    (hb : b ∈ s.blocks) {addr : Nat} (hge : b.hdr ≤ addr) (hlt : addr < b.stop) :
    (p.registry s.heap).addrFindHeap .wild addr true = .returned (p.reg.slotOf p.id) := by
  obtain ⟨old, newest, hl, hout⟩ := hs.layout
  obtain ⟨a, ha, hstart, hstop, -, hnext⟩ := (hout b hb).inside hl
  have hzero : addr ≠ 0 := by
    have hpos := hl.start a ha
    omega
  obtain ⟨page, hpage, hentries, hall⟩ := Registry.exists_page p.wellFormed
    (Nat.lt_of_le_of_lt (Nat.zero_le _) p.inUse)
  let f : HeapRec → HeapRec := fun r =>
    { r with
      nextAlloc := s.heap.nextAlloc
      arenas := s.heap.arenas.map HeapArena.toArena
      released := false }
  let page' : Page := { page with entries := page.entries.modify p.id f }
  have hpages : (p.registry s.heap).pages[0]? = some page' := by
    show (p.reg.pages.modify _ _)[0]? = _
    rw [Nat.div_eq_of_lt hid, Nat.mod_eq_of_lt hid, List.getElem?_modify_eq, hpage]
    rfl
  have hlength : page'.entries.length = p.reg.heapEntriesPp := by
    rw [List.length_modify]
    exact hentries
  have hself : page'.entries.getD p.id default = f (page.entries.getD p.id default) := by
    rw [List.getD_eq_getElem?_getD, List.getD_eq_getElem?_getD, List.getElem?_modify_eq,
      List.getElem?_eq_getElem (Nat.lt_of_lt_of_eq hid hentries.symm)]
    rfl
  have hother : ∀ j, j ≠ p.id → page'.entries.getD j default = page.entries.getD j default := by
    intro j hne
    rw [List.getD_eq_getElem?_getD, List.getD_eq_getElem?_getD,
      List.getElem?_modify_ne _ _ (Ne.symm hne)]
  rw [Registry.addrFindHeap, if_neg hzero, Registry.walk]
  have hstart_page : (p.registry s.heap).allHeaps = .slot 0 0 := by
    unfold Registry.allHeaps
    cases hempty : (p.registry s.heap).pages with
    | nil =>
      rw [hempty] at hpages
      cases hpages
    | cons _ _ => rfl
  rw [hstart_page, Registry.slotOf_onePage hid]
  refine Registry.loop_returned hpages hlength _ _ hid (fun j hj => ?_) ?_ p.id 0 _ (Nat.zero_add _)
    p.inUse
  · rw [hother j (Nat.ne_of_lt hj)]
    have hmiss : (page.entries.getD j default).addrInOneHeap addr = false := by
      rw [← Bool.not_eq_true]
      intro hin
      obtain ⟨o, ho, hin_o⟩ := exists_of_addrInArenas (Bool.and_eq_true_iff.mp hin).2
      have happart := hl.others a ha o
        (Process.mem_others hpage hentries (Nat.lt_trans hj hid) (Nat.lt_trans hj p.inUse)
          (Nat.ne_of_lt hj) ho)
      unfold addrInArena at hin_o
      unfold Apart at happart
      omega
    rw [hmiss]
    simp
  · rw [hself]
    have hhit : (f (page.entries.getD p.id default)).addrInOneHeap addr = true := by
      refine addrInArenas_of_mem (List.mem_map_of_mem ha) ⟨?_, ?_⟩ fun o ho hin => ?_
      · show a.addrStart ≤ addr
        omega
      · show addr < a.addrEnd
        omega
      · rw [List.getLast?_map] at ho
        obtain ⟨a', ha', rfl⟩ := Option.map_eq_some_iff.mp ho
        obtain rfl := hl.unique ha (List.mem_of_getLast? ha') ⟨by omega, by omega⟩ hin
        have hle := hnext ha'
        show addr ≤ s.heap.nextAlloc
        omega
    rw [hhit]
    rfl

/-- The record of an address in a block is the header of the block. -/
theorem MemState.Inv.find (hs : s.Inv p) (hid : p.id < p.reg.heapEntriesPp) (hb : b ∈ s.blocks)
    {addr : Nat} (hge : b.hdr ≤ addr) (hlt : addr < b.stop) :
    s.findAllocationRecord p addr = some b.hdr := by
  have hstands := hs.stands b hb
  have hdvd : 8 ∣ b.hdr := Nat.dvd_trans (by decide) hstands.start
  obtain ⟨old, newest, hl, hout⟩ := hs.layout
  obtain ⟨a, ha, hstart, hstop, hissued, -⟩ := (hout b hb).inside hl
  have hge' : b.hdr ≤ addr / 8 * 8 := by omega
  have hlt' : addr / 8 * 8 < b.stop := by omega
  unfold MemState.findAllocationRecord
  dsimp only
  rw [hs.addrFindHeap hid hb hge' hlt']
  dsimp only
  rw [if_pos rfl]
  obtain ⟨a', hfind⟩ : ∃ a', s.heap.arenas.find? (fun a =>
      decide (a.addrStart ≤ addr / 8 * 8 ∧ addr / 8 * 8 < a.lastIssued)) = some a' := by
    rw [← Option.isSome_iff_exists, List.find?_isSome]
    exact ⟨a, ha, decide_eq_true ⟨by omega, by omega⟩⟩
  have hcontains : a'.addrStart ≤ addr / 8 * 8 ∧ addr / 8 * 8 < a'.lastIssued := by
    simpa using List.find?_some hfind
  have ha' := List.mem_of_find?_eq_some hfind
  have hissued' : a'.lastIssued ≤ a'.addrEnd := by
    rw [hl.arenas] at ha'
    rcases List.mem_append.mp ha' with hold | hnew
    · exact hl.closed a' hold
    · obtain rfl := List.mem_singleton.mp hnew
      exact Nat.le_of_eq hl.issued
  obtain rfl := hl.unique ha ha' (x := addr / 8 * 8) ⟨by omega, by omega⟩ ⟨by omega, by omega⟩
  rw [hfind, Option.map_some, hstands.scanBack hstart _ _ (Nat.dvd_mul_left _ _) hge' hlt']

/-! ## Runs -/

/-- The invariant gives what is asked of the heap. -/
theorem MemState.Inv.sound (hs : s.Inv p) (hid : p.id < p.reg.heapEntriesPp) : s.Sound p where
  enough b hb := (hs.stands b hb).enough
  inside _ hb := hs.inside hb
  apart := hs.apart
  found _ hb _ hge hlt := hs.find hid hb hge hlt

/-- **Blocks are sound in careful runs**, and what careful calls return holds what it is to. -/
theorem blocks_of_run {expand : Bool} {byteLen start : Nat} {s₀ : MemState}
    (hnew : MemState.newHeap p expand byteLen start = some s₀)
    (h : Run (MemState.step p) (Careful p) s₀ s) :
    s.Sound p ∧ ∀ e s', Careful p s e → s.step p e = some s' → Returns s s' e := by
  have hs : s.Inv p := h.invariant (MemState.inv_newHeap hnew)
    fun _ _ _ hinv hok hone => (hinv.step hok hone).1
  refine ⟨?_, fun e s' hcareful hstep => (hs.step hcareful hstep).2⟩
  cases h with
  | refl =>
    have hblocks := blocks_newHeap hnew
    exact ⟨by simp [hblocks], by simp [hblocks], by simp [hblocks], by simp [hblocks]⟩
  | tail _ hcareful _ => exact hs.sound hcareful.1

def oneHeap : Process where
  build := ⟨false, 4096⟩
  guard := 0x1122334455667788
  reg := ⟨35, [⟨List.replicate 35 default, none⟩], 1⟩
  id := 0
  otherArenas _ := []
  pageBytes := by decide
  wellFormed := ⟨by decide, by simp⟩
  inUse := by decide

theorem blocks_oneByte : ∃ s₀ s, MemState.newHeap oneHeap false 4096 4096 = some s₀ ∧
    s₀.step oneHeap (.alloc 1 true 0 1 0) = some s ∧ s.blocks = [⟨16384, 64, 1⟩] ∧
      s.Sound oneHeap := by
  have hcareful : ∀ s, Careful oneHeap s (.alloc 1 true 0 1 0) :=
    fun s => ⟨by decide, by decide, by decide, by decide, by decide⟩
  obtain ⟨s₀, hnew, s, hstep, hblocks⟩ : ∃ s₀, MemState.newHeap oneHeap false 4096 4096 = some s₀ ∧
      ∃ s, s₀.step oneHeap (.alloc 1 true 0 1 0) = some s ∧ s.blocks = [⟨16384, 64, 1⟩] :=
    ⟨_, rfl, _, rfl, rfl⟩
  exact ⟨s₀, s, hnew, hstep, hblocks, (blocks_of_run hnew (.tail .refl (hcareful s₀) hstep)).1⟩

/-- A block of 16 bytes that is reallocated for 64 is kept. -/
theorem not_blocks_sound :
    ¬ ∀ (p : Process) (expand : Bool) (byteLen start : Nat) (s₀ s : MemState),
      MemState.newHeap p expand byteLen start = some s₀ →
        Run (MemState.step p) (fun _ _ => True) s₀ s → s.Sound p := by
  intro hall
  let calls : List MemCall := [.alloc 1 true 0 1 0, .realloc 16432 64 true 0 1 0]
  obtain ⟨s₀, hnew, s, hs, hblocks⟩ : ∃ s₀, MemState.newHeap oneHeap false 4096 4096 = some s₀ ∧
      ∃ s, calls.foldlM (MemState.step oneHeap) s₀ = some s ∧ s.blocks = [⟨16384, 64, 64⟩] :=
    ⟨_, rfl, _, rfl, rfl⟩
  have henough := (hall _ _ _ _ s₀ s hnew (.of_foldlM (fun _ _ _ => trivial) hs)).enough
    ⟨16384, 64, 64⟩ (by simp [hblocks])
  exact absurd henough (by decide)

end N00b.Gc
