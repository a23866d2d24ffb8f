import N00b.Gc.Registry
import N00b.Gc.ToSpace

/-!
# Blocks

`_n00b_heap_alloc`, `n00b_realloc_wrap` and `n00b_find_allocation_record` of core/heap_alloc.nc and
core/heap.nc on the memory of one heap, while collections are suspended. The memory is read and
written in words of eight bytes; a program that stores less changes only a part of a word.

The kernel answers a request for memory with zeroed pages that nobody has, or there is no result.
There is no result either where a call aborts or accesses a guard page.
-/

namespace N00b.Gc

/-! ## Memory -/

/-- The words of the memory, by addresses that are multiples of 8. -/
abbrev Mem := Nat → Nat

/-- `memset` to zero. -/
def Mem.zero (mem : Mem) (start len : Nat) : Mem := fun addr =>
  if start ≤ addr ∧ addr < start + len then 0 else mem addr

/-- `memcpy`, from and to places that do not overlap. -/
def Mem.copy (mem : Mem) (dst src len : Nat) : Mem := fun addr =>
  if dst ≤ addr ∧ addr < dst + len then mem (src + (addr - dst)) else mem addr

def Mem.store (mem : Mem) (addr w : Nat) : Mem :=
  Function.update mem addr w

/-! ## Headers -/

/-- `sizeof(n00b_alloc_hdr)`. -/
def hdrBytes : Nat := 48

/-- `N00B_FORCED_ALIGNMENT`. -/
def forcedAlignment : Nat := 16

/-- `N00B_GC_PAGEJUMP`. -/
def gcPagejump : Nat := 0xdfdfdfdffdfdfdfd

/-- `n00b_calculate_alloc_len`. -/
def calculateAllocLen (ask : Nat) : Nat :=
  let len := ask + hdrBytes
  if len % forcedAlignment = 0 then len
  else len / forcedAlignment * forcedAlignment + forcedAlignment

/-- The fourth word of a header: `alloc_len` with four bytes, `alloc_line` with two, and the flags,
of which `n00b_ptr_scan` is the second. -/
def lengthWord (allocLen line : Nat) (ptrScan : Bool) : Nat :=
  allocLen % 2 ^ 32 + line % 2 ^ 16 * 2 ^ 32 + (if ptrScan then 2 else 0) * 2 ^ 48

/-- `alloc_len` of the header at `hdr`, an `int32_t`. -/
def allocLenAt (mem : Mem) (hdr : Nat) : Int :=
  ((mem (hdr + 24) : Nat) : Int).bmod (2 ^ 32)

/-- A new block: `memset`, and the fields of the header that are set. -/
def Mem.initBlock (mem : Mem) (hdr len guard file line : Nat) (ptrScan : Bool) : Mem :=
  (((mem.zero hdr len).store hdr guard).store (hdr + 24) (lengthWord len line ptrScan)).store
    (hdr + 16) file

/-! ## State -/

/-- A block that was returned: the place of its header, its length with the header, and how many
bytes were asked for. -/
structure Block where
  hdr : Nat
  allocLen : Nat
  requested : Nat
deriving DecidableEq, Repr

def Block.stop (b : Block) : Nat :=
  b.hdr + b.allocLen

/-- What is returned to the program. -/
def Block.data (b : Block) : Nat :=
  b.hdr + hdrBytes

/-- One of two places ends before the other begins. -/
def Apart (start stop start' stop' : Nat) : Prop :=
  stop ≤ start' ∨ stop' ≤ start

instance (start stop start' stop' : Nat) : Decidable (Apart start stop start' stop') :=
  inferInstanceAs (Decidable (_ ∨ _))

/-- A process around the heap: its page size, the guard, the registry of its heaps and the number of
the heap there. `otherArenas` are the arenas of the other heaps. -/
structure Process where
  build : Build
  guard : Nat
  reg : Registry
  id : HeapId
  otherArenas : HeapPtr → List HeapArena
  pageBytes : 0 < build.pageBytes ∧ forcedAlignment ∣ build.pageBytes
  wellFormed : reg.WellFormed
  inUse : id < reg.nextHeapIndex

/-- The heap, the memory, the blocks that were returned, the newest first, and what the last call
has returned. -/
structure MemState where
  heap : Heap
  mem : Mem
  blocks : List Block
  ret : Nat

/-- The arenas that the records of the other heaps list. -/
def Process.others (p : Process) : List Arena :=
  ((List.range p.reg.nextHeapIndex).filter (· ≠ p.id)).flatMap fun j =>
    ((p.reg.heapAt (p.reg.slotOf j)).map HeapRec.arenas).getD []

def HeapArena.toArena (a : HeapArena) : Arena :=
  ⟨a.addrStart, a.addrEnd⟩

/-- The registry, with the record of the heap as it is now. -/
def Process.registry (p : Process) (h : Heap) : Registry :=
  p.reg.modifyHeap p.id fun r =>
    { r with nextAlloc := h.nextAlloc, arenas := h.arenas.map HeapArena.toArena, released := false }

/-! ## Allocation -/

/-- What `mmap` may return: pages of the user's part of the address space that no heap has. -/
def Process.Fresh (p : Process) (h : Heap) (start len : Nat) : Prop :=
  p.build.pageBytes ∣ start ∧ start + len ≤ 2 ^ 47 ∧
    ∀ a ∈ p.others ++ h.arenas.map HeapArena.toArena,
      Apart start (start + len) a.addrStart a.addrEnd

instance (p : Process) (h : Heap) (start len : Nat) : Decidable (p.Fresh h start len) :=
  inferInstanceAs (Decidable (_ ∧ _))

/-- `n00b_add_arena`, when `mmap` returns `start`: the data comes behind a guard page, the page of
the arena's record and another guard page, and before a guard page. -/
def MemState.addArena (p : Process) (s : MemState) (byteLen start : Nat) : Option MemState :=
  let len := arenaLen p.build s.heap.expand byteLen
  let addr := start + 3 * p.build.pageBytes
  if p.Fresh s.heap start (len + 4 * p.build.pageBytes) then
    some { s with heap := s.heap.addArena p.build byteLen addr, mem := s.mem.zero addr len }
  else none

/-- `need_space`. -/
def needSpace (a : HeapArena) (nextAlloc len : Nat) : Prop :=
  nextAlloc < a.addrStart ∨ a.addrEnd ≤ nextAlloc + len

instance (a : HeapArena) (nextAlloc len : Nat) : Decidable (needSpace a nextAlloc len) :=
  inferInstanceAs (Decidable (_ ∨ _))

/-- The turn of the loop of `_n00b_heap_alloc` that adds an arena if there is not enough space. -/
def MemState.makeSpace (p : Process) (s : MemState) (len start : Nat) : Option MemState :=
  match s.heap.arenas.getLast? with
  | none => none
  | some newest =>
    if needSpace newest s.heap.nextAlloc len then
      s.addArena p (max (len * 8) (newest.userLength * 8)) start
    else some s

/-- `_n00b_heap_alloc`. `file` and `line` are its caller's. -/
def MemState.heapAlloc (p : Process) (s : MemState) (requestLen : Nat) (ptrScan : Bool)
    (file line start : Nat) : Option MemState :=
  let len := calculateAllocLen requestLen
  (s.makeSpace p len start).bind fun s =>
    let hdr := s.heap.nextAlloc
    (s.heap.alloc len).map fun heap =>
      ⟨heap, s.mem.initBlock hdr len p.guard file line ptrScan, ⟨hdr, len, requestLen⟩ :: s.blocks,
        hdr + hdrBytes⟩

def Heap.Readable (h : Heap) (start stop : Nat) : Prop :=
  ∃ a ∈ h.arenas, a.addrStart ≤ start ∧ stop ≤ a.addrEnd

instance (h : Heap) (start stop : Nat) : Decidable (h.Readable start stop) :=
  inferInstanceAs (Decidable (∃ _ ∈ _, _))

/-- `memcpy` between blocks. A negative length is a huge `size_t`. -/
def MemState.memcpy (s : MemState) (dst src : Nat) (len : Int) : Option MemState :=
  if 0 ≤ len ∧ s.heap.Readable src (src + len.toNat) ∧ s.heap.Readable dst (dst + len.toNat) then
    some { s with mem := s.mem.copy dst src len.toNat }
  else none

/-- `n00b_realloc_wrap`. -/
def MemState.reallocWrap (p : Process) (s : MemState) (ptr len : Nat) (ptrScan : Bool)
    (file line start : Nat) : Option MemState :=
  if ptr = 0 then s.heapAlloc p len true file line start
  else
    let hdr := ptr - hdrBytes
    if s.mem hdr ≠ p.guard then none
    else if (len : Int).bmod (2 ^ 32) ≤ allocLenAt s.mem hdr then
      some { s with
        blocks := s.blocks.map fun b => if b.hdr = hdr then { b with requested := len } else b
        ret := ptr }
    else
      (s.heapAlloc p len ptrScan file line start).bind fun s' =>
        s'.memcpy s'.ret ptr (allocLenAt s.mem hdr)

/-! ## Lookup -/

/-- The loop of `n00b_find_allocation_record` that goes back to a guard. -/
def scanBack (pageBytes guard : Nat) (mem : Mem) (addrStart p : Nat) : Nat :=
  if addrStart < p then
    if mem p = guard then p
    else if mem p = gcPagejump then
      scanBack pageBytes guard mem addrStart (p - pageBytes - 16)
    else scanBack pageBytes guard mem addrStart (p - 8)
  else p
termination_by p
decreasing_by all_goals omega

/-- `n00b_find_allocation_record`. -/
def MemState.findAllocationRecord (p : Process) (s : MemState) (addr : Nat) : Option Nat :=
  let addr := addr / 8 * 8
  match (p.registry s.heap).addrFindHeap .wild addr true with
  | .returned h =>
    let arenas := if h = p.reg.slotOf p.id then s.heap.arenas else p.otherArenas h
    (arenas.find? fun a => a.addrStart ≤ addr ∧ addr < a.lastIssued).map fun a =>
      scanBack p.build.pageBytes p.guard s.mem a.addrStart addr
  | _ => none

/-! ## Calls -/

/-- What a program does: it calls one of the two functions, or stores into a word of a block. -/
inductive MemCall where
  | alloc (requestLen : Nat) (ptrScan : Bool) (file line start : Nat)
  | realloc (ptr len : Nat) (ptrScan : Bool) (file line start : Nat)
  | store (addr w : Nat)
deriving DecidableEq, Repr

/-- The word at `addr` begins within the bytes that were asked for, and `w` keeps what is behind
them in `old`. -/
def Block.Admits (b : Block) (addr w old : Nat) : Prop :=
  b.data ≤ addr ∧ addr < b.data + b.requested ∧
    (b.data + b.requested < addr + 8 →
      w / 256 ^ (b.data + b.requested - addr) = old / 256 ^ (b.data + b.requested - addr))

instance (b : Block) (addr w old : Nat) : Decidable (b.Admits addr w old) :=
  inferInstanceAs (Decidable (_ ∧ _))

/-- One call or store. Sizes are below `2^31` less the header, `n00b_realloc_wrap` gets blocks that
were returned, and the program stores only into bytes it asked for, and never the guard. -/
def MemState.step (p : Process) (s : MemState) : MemCall → Option MemState
  | .alloc requestLen ptrScan file line start =>
    if requestLen < 2 ^ 31 - hdrBytes then s.heapAlloc p requestLen ptrScan file line start
    else none
  | .realloc ptr len ptrScan file line start =>
    if len < 2 ^ 31 - hdrBytes ∧ (ptr = 0 ∨ ∃ b ∈ s.blocks, b.data = ptr) then
      s.reallocWrap p ptr len ptrScan file line start
    else none
  | .store addr w =>
    if addr % 8 = 0 ∧ w < 2 ^ 64 ∧ w ≠ p.guard ∧ ∃ b ∈ s.blocks, b.Admits addr w (s.mem addr) then
      some { s with mem := s.mem.store addr w }
    else none

/-- The heap after `n00b_new_heap`. -/
def MemState.newHeap (p : Process) (expand : Bool) (byteLen start : Nat) : Option MemState :=
  MemState.addArena p ⟨⟨[], 0, false, expand⟩, fun _ => 0, [], 0⟩ byteLen start

/-! ## What blocks are to be -/

/-- **Blocks are big enough, disjoint and found.** -/
structure MemState.Sound (p : Process) (s : MemState) : Prop where
  enough : ∀ b ∈ s.blocks, hdrBytes + b.requested ≤ b.allocLen
  inside : ∀ b ∈ s.blocks, ∃ a ∈ s.heap.arenas, a.addrStart ≤ b.hdr ∧ b.stop ≤ a.addrEnd
  apart : s.blocks.Pairwise fun b c => Apart b.hdr b.stop c.hdr c.stop
  found : ∀ b ∈ s.blocks, ∀ addr, b.hdr ≤ addr → addr < b.stop →
    s.findAllocationRecord p addr = some b.hdr

/-- The words that a call returns: zeros behind what is carried over from the block `old`. -/
def Carries (s s' : MemState) (old : Option Block) (requested : Nat) : Prop :=
  ∃ b ∈ s'.blocks, s'.ret = b.data ∧ b.requested = requested ∧
    ∀ i, 8 ∣ i → b.data + i < b.stop →
      s'.mem (b.data + i) = match old with
        | some old => if old.data + i < old.stop then s.mem (old.data + i) else 0
        | none => 0

def Returns (s s' : MemState) : MemCall → Prop
  | .alloc requestLen _ _ _ _ => Carries s s' none requestLen
  | .realloc ptr len _ _ _ _ =>
    if ptr = 0 then Carries s s' none len
    else ∃ old ∈ s.blocks, old.data = ptr ∧ Carries s s' (some old) len
  | .store _ _ => True

/-! ## The condition -/

/-- The header of a new block has no word that a lookup would take for something else. -/
def Process.Clear (p : Process) (requestLen file line : Nat) (ptrScan : Bool) : Prop :=
  file ≠ p.guard ∧ file ≠ gcPagejump ∧
    lengthWord (calculateAllocLen requestLen) line ptrScan ≠ p.guard

/-- The bytes behind a block that a copy of `allocLen` bytes of its data reads are there, are zero,
and the new block does not go there. -/
def MemState.Spare (s : MemState) (ptr allocLen len : Nat) : Prop :=
  s.heap.Readable ptr (ptr + allocLen) ∧
    (∀ i ∈ [0, 8, 16, 24, 32, 40], s.mem (ptr + allocLen - hdrBytes + i) = 0) ∧
    ∀ newest ∈ s.heap.arenas.getLast?, needSpace newest s.heap.nextAlloc (calculateAllocLen len) ∨
      Apart s.heap.nextAlloc (s.heap.nextAlloc + calculateAllocLen len)
        (ptr + allocLen - hdrBytes) (ptr + allocLen)

/-- The heap is in the first page of the registry, the guard is not zero and in no header beside its
first word. A block is reallocated with a size that it has room for, or that is larger than
`alloc_len` while the bytes that are copied beyond it are zero. The program does not store the
sentinel. -/
def Careful (p : Process) (s : MemState) (c : MemCall) : Prop :=
  p.id < p.reg.heapEntriesPp ∧ p.guard ≠ 0 ∧
    match c with
    | .alloc requestLen ptrScan file line _ => p.Clear requestLen file line ptrScan
    | .realloc ptr len ptrScan file line _ =>
      if ptr = 0 then p.Clear len file line true
      else
        let allocLen := allocLenAt s.mem (ptr - hdrBytes)
        hdrBytes + len ≤ allocLen ∨ 0 ≤ allocLen ∧ allocLen < len ∧
          p.Clear len file line ptrScan ∧ s.Spare ptr allocLen.toNat len
    | .store _ w => w ≠ gcPagejump

end N00b.Gc
