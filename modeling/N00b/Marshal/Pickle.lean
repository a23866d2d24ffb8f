import Mathlib
import N00b.Marshal.Heap

/-!
# The marshalling side of the filter

`get_write_record` to `n00b_internal_marshal` of io/filter_marshal.nc, and `marshal_setup`.

The memory that `local_heap_alloc` hands out is the list `records` of a context: a record is known
by its index there, and a local heap lists the records in it. Lengths and data are counted in 8-byte
words where the source moves whole words.

The lengths of a buffer are of type `int32_t`. A signed overflow has no result, nor has a record
that is written through a null pointer, nor a message whose length is not that of its buffer, which
an assertion finds.

`translate_pointer` and `get_write_record` call each other through `setup_new_header`. The recursion
takes its depth as an argument, and so does the loop of `process_queue`; `none` is a run that ended
early.
-/

namespace N00b.Marshal

/-! ## State -/

/-- `N00B_MARSHAL_CHUNK_SIZE`. -/
def marshalChunkSize : Nat := 512

/-- `hatrack_dict_put`, on a dictionary kept in insertion order. -/
def dictPut (dict : List (Word × Word)) (key value : Word) : List (Word × Word) :=
  dict.filter (fun e => e.1 != key) ++ [(key, value)]

/-- A local heap: a buffer of `allocLen` bytes, an `int32_t`, of which `byteLen` are in use. -/
structure Buf where
  allocLen : Int
  byteLen : Nat
  records : List Nat
deriving DecidableEq, Repr

/-- `n00b_pickle_wl_item_t`. -/
structure WlItem where
  src : Alloc
  dst : Nat
  curOffset : Word
deriving DecidableEq, Repr

/-- A word the encoder has produced. `pointer` says that `translate_pointer` found an allocation
record for the word it stands for. -/
structure Emission where
  pointer : Bool
  word : Word
deriving DecidableEq, Repr

/-- `n00b_pickle_ctx`. An empty `neededPatches` or `bufferedHeapInfo` is the source's `NULL`.
`emitted` is a log of the model. -/
structure PickleCtx where
  memos : List (Word × Word)
  neededPatches : List (Word × Word)
  currentOutputBuf : Option Buf
  bufferedHeapInfo : List (Buf × Word)
  records : List (List Word)
  wl : List WlItem
  base : Word
  offset : Word
  lastOffsetEnd : Word
  started : Bool
  emitted : List Emission
deriving DecidableEq, Repr

/-- `marshal_setup`, with the random word that `n00b_get_virtual_heap_start` accepts. -/
def marshalSetup (random : Word) : PickleCtx :=
  let base := lsbErase random
  { memos := [], neededPatches := [], currentOutputBuf := none, bufferedHeapInfo := [],
    records := [], wl := [], base, offset := base, lastOffsetEnd := base, started := false,
    emitted := [] }

namespace PickleCtx

def record (ctx : PickleCtx) (dst : Nat) : List Word :=
  ctx.records.getD dst []

def heapWords (ctx : PickleCtx) (heap : Buf) : List Word :=
  heap.records.flatMap ctx.record

/-! ## Local heaps -/

/-- `hatrack_round_up_to_power_of_2`, which sizes the data of a buffer. -/
def roundUpToPowerOf2 (n : Nat) : Nat :=
  if n &&& (n - 1) = 0 then n else 2 ^ (n.log2 + 1)

/-- `new_local_heap`. -/
def newLocalHeap (ctx : PickleCtx) (len : Nat) : PickleCtx :=
  let tlen := max (len + headerLen) marshalChunkSize
  { ctx with
    bufferedHeapInfo :=
      match ctx.currentOutputBuf with
      | some buf => ctx.bufferedHeapInfo ++ [(buf, ctx.offset)]
      | none => []
    currentOutputBuf := some ⟨(roundUpToPowerOf2 tlen : Int).bmod (2 ^ 32), 0, []⟩ }

/-- `local_heap_alloc`. A new buffer is zeroed. -/
def localHeapAlloc (ctx : PickleCtx) (len : Nat) : Option (Nat × PickleCtx) :=
  match ctx.currentOutputBuf with
  | none => none
  | some b =>
    if (b.byteLen + len : Int) > b.allocLen then none
    else some (ctx.records.length,
      { ctx with
        currentOutputBuf := some
          { b with byteLen := b.byteLen + len, records := b.records ++ [ctx.records.length] }
        records := ctx.records ++ [List.replicate (len / 8) 0] })

/-- The allocation that `get_write_record` makes in the local heaps. The factors 2 and 4 are taken
of an `int`. -/
def openRecord (ctx : PickleCtx) (len : Nat) : Option (Nat × PickleCtx) :=
  if len * 4 ≥ 2 ^ 31 then none
  else
    let ctx := if len * 2 ≥ marshalChunkSize then ctx.newLocalHeap (len * 4) else ctx
    (ctx.localHeapAlloc len).orElse fun _ => (ctx.newLocalHeap (len * 4)).localHeapAlloc len

def writeWord (ctx : PickleCtx) (dst i : Nat) (word : Word) : PickleCtx :=
  { ctx with records := ctx.records.modify dst (·.set i word) }

def writeHeader (ctx : PickleCtx) (dst : Nat) (hdr : RecordHdr) : PickleCtx :=
  { ctx with records := ctx.records.modify dst (hdr.words ++ ·.drop 6) }

/-- `enqueue_write_record`. -/
def enqueueWriteRecord (ctx : PickleCtx) (src : Alloc) (dst : Nat) (allocOffset : Word) :
    PickleCtx :=
  { ctx with wl := ⟨src, dst, allocOffset⟩ :: ctx.wl }

def emit (ctx : PickleCtx) (pointer : Bool) (word : Word) : PickleCtx :=
  { ctx with emitted := ctx.emitted ++ [⟨pointer, word⟩] }

end PickleCtx

/-! ## Pointers -/

/-- The `alloc_line` of a record. -/
def recordLine : Nat := 0xeeee

/-- The fields that `setup_new_header` fills in, `type` translated. `copy_alloc_filename` returns
NULL. -/
def newHeader (src : Alloc) (type : Word) : RecordHdr :=
  { guard := marshalRecordGuard, type, allocFile := 0, allocLen := src.allocLen,
    allocLine := recordLine, marshalEnd := false, ptrScan := src.ptrScan, obj := src.obj,
    cachedHash := src.cachedHash }

/-- What `get_write_record` returns: the offset, the new record if there is one, the context. -/
abbrev WriteRecord := Word × Option Nat × PickleCtx

/-- `translate_pointer`, over the `get_write_record` that it calls. -/
def translateWith (heap : Heap) (getWriteRecord : PickleCtx → Alloc → Option WriteRecord)
    (ctx : PickleCtx) (p : Word) : Option (Word × PickleCtx) :=
  match heap.findAllocationRecord p with
  | none => some (p, ctx.emit false p)
  | some srcHdr => do
    let (offset, dstHdr, ctx) ← getWriteRecord ctx srcHdr
    let ctx :=
      match dstHdr with
      | some dst => ctx.enqueueWriteRecord srcHdr dst offset
      | none => ctx
    let diff := p - srcHdr.addr
    some (diff + offset, ctx.emit true (diff + offset))

/-- `get_write_record` with `setup_new_header`. -/
def getWriteRecord (heap : Heap) : Nat → PickleCtx → Alloc → Option WriteRecord
  | 0, _, _ => none
  | depth + 1, ctx, hdr =>
    match ctx.memos.lookup hdr.addr with
    | some offset => some (offset, none, ctx)
    | none => do
      let offset := ctx.offset
      let (h, ctx) ← ctx.openRecord hdr.allocLen
      let ctx :=
        { ctx with
          memos := dictPut ctx.memos hdr.addr offset
          offset := ctx.offset + BitVec.ofNat 64 hdr.allocLen }
      let (type, ctx) ← translateWith heap (getWriteRecord heap depth) ctx hdr.type
      some (offset, some h, ctx.writeHeader h (newHeader hdr type))

/-- `translate_pointer`. -/
def translatePointer (heap : Heap) (depth : Nat) (ctx : PickleCtx) (p : Word) :
    Option (Word × PickleCtx) :=
  translateWith heap (getWriteRecord heap depth) ctx p

/-! ## The work list -/

/-- `handle_collision`. -/
def handleCollision (ctx : PickleCtx) (val offset : Word) : PickleCtx :=
  { ctx with neededPatches := dictPut ctx.neededPatches offset val }

/-- `process_one_word`. -/
def processOneWord (heap : Heap) (depth : Nat) (ctx : PickleCtx) (val offset : Word) :
    Option (Word × PickleCtx) :=
  if lsbErase val = ctx.base then some (0, (handleCollision ctx val offset).emit false 0)
  else translatePointer heap depth ctx val

/-- The loop of `process_queue_item`: the words still to copy, the index of the next one in the
record, and the offset, which goes up by one a word. -/
def processWords (heap : Heap) (depth dst : Nat) :
    List Word → Nat → Word → PickleCtx → Option PickleCtx
  | [], _, _, ctx => some ctx
  | val :: vals, i, offset, ctx => do
    let (word, ctx) ← processOneWord heap depth ctx val offset
    processWords heap depth dst vals (i + 1) (offset + 1) (ctx.writeWord dst i word)

/-- `process_queue_item`. -/
def processQueueItem (heap : Heap) (depth : Nat) (ctx : PickleCtx) (item : WlItem) :
    Option PickleCtx :=
  processWords heap depth item.dst item.src.data 6 (item.curOffset + BitVec.ofNat 64 headerLen) ctx

/-- `process_queue`. The work list is a stack. -/
def processQueue (heap : Heap) (depth : Nat) : Nat → PickleCtx → Option PickleCtx
  | 0, ctx => if ctx.wl.isEmpty then some ctx else none
  | fuel + 1, ctx =>
    match ctx.wl with
    | [] => some ctx
    | item :: next => do
      let ctx ← processQueueItem heap depth { ctx with wl := next } item
      processQueue heap depth fuel ctx

/-! ## Messages -/

/-- The array of patches as `hatrack_dict_items_sort` lays it out: an offset and a value each. -/
def patchWords (patches : List (Word × Word)) : List Word :=
  patches.flatMap fun e => [e.1, e.2]

/-- `create_object_end_record`. The allocation behind the record is an unused word or the array of
patches. It has no type, and its entry in the memo table, under an address that nothing points to,
is left out. Of the `n` patches the source copies `n` words. -/
def createObjectEndRecord (ctx : PickleCtx) : Option (Nat × PickleCtx) := do
  let n := ctx.neededPatches.length
  let (h, ctx) ← ctx.openRecord (if n = 0 then 64 else headerLen + 16 * n)
  let hdr : RecordHdr :=
    { guard := marshalRecordGuard, type := 0, allocFile := 0, allocLen := n * 16,
      allocLine := recordLine, marshalEnd := true, ptrScan := n ≠ 0, obj := false,
      cachedHash := (0, 0) }
  let ctx := ctx.writeHeader h hdr
  some (h,
    { ctx with
      records := ctx.records.modify h fun r =>
        r.take 6 ++ (patchWords ctx.neededPatches).take n ++ r.drop (6 + n)
      neededPatches := [] })

/-- The loop of `bundle_result` over the local heaps that were filled: the words copied and the
offset reached. -/
def copyHeaps (ctx : PickleCtx) : List (Buf × Word) → Word → List Word × Word
  | [], start => ([], start)
  | (heap, localEnd) :: heaps, start =>
    let toCopy := localEnd - start
    let (words, reached) := copyHeaps ctx heaps localEnd
    ((ctx.heapWords heap).takeD (toCopy.toNat / 8) 0 ++ words, reached)

/-- `n00b_get_marshal_magic`, in a build without full memory checks. The name that it tests for the
location info is not defined anywhere. -/
def marshalMagic : Word := 0xc0cac01ab0ba1cee#64

/-- `bundle_result`. `beyond` is what memory holds after the end record: its patches are copied as
`8 * alloc_len` bytes. -/
def bundleResult (beyond : Nat → Word) (ctx : PickleCtx) (endRecord : Nat) :
    Option (List Word × PickleCtx) :=
  let preamble := if ctx.started then [] else [marshalMagic, ctx.base]
  let hdr := (ctx.record endRecord).take 6
  let allocLen := allocLenOf (hdr.getD 3 0)
  let toAlloc := (ctx.offset - ctx.lastOffsetEnd).toNat + headerLen + 8 * preamble.length +
    8 * allocLen
  if toAlloc ≥ 2 ^ 31 then none
  else
    let (filled, start) := copyHeaps ctx ctx.bufferedHeapInfo ctx.lastOffsetEnd
    let current := (ctx.currentOutputBuf.map ctx.heapWords).getD []
    let toCopy := ctx.offset - start
    let own := (ctx.record endRecord).drop 6
    let data := (own ++ (List.range allocLen).map beyond).take allocLen
    some (preamble ++ filled ++ current.takeD (toCopy.toNat / 8) 0 ++ hdr ++ data,
      { ctx with
        lastOffsetEnd := ctx.offset, started := true, bufferedHeapInfo := [],
        currentOutputBuf := none, records := [] })

/-- `n00b_internal_marshal` on the object with the header `src`. There is no buffer where the record
was written before. -/
def internalMarshal (heap : Heap) (beyond : Nat → Word) (ctx : PickleCtx) (src : Alloc) :
    Option (Option (List Word) × PickleCtx) := do
  let depth := heap.allocs.length + 1
  let (offset, dst, ctx) ← getWriteRecord heap depth ctx src
  match dst with
  | none => some (none, ctx)
  | some dst =>
    let ctx ← processQueue heap depth depth (ctx.enqueueWriteRecord src dst offset)
    let (endRecord, ctx) ← createObjectEndRecord ctx
    let (b, ctx) ← bundleResult beyond ctx endRecord
    some (some b, ctx)

/-- A stream of messages: `incremental_marshal` on one object after another. -/
def marshalAll (heap : Heap) (beyond : Nat → Word) :
    PickleCtx → List Alloc → Option (List (Option (List Word)) × PickleCtx)
  | ctx, [] => some ([], ctx)
  | ctx, obj :: objs => do
    let (b, ctx) ← internalMarshal heap beyond ctx obj
    let (bs, ctx) ← marshalAll heap beyond ctx objs
    some (b :: bs, ctx)

end N00b.Marshal
