import Mathlib
import N00b.Marshal.Pickle

/-!
# The unmarshalling side of the filter

`n00b_receive_unpickle_info` to `n00b_unpickle_one` and `incremental_unmarshal` of
io/filter_marshal.nc.

A buffer is the list of its words, and a position in it an index; only `find_end_record` and the
patches, which may stand at any byte, count in bytes. The address of a buffer's data is a parameter
`loc`, and so is what memory holds after the data (`beyond`) and the guard of the receiver's heap.
A negative `alloc_len`, which only a damaged stream has, is read as a large one.
-/

namespace N00b.Marshal

/-- The ways in which unmarshalling stops. `unfinished` is a loop that ran longer than its bound;
`noEndRecord` is a search that ran off the front of the buffer or stopped inside a word. -/
inductive UnmarshalError where
  | invalidFormat
  | badAddressSpace
  | corruptStream
  | invalidPointer
  | badBackpatch
  | unreachable
  | noEndRecord
  | unfinished
deriving DecidableEq, Repr

/-- `n00b_vaddr_map_t`. -/
structure VaddrMap where
  vaddrStartOffset : Word
  vaddrEndOffset : Word
  trueSegmentLoc : Word
deriving DecidableEq, Repr

/-- `n00b_unpickle_ctx`. -/
structure UnpickleCtx where
  partialData : Option (List Word)
  partCursor : Nat
  vaddrInfo : List VaddrMap
  vaddrStart : Word
  curRecordStartOffset : Word
  curRecordEndOffset : Word
  curRecord : Word
deriving DecidableEq, Repr

/-- The decoding half of `marshal_setup`. -/
def unmarshalSetup : UnpickleCtx :=
  { partialData := none, partCursor := 0, vaddrInfo := [], vaddrStart := 0,
    curRecordStartOffset := 0, curRecordEndOffset := 0, curRecord := 0 }

/-! ## Framing -/

/-- `n00b_receive_unpickle_info`. -/
def receiveUnpickleInfo (ctx : UnpickleCtx) (inbuf : List Word) : UnpickleCtx :=
  match ctx.partialData with
  | none => { ctx with partialData := some inbuf, partCursor := 0 }
  | some buf => { ctx with partialData := some (buf ++ inbuf) }

/-- `n00b_slice_one_pickle`: the first `stop` words, and the context that keeps the others. -/
def sliceOnePickle (ctx : UnpickleCtx) (buf : List Word) (stop : Nat) :
    List Word × UnpickleCtx :=
  if buf.length = stop then (buf, { ctx with partialData := none, partCursor := 0 })
  else (buf.take stop, { ctx with partialData := some (buf.drop stop), partCursor := 0 })

/-- The loop of `n00b_check_unpickle_readiness` over a buffer: the cursor, and the end of the
message when all of it is there. -/
def scanRecords (buf : List Word) : Nat → Nat → Except UnmarshalError (Nat × Option Nat)
  | 0, _ => .error .unfinished
  | fuel + 1, cursor =>
    if cursor + 6 > buf.length then .ok (cursor, none)
    else if buf.getD cursor 0 ≠ marshalRecordGuard then .error .corruptStream
    else
      let lengths := buf.getD (cursor + 3) 0
      if marshalEndOf lengths then
        let expectedEnd := cursor + 6 + allocLenOf lengths / 8
        .ok (cursor, if buf.length ≥ expectedEnd then some expectedEnd else none)
      else scanRecords buf fuel (cursor + allocLenOf lengths / 8)

/-- `n00b_check_unpickle_readiness`. -/
def checkUnpickleReadiness (ctx : UnpickleCtx) :
    Except UnmarshalError (Option (List Word) × UnpickleCtx) :=
  match ctx.partialData with
  | none => .ok (none, ctx)
  | some buf => do
    let (cursor, stop) ← scanRecords buf (buf.length + 1) ctx.partCursor
    match stop with
    | none => .ok (none, { ctx with partCursor := cursor })
    | some stop =>
      let (slice, ctx) := sliceOnePickle ctx buf stop
      .ok (some slice, ctx)

/-- The eight bytes of a buffer from the byte `q` on. -/
def loadBytes (buf : List Word) (q : Nat) : Word :=
  if q % 8 = 0 then buf.getD (q / 8) 0
  else buf.getD (q / 8) 0 >>> (8 * (q % 8)) ||| buf.getD (q / 8 + 1) 0 <<< (64 - 8 * (q % 8))

/-- The loop of `find_end_record`, from the byte `p` to the front. -/
def scanBack (buf : List Word) : Nat → Option Nat
  | 0 => if loadBytes buf 0 = marshalRecordGuard then some 0 else none
  | p + 1 => if loadBytes buf (p + 1) = marshalRecordGuard then some (p + 1) else scanBack buf p

/-- `find_end_record`, as an index of words. -/
def findEndRecord (buf : List Word) : Option Nat :=
  (scanBack buf (8 * buf.length - headerLen)).bind fun p =>
    if p % 8 = 0 then some (p / 8) else none

/-! ## Addresses -/

/-- `n00b_raw_unmunge_pointer`. -/
def rawUnmungePointer (ctx : UnpickleCtx) (vptr : Word) : Except UnmarshalError Word :=
  let offset := vptr - ctx.vaddrStart
  if offset.toInt < 0 ∨ offset.toNat ≥ ctx.curRecordStartOffset.toNat then
    if offset.toNat > ctx.curRecordEndOffset.toNat then .error .invalidPointer
    else .ok (ctx.curRecord + offset - ctx.curRecordStartOffset)
  else
    match ctx.vaddrInfo.find? (fun entry => offset.toNat < entry.vaddrEndOffset.toNat) with
    | some entry => .ok (entry.trueSegmentLoc + offset - entry.vaddrStartOffset)
    | none => .error .unreachable

/-- `n00b_safe_unmunge_pointer`. -/
def safeUnmungePointer (ctx : UnpickleCtx) (vptr : Word) : Except UnmarshalError Word :=
  if lsbErase vptr ≠ ctx.vaddrStart then .ok vptr else rawUnmungePointer ctx vptr

/-- The loop of `n00b_munge_user_data` over `n` words from the index `i` on. -/
def mungeWords (ctx : UnpickleCtx) : Nat → Nat → List Word → Except UnmarshalError (List Word)
  | 0, _, buf => .ok buf
  | n + 1, i, buf =>
    let word := buf.getD i 0
    if lsbErase word = ctx.vaddrStart then do
      let p ← rawUnmungePointer ctx word
      mungeWords ctx n (i + 1) (buf.set i p)
    else mungeWords ctx n (i + 1) buf

/-- `n00b_munge_user_data` on the record with its header at `hdr`. The words are counted with the
whole of `alloc_len`, so the loop goes on over the next header. -/
def mungeUserData (ctx : UnpickleCtx) (hdr : Nat) (buf : List Word) :
    Except UnmarshalError (List Word) :=
  mungeWords ctx (allocLenOf (buf.getD (hdr + 3) 0) / 8) (hdr + 6) buf

/-- `n00b_unmarshal_records`, from the header at `hdr` on. -/
def unmarshalRecords (gcGuard : Word) (ctx : UnpickleCtx) (endRecord : Nat) :
    Nat → Nat → List Word → Except UnmarshalError (List Word)
  | 0, _, _ => .error .unfinished
  | fuel + 1, hdr, buf =>
    let allocLen := allocLenOf (buf.getD (hdr + 3) 0)
    if allocLen ≠ 0 ∧ hdr < endRecord then do
      let type ← safeUnmungePointer ctx (buf.getD (hdr + 1) 0)
      let allocFile ← safeUnmungePointer ctx (buf.getD (hdr + 2) 0)
      let buf ← mungeUserData ctx hdr
        (((buf.set hdr gcGuard).set (hdr + 1) type).set (hdr + 2) allocFile)
      unmarshalRecords gcGuard ctx endRecord fuel (hdr + allocLen / 8) buf
    else .ok buf

/-! ## Patches -/

/-- The eight bytes from the byte `q` on replaced by `value`. -/
def storeBytes (buf : List Word) (q : Nat) (value : Word) : List Word :=
  if q % 8 = 0 then buf.set (q / 8) value
  else
    let shift := 8 * (q % 8)
    let low := BitVec.ofNat 64 (2 ^ shift - 1)
    (buf.modify (q / 8) fun w => (w &&& low) ||| (value <<< shift)).modify (q / 8 + 1)
      fun w => (w &&& ~~~low) ||| (value >>> (64 - shift))

/-- The loop of `n00b_perform_unmarshal_backpatching`: the number `n` that the loop tests, and the
index of the next pair. The source does not count `n` down. -/
def backpatchLoop (ctx : UnpickleCtx) (beyond : Nat → Word) :
    Nat → Nat → Nat → List Word → Except UnmarshalError (List Word)
  | _, 0, _, buf => .ok buf
  | 0, _ + 1, _, _ => .error .unfinished
  | fuel + 1, n + 1, i, buf =>
    let load := fun j => if j < buf.length then buf.getD j 0 else beyond (j - buf.length)
    let offset := load i
    let value := load (i + 1)
    if offset.toNat < ctx.curRecordStartOffset.toNat
        ∨ offset.toNat > ctx.curRecordEndOffset.toNat then .error .badBackpatch
    else
      let at_ := (offset - ctx.curRecordStartOffset).toNat
      backpatchLoop ctx beyond fuel (n + 1) (i + 2) (storeBytes buf at_ value)

/-- `n00b_perform_unmarshal_backpatching` with a bound on the steps of its loop. -/
def performUnmarshalBackpatching (ctx : UnpickleCtx) (beyond : Nat → Word) (fuel endRecord : Nat)
    (buf : List Word) : Except UnmarshalError (List Word) :=
  backpatchLoop ctx beyond fuel (allocLenOf (buf.getD (endRecord + 3) 0) / 16) (endRecord + 6) buf

/-! ## Messages -/

/-- What one message becomes: the object handed out, and the memory its records lie in. -/
structure Unpickled where
  object : Word
  loc : Word
  words : List Word
deriving DecidableEq, Repr

/-- What the receiving side has to offer: its heap's guard, where the buffers of messages lie, and
what memory holds after them. -/
structure Receiver where
  gcGuard : Word
  loc : Nat → Word
  beyond : Nat → Nat → Word

/-- `n00b_unpickle_one`. The memory of a message ends at its end record, which
`n00b_fixup_edge_records` turns into free space. -/
def unpickleOne (receiver : Receiver) (fuel : Nat) (ctx : UnpickleCtx) (buf : List Word) :
    Except UnmarshalError (Unpickled × UnpickleCtx) :=
  match findEndRecord buf with
  | none => .error .noEndRecord
  | some endRecord => do
    let message := ctx.vaddrInfo.length
    let ctx :=
      { ctx with
        curRecordStartOffset := ctx.curRecordEndOffset
        curRecordEndOffset := ctx.curRecordEndOffset + BitVec.ofNat 64 (8 * endRecord)
        curRecord := receiver.loc message }
    let buf ← unmarshalRecords receiver.gcGuard ctx endRecord (buf.length + 1) 0 buf
    let buf ← performUnmarshalBackpatching ctx (receiver.beyond message) fuel endRecord buf
    .ok (⟨ctx.curRecord + BitVec.ofNat 64 headerLen, ctx.curRecord, buf.take endRecord⟩,
      { ctx with
        vaddrInfo := ctx.vaddrInfo ++
          [⟨ctx.curRecordStartOffset, ctx.curRecordEndOffset, ctx.curRecord⟩]
        curRecordStartOffset := ctx.curRecordEndOffset })

/-- The loop of `incremental_unmarshal` over the messages that are there. -/
def unmarshalReady (receiver : Receiver) (fuel : Nat) :
    Nat → UnpickleCtx → Except UnmarshalError (List Unpickled × UnpickleCtx)
  | 0, _ => .error .unfinished
  | steps + 1, ctx => do
    let (ready, ctx) ← checkUnpickleReadiness ctx
    match ready with
    | none => .ok ([], ctx)
    | some buf =>
      let (object, ctx) ← unpickleOne receiver fuel ctx buf
      let (objects, ctx) ← unmarshalReady receiver fuel steps ctx
      .ok (object :: objects, ctx)

/-- The words that `incremental_unmarshal` reads before the first message. There is no context
where it returns at once. -/
def readPreamble (ctx : UnpickleCtx) (buf : List Word) :
    Except UnmarshalError (UnpickleCtx × Bool) :=
  if buf.length < 2 then .ok (ctx, false)
  else if buf.getD 0 0 ≠ marshalMagic then .error .invalidFormat
  else
    let vaddrStart := buf.getD 1 0
    if lsbErase vaddrStart ≠ vaddrStart then .error .badAddressSpace
    else if buf.length = 2 then
      .ok ({ ctx with vaddrStart, partialData := none, partCursor := 0 }, false)
    else .ok ({ ctx with vaddrStart, partialData := some (buf.drop 2), partCursor := 0 }, true)

/-- `incremental_unmarshal`. -/
def incrementalUnmarshal (receiver : Receiver) (fuel : Nat) (ctx : UnpickleCtx)
    (inbuf : List Word) : Except UnmarshalError (List Unpickled × UnpickleCtx) := do
  let ctx := receiveUnpickleInfo ctx inbuf
  let buf := ctx.partialData.getD []
  let (ctx, goOn) ← if ctx.vaddrStart = 0 then readPreamble ctx buf else .ok (ctx, true)
  if goOn then unmarshalReady receiver fuel (buf.length + 1) ctx else .ok ([], ctx)

/-- The buffers of a stream, one after another. -/
def unmarshalAll (receiver : Receiver) (fuel : Nat) :
    UnpickleCtx → List (List Word) → Except UnmarshalError (List Unpickled × UnpickleCtx)
  | ctx, [] => .ok ([], ctx)
  | ctx, inbuf :: inbufs => do
    let (objects, ctx) ← incrementalUnmarshal receiver fuel ctx inbuf
    let (more, ctx) ← unmarshalAll receiver fuel ctx inbufs
    .ok (objects ++ more, ctx)

end N00b.Marshal
