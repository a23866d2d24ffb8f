import N00b.Adts.BufferCapacity

/-!
# Byte rings

`bytering.nc`: the last bytes that were written, between a pointer to read from and one to write to.

## Representation

* A pointer is a number, and `NULL` is zero. A ring has the bytes behind `data`, and an operation has
  no result when it reads or writes outside of them, or copies between ranges of them that overlap.
* An operation that allocates is given the address that it gets.
* The rings of a program are a list, and an operation names those it is about by their places. A
  string or a buffer that is written is its bytes.
* What raises leaves the rings as they are. Locks are left out.

## Main results

- `Fresh.step`, `fresh_rings_broken`: rings that were not truncated since they were created read from
  `NULL`, and hold nothing.
- `Emptied.not_holds`, `Emptied.write_holds`: a ring that was truncated of all its bytes is not empty
  as a buffer, and holds what is written to it first.
- `ring_never_fifo`: a ring is not a bounded queue, from its creation on.
-/

namespace N00b.Adts

open N00b.Lib

/-- `n00b_bytering_t`. -/
structure RingObj where
  block : List UInt8
  allocLen : ℤ
  data : ℤ
  writePtr : ℤ
  readPtr : ℤ
  deriving DecidableEq, Repr

namespace RingObj

/-- `n00b_bytering_init`, with the bytes of a string or a buffer, or none. -/
def init (address length : ℤ) (bytes : List UInt8) : Option RingObj :=
  let allocLen := if length = -1 then (bytes.length : ℤ) else length
  let copyLen := min allocLen bytes.length
  if allocLen = 0 then some { block := [], allocLen := 0, data := 0, writePtr := 0, readPtr := 0 }
  else if allocLen + 1 < 0 then none
  else do
    let block ← Block.copy (byteAlloc (allocLen + 1).toNat) 0 bytes 0 copyLen
    -- `read_ptr` is set to `data` before there are any
    some { block := block, allocLen := int32 allocLen, data := address
           writePtr := address + copyLen, readPtr := 0 }

/-- `n00b_bytering_len_raw`. -/
def lenRaw (l : RingObj) : ℤ :=
  if l.readPtr ≤ l.writePtr then l.writePtr - l.readPtr
  else l.allocLen - (l.readPtr - l.writePtr)

/-- `n00b_bytering_end`. -/
def endPtr (l : RingObj) : ℤ := l.data + l.allocLen

/-- The bytes that are copied: those behind a pointer into another ring, or into the same one, or
those of a string or a buffer. -/
inductive Source where
  | other (src : RingObj) (ptr : ℤ)
  | same (ptr : ℤ)
  | bytes (src : List UInt8) (offset : ℤ)

/-- `add_bytes_size_checked`. Its length is an `int`. -/
def addBytes (l : RingObj) (src : Source) (n : ℤ) : Option RingObj :=
  let n := int32 n
  let dst := l.writePtr - l.data
  let copied := match src with
    | .other src ptr => Block.copy l.block dst src.block (ptr - src.data) n
    | .same ptr => Block.copyApart l.block dst (ptr - l.data) n
    | .bytes src offset => Block.copy l.block dst src offset n
  copied.map fun block => { l with block := block, writePtr := l.writePtr + n }

/-- The source behind a pointer into a ring, which may be the ring itself. -/
def source (src : Option RingObj) (ptr : ℤ) : Source :=
  match src with
  | none => .same ptr
  | some src => .other src ptr

/-- `add_bytes_from_ring_size_checked`. There is no other ring when a ring is added to itself. -/
def addBytesFromRing (t₁ : RingObj) (t₂ : Option RingObj) : Option RingObj :=
  let l := t₂.getD t₁
  let len := int32 l.lenRaw
  if l.readPtr < l.writePtr then do
    let seg₂ := int32 (l.writePtr - l.data)
    let seg₁ := int32 (len - seg₂)
    let t₁ ← t₁.addBytes (source t₂ l.readPtr) seg₁
    t₁.addBytes (source t₂ l.data) seg₂
  else t₁.addBytes (source t₂ l.data) len

/-- `n00b_bytering_to_buffer`. -/
def toBuffer (l : RingObj) : Option BufObj :=
  match BufObj.init l.allocLen none none with
  | none => none
  | some none => none
  | some (some result) =>
    let n := int32 (l.writePtr - l.readPtr)
    if 0 < n then do
      let data ← Block.copy result.data 0 l.block (l.readPtr - l.data) n
      some { result with data := data, byteLen := n }
    else do
      let n := int32 (l.allocLen - (l.readPtr - l.data))
      let data ← Block.copy result.data 0 l.block (l.readPtr - l.data) n
      let m := int32 (l.writePtr - l.data)
      let data ← Block.copy data n l.block 0 m
      some { result with data := data, byteLen := n + m }

/-- `n00b_bytering_index_addr`. -/
def indexAddr (l : RingObj) (ix : ℤ) : ℤ :=
  if l.endPtr < l.data + ix then l.data + (l.data + ix - l.endPtr) else l.data + ix

/-- `n00b_bytering_get_index`. It raises when the index is out of bounds. -/
def getIndex (l : RingObj) (ix : ℤ) : Option (Option UInt8) :=
  let len := int32 l.lenRaw
  let ix := if ix < 0 then ix + len else ix
  if ix < 0 ∨ len ≤ ix then some none
  else (Block.load l.block (l.indexAddr ix - l.data)).map some

/-- `n00b_bytering_truncate_end`. -/
def truncateEnd (r : RingObj) (len : ℤ) : RingObj :=
  if len ≤ 0 then r
  else if int32 r.lenRaw ≤ len then { r with readPtr := r.data, writePtr := r.data }
  else
    let p := r.writePtr - len
    { r with writePtr := if p < r.data then r.endPtr - int32 (r.data - p) else p }

/-- `n00b_bytering_truncate_front`. -/
def truncateFront (r : RingObj) (len : ℤ) : RingObj :=
  if len ≤ 0 then r
  else if int32 r.lenRaw ≤ len then { r with readPtr := r.data, writePtr := r.data }
  else
    let p := r.readPtr + len
    { r with readPtr := if r.endPtr < p then r.data + int32 (p - r.endPtr) else p }

/-- `n00b_bytering_write_raw`. The source moves on by as many bytes as are skipped. -/
def writeRaw (r : RingObj) (src : ℤ → Source) (bytes : ℤ) : Option RingObj :=
  let l := (r.allocLen - 1) % 2 ^ 64
  if l < bytes % 2 ^ 64 then r.addBytes (src (bytes % 2 ^ 64 - l)) l
  else r.addBytes (src 0) bytes

/-- `n00b_bytering_write_buffer` and `n00b_bytering_write_string`. -/
def writeBytes (r : RingObj) (bytes : List UInt8) : Option RingObj :=
  r.writeRaw (fun skipped => .bytes bytes skipped) bytes.length

/-- `n00b_bytering_write_bytering`. There is no other ring when a ring is written to itself. -/
def writeRing (dst : RingObj) (src : Option RingObj) : Option RingObj :=
  let s := src.getD dst
  if s.readPtr < s.writePtr then
    dst.writeRaw (fun skipped => source src (s.readPtr + skipped)) (s.writePtr - s.readPtr)
  else do
    let dst ← dst.writeRaw (fun skipped => source src (s.readPtr + skipped)) (s.endPtr - s.readPtr)
    let s := src.getD dst
    dst.writeRaw (fun skipped => source src (s.data + skipped)) (s.writePtr - s.data)

/-- `n00b_bytering_plus_raw`, at the address that the result gets. -/
def plusRaw (address : ℤ) (t₁ t₂ : RingObj) : Option RingObj := do
  let len := int32 (int32 t₁.lenRaw + int32 t₂.lenRaw)
  let result ← init address len []
  let result ← result.addBytesFromRing (some t₁)
  result.addBytesFromRing (some t₂)

/-- `n00b_bytering_plus_eq`. There is no other ring when a ring is added to itself. -/
def plusEq (address : ℤ) (t₁ : RingObj) (t₂ : Option RingObj) : Option RingObj :=
  if t₁.allocLen < t₁.lenRaw + (t₂.getD t₁).lenRaw then plusRaw address t₁ (t₂.getD t₁)
  else t₁.addBytesFromRing t₂

end RingObj

/-! ## The operations on a number of rings -/

inductive RingOp where
  | create (address : ℤ) (capacity : ℕ)
  | write (k : ℕ) (bytes : List UInt8)
  | writeRing (k j : ℕ)
  | truncateFront (k : ℕ) (len : ℤ)
  | truncateEnd (k : ℕ) (len : ℤ)
  | plusEq (k j : ℕ) (address : ℤ)
  deriving DecidableEq, Repr

/-- The ring at another place, or none if the place is the same. -/
def otherRing (s : List RingObj) (k j : ℕ) : Option (Option RingObj) :=
  if k = j then some none else s[j]?.map some

def ringStep (s : List RingObj) : RingOp → Option (List RingObj)
  | .create address capacity => do
    let r ← RingObj.init address capacity []
    some (s ++ [r])
  | .write k bytes => do
    let r ← s[k]?
    let r ← r.writeBytes bytes
    some (s.set k r)
  | .writeRing k j => do
    let r ← s[k]?
    let src ← otherRing s k j
    let r ← r.writeRing src
    some (s.set k r)
  | .truncateFront k len => do
    let r ← s[k]?
    some (s.set k (r.truncateFront len))
  | .truncateEnd k len => do
    let r ← s[k]?
    some (s.set k (r.truncateEnd len))
  | .plusEq k j address => do
    let r ← s[k]?
    let t₂ ← otherRing s k j
    let r ← r.plusEq address t₂
    some (s.set k r)

/-! ## Bounded queues -/

/-- What a ring is for: bytes, of which it keeps the last ones. -/
structure Fifo where
  capacity : ℕ
  held : List UInt8
  deriving DecidableEq, Repr

namespace Fifo

/-- More bytes are written, and only the last ones are kept. -/
def write (q : Fifo) (bytes : List UInt8) : Fifo :=
  { q with held := (q.held ++ bytes).drop ((q.held ++ bytes).length - q.capacity) }

/-- A queue with the bytes of another one behind its own, and room for all of them. -/
def plusEq (q p : Fifo) : Fifo :=
  { capacity := max q.capacity (q.held.length + p.held.length), held := q.held ++ p.held }

def step (s : List Fifo) : RingOp → Option (List Fifo)
  | .create _ capacity => some (s ++ [{ capacity := capacity, held := [] }])
  | .write k bytes => s[k]?.map fun q => s.set k (q.write bytes)
  | .writeRing k j => do
    let q ← s[k]?
    let p ← s[j]?
    some (s.set k (q.write p.held))
  | .truncateFront k len => s[k]?.map fun q =>
    s.set k { q with held := q.held.drop len.toNat }
  | .truncateEnd k len => s[k]?.map fun q =>
    s.set k { q with held := q.held.take (q.held.length - len.toNat) }
  | .plusEq k j _ => do
    let q ← s[k]?
    let p ← s[j]?
    some (s.set k (q.plusEq p))

end Fifo

/-- A ring that holds what a queue does, with its pointers in the bytes that it has. -/
structure RingObj.Holds (r : RingObj) (q : Fifo) : Prop where
  buffer : ∃ b, r.toBuffer = some b ∧ b.contents = q.held
  len : r.lenRaw = q.held.length
  index : ∀ (i : ℕ) (h : i < q.held.length), r.getIndex i = some (some q.held[i])
  read_in : r.data ≤ r.readPtr ∧ r.readPtr ≤ r.data + q.capacity
  write_in : r.data ≤ r.writePtr ∧ r.writePtr ≤ r.data + q.capacity

/-- After each of these operations, all rings hold what the queues do. -/
def RingsHold (ops : List RingOp) : Prop :=
  ∀ j ≤ ops.length, ∀ qs, (ops.take j).foldlM Fifo.step [] = some qs →
    ∃ s, (ops.take j).foldlM ringStep [] = some s ∧ List.Forall₂ RingObj.Holds s qs

/-! ## Rings that were not truncated -/

namespace RingObj

variable {r r' t : RingObj}

theorem addBytes_readPtr {src : Source} {n : ℤ} (h : r.addBytes src n = some r') :
    r'.readPtr = r.readPtr := by
  obtain ⟨block, _, rfl⟩ := Option.map_eq_some_iff.mp h
  rfl

theorem addBytesFromRing_readPtr {t₂ : Option RingObj} (h : r.addBytesFromRing t₂ = some r') :
    r'.readPtr = r.readPtr := by
  simp only [addBytesFromRing] at h
  split at h
  · obtain ⟨t, ht, h⟩ := Option.bind_eq_some_iff.mp h
    exact (addBytes_readPtr h).trans (addBytes_readPtr ht)
  · exact addBytes_readPtr h

theorem writeRaw_readPtr {src : ℤ → Source} {n : ℤ} (h : r.writeRaw src n = some r') :
    r'.readPtr = r.readPtr := by
  simp only [writeRaw] at h
  split at h
  · exact addBytes_readPtr h
  · exact addBytes_readPtr h

theorem writeRing_readPtr {src : Option RingObj} (h : r.writeRing src = some r') :
    r'.readPtr = r.readPtr := by
  simp only [writeRing] at h
  split at h
  · exact writeRaw_readPtr h
  · obtain ⟨t, ht, h⟩ := Option.bind_eq_some_iff.mp h
    exact (writeRaw_readPtr h).trans (writeRaw_readPtr ht)

theorem init_spec {address length : ℤ} {bytes : List UInt8}
    (h : init address length bytes = some r) :
    r.readPtr = 0 ∧ (0 < length → r.data = address) := by
  obtain ⟨n, hn⟩ : ∃ n : ℤ, n = if length = -1 then (bytes.length : ℤ) else length := ⟨_, rfl⟩
  simp only [init, ← hn] at h
  by_cases hzero : n = 0
  · rw [if_pos hzero] at h
    rw [← Option.some.inj h]
    refine ⟨rfl, fun hpos => ?_⟩
    rw [if_neg (by omega)] at hn
    omega
  · rw [if_neg hzero] at h
    obtain ⟨_, h⟩ := Option.ite_none_left_eq_some.mp h
    obtain ⟨block, _, h⟩ := Option.bind_eq_some_iff.mp h
    rw [← Option.some.inj h]
    exact ⟨rfl, fun _ => rfl⟩

theorem plusEq_readPtr {address : ℤ} {t₂ : Option RingObj} (h : r.plusEq address t₂ = some r')
    (hr : r.readPtr = 0) : r'.readPtr = 0 := by
  simp only [plusEq] at h
  split at h
  · obtain ⟨t, ht, h⟩ := Option.bind_eq_some_iff.mp h
    obtain ⟨t', ht', h⟩ := Option.bind_eq_some_iff.mp h
    rw [addBytesFromRing_readPtr h, addBytesFromRing_readPtr ht', (init_spec ht).1]
  · rw [addBytesFromRing_readPtr h, hr]

theorem not_holds (hr : r.readPtr = 0) (hdata : 0 < r.data) (q : Fifo) : ¬ r.Holds q := by
  intro h
  have hin := h.read_in.1
  omega

end RingObj

/-- An operation that truncates no ring. -/
def Grows : RingOp → Prop
  | .truncateFront _ _ | .truncateEnd _ _ => False
  | _ => True

/-- All rings read from `NULL`. -/
def Fresh (s : List RingObj) : Prop := ∀ r ∈ s, r.readPtr = 0

variable {s s' : List RingObj}

theorem Fresh.set (hs : Fresh s) (k : ℕ) {r : RingObj} (hr : r.readPtr = 0) :
    Fresh (s.set k r) := by
  intro t ht
  rcases List.mem_or_eq_of_mem_set ht with ht | rfl
  · exact hs t ht
  · exact hr

theorem Fresh.step (hs : Fresh s) {op : RingOp} (hop : Grows op) (h : ringStep s op = some s') :
    Fresh s' := by
  cases op with
  | create address capacity =>
    obtain ⟨r, hr, hstep⟩ := Option.bind_eq_some_iff.mp h
    cases hstep
    intro t ht
    rcases List.mem_append.mp ht with ht | ht
    · exact hs t ht
    · rw [List.mem_singleton.mp ht, (RingObj.init_spec hr).1]
  | write k bytes =>
    obtain ⟨r, hk, hstep⟩ := Option.bind_eq_some_iff.mp h
    obtain ⟨r', hr', hstep⟩ := Option.bind_eq_some_iff.mp hstep
    cases hstep
    exact hs.set k ((RingObj.writeRaw_readPtr hr').trans (hs r (List.mem_of_getElem? hk)))
  | writeRing k j =>
    obtain ⟨r, hk, hstep⟩ := Option.bind_eq_some_iff.mp h
    obtain ⟨src, _, hstep⟩ := Option.bind_eq_some_iff.mp hstep
    obtain ⟨r', hr', hstep⟩ := Option.bind_eq_some_iff.mp hstep
    cases hstep
    exact hs.set k ((RingObj.writeRing_readPtr hr').trans (hs r (List.mem_of_getElem? hk)))
  | truncateFront k len => exact hop.elim
  | truncateEnd k len => exact hop.elim
  | plusEq k j address =>
    obtain ⟨r, hk, hstep⟩ := Option.bind_eq_some_iff.mp h
    obtain ⟨t₂, _, hstep⟩ := Option.bind_eq_some_iff.mp hstep
    obtain ⟨r', hr', hstep⟩ := Option.bind_eq_some_iff.mp hstep
    cases hstep
    exact hs.set k (RingObj.plusEq_readPtr hr' (hs r (List.mem_of_getElem? hk)))

theorem fresh_rings_broken (hrun : Run ringStep (fun _ op => Grows op) [] s) {r : RingObj}
    (hr : r ∈ s) (hdata : 0 < r.data) (q : Fifo) : ¬ r.Holds q := by
  have hfresh : Fresh s :=
    hrun.invariant (fun r hr => by cases hr) fun t op u ht hop hstep => ht.step hop hstep
  exact RingObj.not_holds (hfresh r hr) hdata q

/-! ## Rings that were truncated of all their bytes -/

namespace RingObj

variable {r : RingObj} {c : ℕ} {bytes : List UInt8}

/-- Both pointers are at the first byte. -/
structure Emptied (r : RingObj) : Prop where
  read : r.readPtr = r.data
  write : r.writePtr = r.data

/-- A truncation of all that is held empties a ring, the one that reads from `NULL` included. -/
theorem emptied_truncate {len : ℤ} (hpos : 0 < len) (hall : int32 r.lenRaw ≤ len) :
    (r.truncateFront len).Emptied ∧ (r.truncateEnd len).Emptied := by
  simp only [truncateFront, truncateEnd, if_neg (Int.not_le.mpr hpos), if_pos hall]
  exact ⟨⟨rfl, rfl⟩, ⟨rfl, rfl⟩⟩

theorem init_buffer (hpos : 0 < c) :
    BufObj.init c none none = some (some
      { data := byteAlloc (roundUpToPowerOf2 c), byteLen := int32 c
        allocLen := int32 (roundUpToPowerOf2 c) }) := by
  rw [BufObj.init, BufObj.initLength, if_neg (by omega), if_neg (by omega)]
  simp only [Int.toNat_natCast]
  rw [if_neg (by omega)]

/-- The new bytes of a buffer have room for as many as it is made for. -/
theorem le_length_buffer (hsmall : c < 2 ^ 31) :
    c ≤ (byteAlloc (roundUpToPowerOf2 c)).length := by
  rw [BufObj.length_byteAlloc]
  exact (BufObj.le_roundUpToPowerOf2 (by omega)).trans (le_calculateAllocLen _)

/-- **An emptied ring is not empty** as a buffer: it has all the bytes that there is room for. -/
theorem Emptied.not_holds (h : r.Emptied) (halloc : r.allocLen = c) (hsmall : c < 2 ^ 31)
    (hpos : 0 < c) {q : Fifo} (hq : q.held = []) : ¬ r.Holds q := by
  rintro ⟨⟨b, hb, hcontents⟩, -, -, -, -⟩
  have hint : int32 c = c := int32_of_lt (by omega) (by omega)
  have hzero : int32 0 = 0 := rfl
  simp only [toBuffer, halloc, init_buffer hpos, h.read, h.write, sub_self, hzero, sub_zero, hint,
    lt_self_iff_false, if_false] at hb
  obtain ⟨data, hdata, hb⟩ := Option.bind_eq_some_iff.mp hb
  obtain ⟨data', hdata', hb⟩ := Option.bind_eq_some_iff.mp hb
  obtain rfl : data = data' := by simpa [Block.copy] using hdata'
  have hlen := Block.length_copy hdata
  have hroom := le_length_buffer hsmall
  have hnil := congrArg List.length (hcontents.trans hq)
  rw [← Option.some.inj hb, BufObj.contents, List.length_take, List.length_nil] at hnil
  simp only at hnil
  omega

/-- A ring whose bytes lie in front of its block holds them, if there are any and a byte is free. -/
theorem holds_of_front (hread : r.readPtr = r.data) (hwrite : r.writePtr = r.data + bytes.length)
    (halloc : r.allocLen = c) (hsmall : c < 2 ^ 31) (hfront : r.block.take bytes.length = bytes)
    (hpos : bytes ≠ []) (hfits : bytes.length < c) :
    r.Holds { capacity := c, held := bytes } := by
  have hlen : 0 < bytes.length := List.length_pos_iff.mpr hpos
  have hint : int32 bytes.length = bytes.length := int32_of_lt (by omega) (by omega)
  have hblock : bytes.length ≤ r.block.length := by
    have htake := congrArg List.length hfront
    rw [List.length_take] at htake
    omega
  have hraw : r.lenRaw = bytes.length := by
    rw [lenRaw, hread, hwrite, if_pos (by omega), add_sub_cancel_left]
  constructor
  case buffer =>
    have hout := Block.copy_of_le (byteAlloc (roundUpToPowerOf2 c)) r.block 0 0 bytes.length
      (by have hroom := le_length_buffer hsmall; omega) (by omega)
    rw [List.drop_zero, hfront, Nat.cast_zero] at hout
    refine ⟨⟨Block.splice (byteAlloc (roundUpToPowerOf2 c)) 0 bytes, bytes.length,
      int32 (roundUpToPowerOf2 c)⟩, ?_, ?_⟩
    · simp only [toBuffer, halloc, init_buffer (Nat.zero_lt_of_lt hfits), hread, hwrite,
        add_sub_cancel_left, hint, sub_self, hout]
      rw [if_pos (by omega)]
      rfl
    · simpa [BufObj.contents] using
        Block.take_splice (byteAlloc (roundUpToPowerOf2 c)) bytes (Nat.zero_le _)
  case len => exact hraw
  case index =>
    intro i hi
    have hi : i < bytes.length := hi
    have hcell : r.block[i]? = some bytes[i] := by
      have htake := congrArg (·[i]?) hfront
      simpa [List.getElem?_take, hi] using htake
    simp only [getIndex, hraw, hint, show ¬ (i : ℤ) < 0 by omega, if_false,
      show ¬ (bytes.length : ℤ) ≤ i by omega, or_self, indexAddr, endPtr, halloc,
      show ¬ r.data + c < r.data + i by omega, add_sub_cancel_left, Block.load_ofNat, hcell,
      Option.map_some]
  case read_in => exact ⟨hread.ge, by simp only; omega⟩
  case write_in => exact ⟨by omega, by simp only; omega⟩

/-- **An emptied ring holds** what is written to it first, if that leaves a byte free. -/
theorem Emptied.write_holds (h : r.Emptied) (halloc : r.allocLen = c) (hsmall : c < 2 ^ 31)
    (hblock : c ≤ r.block.length) (hpos : bytes ≠ []) (hfits : bytes.length < c) :
    ∃ r', r.writeBytes bytes = some r' ∧ r'.Holds { capacity := c, held := bytes } := by
  have hint : int32 bytes.length = bytes.length := int32_of_lt (by omega) (by omega)
  have hcopy := Block.copy_of_le r.block bytes 0 0 bytes.length (by omega) (by omega)
  rw [List.drop_zero, List.take_length, Nat.cast_zero] at hcopy
  have hwrite : r.writeBytes bytes = some { r with
      block := Block.splice r.block 0 bytes, writePtr := r.data + bytes.length } := by
    have hfree : ¬ (r.allocLen - 1) % 2 ^ 64 < (bytes.length : ℤ) % 2 ^ 64 := by omega
    simp only [writeBytes, writeRaw, if_neg hfree, addBytes, hint, h.write, sub_self, hcopy,
      Option.map_some]
  refine ⟨_, hwrite, holds_of_front h.read rfl halloc hsmall ?_ hpos hfits⟩
  simpa using Block.take_splice r.block bytes (Nat.zero_le _)

end RingObj

/-! ## Every run -/

/-- **A ring is not a bounded queue**, whatever its capacity is and whatever is done to it: it reads
from `NULL` after its creation. -/
theorem ring_never_fifo (capacity : ℕ) (address : ℤ) (ops : List RingOp) (hcapacity : 0 < capacity)
    (haddress : 0 < address) : ¬ RingsHold (.create address capacity :: ops) := by
  intro h
  obtain ⟨s, hs, hholds⟩ := h 1 (Nat.le_add_left _ _) [{ capacity := capacity, held := [] }] rfl
  obtain ⟨t, ht, hs⟩ := Option.bind_eq_some_iff.mp hs
  have hrun : Run ringStep (fun _ op => Grows op) [] t := .tail (e := .create address capacity) .refl trivial ht
  obtain ⟨r, hr, ht⟩ := Option.bind_eq_some_iff.mp ht
  cases ht
  cases hs
  rcases hholds with _ | ⟨hhead, _⟩
  have hpos : 0 < r.data := by
    rw [(RingObj.init_spec hr).2 (by omega)]
    exact haddress
  exact fresh_rings_broken hrun (List.mem_singleton_self r) hpos _ hhead

theorem ring_never_fifo_write : ¬ RingsHold [.create 4096 4, .write 0 [1, 2]] :=
  ring_never_fifo 4 4096 [.write 0 [1, 2]] (by decide) (by decide)

/-- The ring of four bytes at address 4096 is 4096 bytes long before anything is written to it. -/
theorem new_ring_len : ¬ ∀ (capacity : ℕ) (address : ℤ) (ops : List RingOp), 0 < capacity →
    0 < address → RingsHold (.create address capacity :: ops) := by
  intro h
  obtain ⟨s, hs, hholds⟩ := h 4 4096 [] (by decide) (by decide) 1 le_rfl _ rfl
  have hnew : ringStep [] (.create 4096 4) = some
      [{ block := List.replicate 16 0, allocLen := 4, data := 4096, writePtr := 4096
         readPtr := 0 }] := by decide
  have hrun : ((ringStep [] (.create 4096 4)).bind some) = some s := hs
  rw [hnew] at hrun
  cases hrun
  rcases hholds with _ | ⟨hhead, _⟩
  have hlen := hhead.len
  revert hlen
  decide

end N00b.Adts
