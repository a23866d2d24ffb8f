import N00b.Adts.Allocation
import N00b.Lib.Block
import N00b.Lib.Trace

/-!
# Buffers

`buffer.nc`: bytes, with a record of how many are in use and of how many there are.

## Representation

* An operation has no result when it reads or writes outside of the bytes behind `data`, or copies
  between ranges of them that overlap with `memcpy`.
* What raises leaves the buffers as they are. Locks are left out.
* The buffers of a program are a list, and an operation names those it is about by their places.
* A string is its bytes, and valid UTF-8: its codepoints are the bytes that continue no other one.
-/

namespace N00b.Adts

/-- `n00b_buf_t`. -/
structure BufObj where
  data : List UInt8
  byteLen : ℤ
  allocLen : ℤ
  deriving DecidableEq, Repr

/-- `N00B_EMPTY_BUFFER_ALLOC`. -/
def emptyBufferAlloc : ℕ := 128

/-- `hatrack_round_up_to_power_of_2`. -/
def roundUpToPowerOf2 (n : ℕ) : ℕ :=
  if n &&& (n - 1) = 0 then n else 2 ^ 63 >>> (63 - n.log2 - 1)

/-- `n00b_gc_raw_alloc` of so many bytes. -/
def byteAlloc (bytes : ℕ) : List UInt8 := List.replicate (calculateAllocLen bytes) 0

/-- `n00b_string_codepoint_len`. -/
def codepointLen (s : List UInt8) : ℕ := s.countP fun byte => byte.toNat / 64 ≠ 2

def hexDigit (byte : UInt8) : Option UInt8 :=
  if 48 ≤ byte.toNat ∧ byte.toNat ≤ 57 then some (byte - 48)
  else if 97 ≤ byte.toNat ∧ byte.toNat ≤ 102 then some (byte - 97 + 10)
  else if 65 ≤ byte.toNat ∧ byte.toNat ≤ 70 then some (byte - 65 + 10)
  else none

namespace BufObj

/-- The variables of the loop over the digits of `hex`. -/
structure HexState where
  cur : UInt8
  validCount : ℕ
  data : List UInt8
  byteLen : ℤ
  deriving DecidableEq, Repr

def hexByte (st : HexState) (byte : UInt8) : Option HexState :=
  match hexDigit byte with
  | none => some st
  | some digit =>
    if (st.validCount + 1) % 2 = 1 then
      some { st with cur := digit <<< 4, validCount := st.validCount + 1 }
    else
      (Block.store st.data st.byteLen (st.cur ||| digit)).map fun data =>
        { cur := st.cur ||| digit, validCount := st.validCount + 1, data := data
          byteLen := int32 (st.byteLen + 1) }

/-- The length that `buffer_init` goes on with, unless it raises. -/
def initLength (length : ℤ) (raw hex : Option (List UInt8)) : Option ℤ :=
  if raw = none ∧ hex = none ∧ length < 0 then none
  else if length < 0 then hex.map fun hex => ((codepointLen hex / 2 : ℕ) : ℤ)
  else some length

/-- `buffer_init`, with the bytes that `raw` points to. A buffer is only made if it does not
raise. -/
def init (length : ℤ) (raw hex : Option (List UInt8)) : Option (Option BufObj) :=
  match initLength length raw hex with
  | none => some none
  | some length =>
    if length = 0 then
      some (some { data := byteAlloc emptyBufferAlloc, byteLen := 0, allocLen := emptyBufferAlloc })
    else
      let alloc := roundUpToPowerOf2 length.toNat
      match raw, hex with
      | some _, some _ => some none
      | some raw, none => do
        let data ← Block.copy (byteAlloc alloc) 0 raw 0 length
        some (some { data := data, byteLen := int32 length, allocLen := int32 alloc })
      | none, some hex => do
        let st ← hex.foldlM hexByte
          { cur := 0, validCount := 0, data := byteAlloc alloc, byteLen := 0 }
        some (some { data := st.data, byteLen := st.byteLen, allocLen := int32 alloc })
      | none, none =>
        some (some { data := byteAlloc alloc, byteLen := int32 length, allocLen := int32 alloc })

/-- `n00b_buffer_resize`. -/
def resize (b : BufObj) (newSz : ℕ) : Option BufObj :=
  if (newSz : ℤ).bmod (2 ^ 64) ≤ b.allocLen then some { b with byteLen := int32 newSz }
  else do
    let newAllocSz := roundUpToPowerOf2 newSz
    let data ← Block.copy (byteAlloc newAllocSz) 0 b.data 0 b.byteLen
    some { data := data, byteLen := int32 newSz, allocLen := int32 newAllocSz }

/-- `buffer_set_index`. -/
def setIndex (b : BufObj) (n : ℤ) (c : UInt8) : Option BufObj :=
  let ix := if n < 0 then n + b.byteLen else n
  if ix < 0 ∨ b.byteLen ≤ ix then some b
  else (Block.store b.data ix c).map fun data => { b with data := data }

/-- The range of a slice of `len` bytes, unless it is out of bounds. -/
def sliceRange (len start stop : ℤ) : Option (ℤ × ℤ) :=
  let first := if start < 0 then start + len else start
  let last := if stop < 0 then stop + len + 1 else min stop len
  if len ≤ start ∨ first < 0 ∨ last < 0 ∨ last ≤ first then none else some (first, last)

/-- `buffer_get_slice`. -/
def getSlice (b : BufObj) (start stop : ℤ) : Option (Option BufObj) :=
  match sliceRange b.byteLen start stop with
  | none => init 0 none none
  | some (first, last) => do
    let result ← init (last - first) none none
    match result with
    | none => some none
    | some result => do
      let data ← Block.copy result.data 0 b.data first (last - first)
      some (some { result with data := data })

/-- `buffer_set_slice`, with another buffer, or the same, or none. -/
def setSlice (b : BufObj) (start stop : ℤ) (val : Option BufObj) : Option BufObj :=
  match sliceRange b.byteLen start stop with
  | none => some b
  | some (first, last) =>
    let replaceLen := val.elim 0 byteLen
    let bytes := val.elim [] data
    let newLen := b.byteLen - (last - first) + replaceLen
    if newLen < b.byteLen then do
      let data ← Block.copy b.data first bytes 0 replaceLen
      let data ← Block.copyApart data (first + replaceLen) last (b.byteLen - last)
      some { b with data := data, byteLen := int32 newLen }
    else do
      let newBuf := byteAlloc newLen.toNat
      let newBuf ← Block.copy newBuf 0 b.data 0 first
      let newBuf ← Block.copy newBuf first bytes 0 replaceLen
      let newBuf ← Block.copy newBuf (first + replaceLen) b.data last (b.byteLen - last)
      some { b with data := newBuf, byteLen := int32 newLen }

def contents (b : BufObj) : List UInt8 := b.data.take b.byteLen.toNat

end BufObj

/-- What is done, to the buffers at some places. -/
inductive BufOp where
  | create (length : ℤ) (raw hex : Option (List UInt8))
  | resize (k newSz : ℕ)
  | setIndex (k : ℕ) (n : ℤ) (c : UInt8)
  | setSlice (k : ℕ) (start stop : ℤ) (val : Option ℕ)
  | getSlice (k : ℕ) (start stop : ℤ)
  deriving DecidableEq, Repr

/-- The buffer at the place that is given for `val`. -/
def valAt (s : List BufObj) : Option ℕ → Option (Option BufObj)
  | none => some none
  | some j => s[j]?.map some

def bufStep (s : List BufObj) : BufOp → Option (List BufObj)
  | .create length raw hex => do
    let b ← BufObj.init length raw hex
    some (s ++ b.toList)
  | .resize k newSz => do
    let b ← s[k]?
    let b ← b.resize newSz
    some (s.set k b)
  | .setIndex k n c => do
    let b ← s[k]?
    let b ← b.setIndex n c
    some (s.set k b)
  | .setSlice k start stop val => do
    let b ← s[k]?
    let val ← valAt s val
    let b ← b.setSlice start stop val
    some (s.set k b)
  | .getSlice k start stop => do
    let b ← s[k]?
    let r ← b.getSlice start stop
    some (s ++ r.toList)

end N00b.Adts
