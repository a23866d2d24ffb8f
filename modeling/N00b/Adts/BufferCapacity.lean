import N00b.Adts.Buffer

/-!
# The capacity of a buffer

A buffer has the bytes it says it has room for as long as no slice is replaced by one that needs
another block: the new block is as large as the new contents, and the record is left as it was. What
moves down in the same block must not overlap the place it goes to, and sizes must fit in 32 bits.

## Main results

- `Inv.setSlice`: what a slice assignment does to the bytes.
- `buffers_hold`: in every run of operations that meet the condition, every buffer has the bytes it
  says.
-/

namespace N00b.Adts

open N00b.Lib

/-- What the fields of a buffer should say about its bytes. -/
structure BufObj.Valid (b : BufObj) : Prop where
  le_alloc : b.byteLen ≤ b.allocLen
  le_data : b.allocLen ≤ b.data.length

namespace BufObj

/-- What the operations keep. -/
structure Inv (b : BufObj) : Prop extends b.Valid where
  nonneg : 0 ≤ b.byteLen
  small : b.allocLen ≤ 2 ^ 30

variable {b v : BufObj}

/-! ## New buffers -/

theorem length_byteAlloc (n : ℕ) : (byteAlloc n).length = calculateAllocLen n := List.length_replicate

/-- Rounding up does not make a number smaller. -/
theorem le_roundUpToPowerOf2 {n : ℕ} (h : n < 2 ^ 63) : n ≤ roundUpToPowerOf2 n := by
  rw [roundUpToPowerOf2]
  split
  · exact le_rfl
  · rename_i hand
    have hn : n ≠ 0 := by
      rintro rfl
      exact hand rfl
    have hlog : n.log2 < 63 := (Nat.log2_lt hn).mpr h
    have hlt : n < 2 ^ (n.log2 + 1) := (Nat.log2_lt hn).mp (Nat.lt_succ_self _)
    rw [Nat.shiftRight_eq_div_pow, Nat.pow_div (by omega) (by decide),
      show 63 - (63 - n.log2 - 1) = n.log2 + 1 by omega]
    exact hlt.le

/-- Rounding up a number of at most 2^30 gives at most 2^30. -/
theorem roundUpToPowerOf2_le {n : ℕ} (h : n ≤ 2 ^ 30) : roundUpToPowerOf2 n ≤ 2 ^ 30 := by
  rw [roundUpToPowerOf2]
  split
  · exact h
  · rename_i hand
    have hn : n ≠ 0 := by
      rintro rfl
      exact hand rfl
    have hne : n ≠ 2 ^ 30 := by
      rintro rfl
      exact hand (by decide)
    have hlog : n.log2 < 30 := (Nat.log2_lt hn).mpr (by omega)
    rw [Nat.shiftRight_eq_div_pow, Nat.pow_div (by omega) (by decide)]
    exact Nat.pow_le_pow_right (by decide) (by omega)

/-- A buffer with the bytes of its rounded length meets the invariant. -/
theorem inv_made {n : ℕ} (hn : n ≤ 2 ^ 30) {data : List UInt8}
    (hdata : data.length = calculateAllocLen (roundUpToPowerOf2 n)) {byteLen : ℤ} (h₀ : 0 ≤ byteLen)
    (hle : byteLen ≤ roundUpToPowerOf2 n) :
    Inv { data := data, byteLen := byteLen, allocLen := int32 (roundUpToPowerOf2 n) } := by
  have hsmall := roundUpToPowerOf2_le hn
  have halloc := le_calculateAllocLen (roundUpToPowerOf2 n)
  have hint : int32 (roundUpToPowerOf2 n) = roundUpToPowerOf2 n :=
    int32_of_lt (by omega) (by omega)
  rw [hint]
  refine ⟨⟨hle, ?_⟩, h₀, ?_⟩
  · show (roundUpToPowerOf2 n : ℤ) ≤ data.length
    omega
  · show (roundUpToPowerOf2 n : ℤ) ≤ 2 ^ 30
    omega

def hexDigits (s : List UInt8) : ℕ := s.countP fun byte => (hexDigit byte).isSome

/-- A text has at most as many hex digits as codepoints. -/
theorem hexDigits_le (s : List UInt8) : hexDigits s ≤ codepointLen s := by
  refine List.countP_mono_left fun byte _ h => ?_
  rw [decide_eq_true_iff]
  simp only [hexDigit] at h
  split at h
  · omega
  · split at h
    · omega
    · split at h
      · omega
      · cases h

/-- One byte of a hex text is stored where there is room. -/
theorem hexByte_spec (st : HexState) (byte : UInt8) (hlen : st.byteLen = (st.validCount / 2 : ℕ))
    (hroom : (st.validCount + hexDigits [byte]) / 2 ≤ st.data.length)
    (hsmall : (st.validCount + hexDigits [byte]) / 2 < 2 ^ 31) :
    ∃ st', hexByte st byte = some st' ∧ st'.data.length = st.data.length ∧
      st'.validCount = st.validCount + hexDigits [byte] ∧
      st'.byteLen = (st'.validCount / 2 : ℕ) := by
  rcases hd : hexDigit byte with _ | digit
  · have hcount : hexDigits [byte] = 0 := by simp [hexDigits, hd]
    exact ⟨st, by rw [hexByte, hd], rfl, by rw [hcount]; rfl, hlen⟩
  · have hcount : hexDigits [byte] = 1 := by simp [hexDigits, hd]
    rw [hcount] at hroom hsmall ⊢
    by_cases hodd : (st.validCount + 1) % 2 = 1
    · have hsame : st.byteLen = ((st.validCount + 1) / 2 : ℕ) := by omega
      have hres : hexByte st byte = some { st with
          cur := digit <<< 4
          validCount := st.validCount + 1 } := by
        simp only [hexByte, hd, if_pos hodd]
      exact ⟨_, hres, rfl, rfl, hsame⟩
    · have hnext : int32 (st.byteLen + 1) = ((st.validCount + 1) / 2 : ℕ) := by
        rw [int32_of_lt (by omega) (by omega)]
        omega
      have hstore := Block.store_of_lt (b := st.data) (i := st.byteLen) (by omega) (by omega)
        (st.cur ||| digit)
      have hres : hexByte st byte = some
          { cur := st.cur ||| digit
            validCount := st.validCount + 1
            data := st.data.set st.byteLen.toNat (st.cur ||| digit)
            byteLen := int32 (st.byteLen + 1) } := by
        simp only [hexByte, hd, if_neg hodd, hstore, Option.map_some]
      exact ⟨_, hres, List.length_set, rfl, hnext⟩

/-- A hex text is stored where there is room. -/
theorem hexLoop_spec (hex : List UInt8) (st : HexState)
    (hlen : st.byteLen = (st.validCount / 2 : ℕ))
    (hroom : (st.validCount + hexDigits hex) / 2 ≤ st.data.length)
    (hsmall : (st.validCount + hexDigits hex) / 2 < 2 ^ 31) :
    ∃ st', hex.foldlM hexByte st = some st' ∧ st'.data.length = st.data.length ∧
      st'.byteLen = ((st.validCount + hexDigits hex) / 2 : ℕ) := by
  induction hex generalizing st with
  | nil => exact ⟨st, rfl, rfl, hlen⟩
  | cons byte hex ih =>
    have hcount : hexDigits (byte :: hex) = hexDigits [byte] + hexDigits hex := by
      rw [hexDigits, hexDigits, hexDigits, ← List.countP_append]
      rfl
    rw [hcount] at hroom hsmall ⊢
    obtain ⟨st₁, hst₁, hdata, hvalid, hlen₁⟩ := hexByte_spec st byte hlen (by omega) (by omega)
    obtain ⟨st₂, hst₂, hdata₂, hlen₂⟩ := ih st₁ hlen₁ (by omega) (by omega)
    refine ⟨st₂, by rw [List.foldlM_cons, hst₁, Option.bind_eq_bind, Option.bind_some, hst₂],
      hdata₂.trans hdata, ?_⟩
    rw [hlen₂, hvalid, Nat.add_assoc]

/-- What is asked of the arguments of a new buffer. -/
def CreateFits (length : ℤ) (raw hex : Option (List UInt8)) : Prop :=
  length ≤ 2 ^ 30 ∧ (∀ bytes ∈ raw, length ≤ bytes.length) ∧
    (raw = none → ∀ s ∈ hex, s.length < 2 ^ 31 ∧
      (0 < length → hexDigits s / 2 ≤ roundUpToPowerOf2 length.toNat))

/-- The empty buffer meets the invariant. -/
theorem inv_empty : Inv { data := byteAlloc emptyBufferAlloc, byteLen := 0
                          allocLen := emptyBufferAlloc } := by
  refine ⟨⟨by decide, ?_⟩, le_rfl, by decide⟩
  rw [length_byteAlloc]
  decide

/-- The length of a new buffer is the one given or the one its hex text needs. -/
theorem initLength_spec {length n : ℤ} {raw hex : Option (List UInt8)}
    (h : initLength length raw hex = some n) :
    0 ≤ n ∧ (0 ≤ length → n = length) ∧
      (length < 0 → ∃ s, hex = some s ∧ n = (codepointLen s / 2 : ℕ)) := by
  rw [initLength] at h
  obtain ⟨_, h⟩ := Option.ite_none_left_eq_some.mp h
  by_cases hneg : length < 0
  · rw [if_pos hneg] at h
    obtain ⟨s, hs, rfl⟩ := Option.map_eq_some_iff.mp h
    exact ⟨by omega, fun h => by omega, fun _ => ⟨s, hs, rfl⟩⟩
  · rw [if_neg hneg] at h
    cases h
    exact ⟨by omega, fun _ => rfl, fun h => absurd h hneg⟩

/-- A buffer that fits is created with the invariant. -/
theorem init_inv (length : ℤ) (raw hex : Option (List UInt8)) (h : CreateFits length raw hex) :
    ∃ r, init length raw hex = some r ∧ ∀ b ∈ r, Inv b := by
  obtain ⟨hlen, hraw, hhex⟩ := h
  rw [init]
  rcases hinit : initLength length raw hex with _ | n
  · exact ⟨none, rfl, by simp⟩
  obtain ⟨h₀, hsame, hcount⟩ := initLength_spec hinit
  by_cases hzero : n = 0
  · simp only [if_pos hzero]
    exact ⟨_, rfl, by rintro b ⟨⟩; exact inv_empty⟩
  obtain ⟨m, rfl⟩ := Int.eq_ofNat_of_zero_le h₀
  simp only [if_neg hzero, Int.toNat_natCast]
  have hle : m ≤ 2 ^ 30 → m ≤ roundUpToPowerOf2 m := fun hm => le_roundUpToPowerOf2 (by omega)
  have halloc := le_calculateAllocLen (roundUpToPowerOf2 m)
  have hdata := length_byteAlloc (roundUpToPowerOf2 m)
  rcases raw with _ | bytes <;> rcases hex with _ | s
  · -- a length
    have hm : m ≤ 2 ^ 30 := by
      by_cases hneg : length < 0
      · obtain ⟨s, hs, _⟩ := hcount hneg
        cases hs
      · have := hsame (by omega)
        omega
    have hint : int32 (m : ℤ) = m := int32_of_lt (by omega) (by omega)
    refine ⟨some _, rfl, ?_⟩
    rintro b ⟨⟩
    rw [hint]
    exact inv_made hm hdata (by omega) (by have := hle hm; omega)
  · -- digits
    obtain ⟨hs, hroom⟩ := hhex rfl s rfl
    have hdigits := hexDigits_le s
    have hpoints : codepointLen s ≤ s.length := List.countP_le_length
    have hm : m ≤ 2 ^ 30 ∧ hexDigits s / 2 ≤ roundUpToPowerOf2 m := by
      by_cases hneg : length < 0
      · obtain ⟨s', hs', hm⟩ := hcount hneg
        cases hs'
        have hm : m = codepointLen s / 2 := by omega
        have := hle (by omega)
        exact ⟨by omega, by omega⟩
      · have hm := hsame (by omega)
        have hm' : length.toNat = m := by rw [← hm, Int.toNat_natCast]
        rw [hm'] at hroom
        clear hcount
        exact ⟨by omega, hroom (by omega)⟩
    obtain ⟨st, hst, hlen', hbytes⟩ := hexLoop_spec s
      { cur := 0, validCount := 0, data := byteAlloc (roundUpToPowerOf2 m), byteLen := 0 }
      (by simp) (by rw [hdata, Nat.zero_add]; omega) (by rw [Nat.zero_add]; omega)
    dsimp only
    rw [hst, Option.bind_eq_bind, Option.bind_some]
    refine ⟨some _, rfl, ?_⟩
    rintro b ⟨⟩
    rw [Nat.zero_add] at hbytes
    exact inv_made hm.1 (hlen'.trans hdata) (by omega) (by omega)
  · -- bytes
    have hm : (m : ℤ) = length := by
      by_cases hneg : length < 0
      · obtain ⟨s, hs, _⟩ := hcount hneg
        cases hs
      · exact hsame (by omega)
    have hint : int32 (m : ℤ) = m := int32_of_lt (by omega) (by omega)
    have hle := hle (by omega)
    have hbytes := hraw bytes rfl
    have hcopy := Block.copy_of_le (byteAlloc (roundUpToPowerOf2 m)) bytes 0 0 m
      (by rw [hdata]; omega) (by omega)
    rw [Nat.cast_zero] at hcopy
    dsimp only
    rw [hcopy, Option.bind_eq_bind, Option.bind_some, hint]
    refine ⟨some _, rfl, ?_⟩
    rintro b ⟨⟩
    exact inv_made (by omega) ((Block.length_copy hcopy).trans hdata) (by omega) (by omega)
  · exact ⟨none, rfl, by simp⟩

/-! ## Sizes and bytes -/

/-- Resizing to at most 2^30 bytes keeps the invariant. -/
theorem Inv.resize (hb : Inv b) {newSz : ℕ} (h : newSz ≤ 2 ^ 30) :
    ∃ b', b.resize newSz = some b' ∧ Inv b' := by
  have hmod : (newSz : ℤ).bmod (2 ^ 64) = newSz := by
    rw [Int.bmod_eq_of_le]
    all_goals omega
  have hint : int32 newSz = newSz := int32_of_lt (by omega) (by omega)
  by_cases hle : (newSz : ℤ) ≤ b.allocLen
  · refine ⟨{ b with byteLen := newSz }, ?_, ⟨⟨hle, hb.le_data⟩, ?_, hb.small⟩⟩
    · rw [BufObj.resize, hmod, if_pos hle, hint]
    · exact Int.natCast_nonneg newSz
  · have hnonneg := hb.nonneg
    have halloc := hb.le_alloc
    have hdata := hb.le_data
    have hround := le_roundUpToPowerOf2 (n := newSz) (by omega)
    have hbytes := le_calculateAllocLen (roundUpToPowerOf2 newSz)
    have hlen := length_byteAlloc (roundUpToPowerOf2 newSz)
    obtain ⟨m, hm⟩ := Int.eq_ofNat_of_zero_le hnonneg
    have hcopy := Block.copy_of_le (byteAlloc (roundUpToPowerOf2 newSz)) b.data 0 0 m
      (by omega) (by omega)
    rw [Nat.cast_zero] at hcopy
    have hres : b.resize newSz = some
        { data := Block.splice (byteAlloc (roundUpToPowerOf2 newSz)) 0 ((b.data.drop 0).take m)
          byteLen := newSz
          allocLen := int32 (roundUpToPowerOf2 newSz) } := by
      simp only [BufObj.resize, hmod, if_neg hle, hm, hcopy, hint, Option.bind_eq_bind,
        Option.bind_some]
    exact ⟨_, hres, inv_made h ((Block.length_copy hcopy).trans hlen) (by omega) (by omega)⟩

/-- Setting a byte keeps the invariant. -/
theorem Inv.setIndex (hb : Inv b) (n : ℤ) (c : UInt8) :
    ∃ b', b.setIndex n c = some b' ∧ Inv b' := by
  obtain ⟨ix, hix⟩ : ∃ ix, ix = if n < 0 then n + b.byteLen else n := ⟨_, rfl⟩
  simp only [BufObj.setIndex, ← hix]
  by_cases hout : ix < 0 ∨ b.byteLen ≤ ix
  · exact ⟨b, by rw [if_pos hout], hb⟩
  · have halloc := hb.le_alloc
    have hdata := hb.le_data
    rw [if_neg hout, Block.store_of_lt (by omega) (by omega), Option.map_some]
    exact ⟨_, rfl, ⟨hb.le_alloc, by rw [List.length_set]; exact hb.le_data⟩, hb.nonneg, hb.small⟩

/-! ## Slices -/

/-- A non-empty slice lies within the buffer. -/
theorem sliceRange_bounds {len start stop : ℤ} {r : ℤ × ℤ}
    (h : sliceRange len start stop = some r) : 0 ≤ r.1 ∧ r.1 < r.2 ∧ r.2 ≤ len := by
  rw [sliceRange] at h
  obtain ⟨_, hr⟩ := Option.ite_none_left_eq_some.mp h
  rw [← Option.some.inj hr]
  refine ⟨?_, ?_, ?_⟩
  · omega
  · omega
  · show (if stop < 0 then stop + len + 1 else min stop len) ≤ len
    split <;> omega

/-- A buffer created with a length has that length. -/
theorem init_length {n : ℕ} (h₀ : 0 < n) (h : n ≤ 2 ^ 30) : init n none none = some (some
    { data := byteAlloc (roundUpToPowerOf2 n), byteLen := n
      allocLen := int32 (roundUpToPowerOf2 n) }) := by
  have hinit : initLength n none none = some (n : ℤ) := by
    rw [initLength, if_neg (by omega), if_neg (by omega)]
  have hint : int32 n = n := int32_of_lt (by omega) (by omega)
  simp only [init, hinit, if_neg (show ¬ (n : ℤ) = 0 by omega), Int.toNat_natCast, hint]

/-- A slice is a buffer with the invariant. -/
theorem Inv.getSlice (hb : Inv b) (start stop : ℤ) :
    ∃ r, b.getSlice start stop = some r ∧ ∀ b' ∈ r, Inv b' := by
  rcases hr : sliceRange b.byteLen start stop with _ | ⟨first, last⟩
  · obtain ⟨r, hr', hinv⟩ := init_inv 0 none none
      ⟨by decide, by simp, by simp⟩
    exact ⟨r, by simp only [BufObj.getSlice, hr, hr'], hinv⟩
  · obtain ⟨hfirst, hlt, hlast⟩ := sliceRange_bounds hr
    simp only at hfirst hlt hlast
    have halloc := hb.le_alloc
    have hdata := hb.le_data
    have hsmall := hb.small
    obtain ⟨f, rfl⟩ := Int.eq_ofNat_of_zero_le hfirst
    obtain ⟨n, hn⟩ := Int.eq_ofNat_of_zero_le (show 0 ≤ last - f by omega)
    have hround := le_roundUpToPowerOf2 (n := n) (by omega)
    have hbytes := le_calculateAllocLen (roundUpToPowerOf2 n)
    have hlen := length_byteAlloc (roundUpToPowerOf2 n)
    have hcopy := Block.copy_of_le (byteAlloc (roundUpToPowerOf2 n)) b.data 0 f n
      (by omega) (by omega)
    rw [Nat.cast_zero] at hcopy
    have hres : b.getSlice start stop = some (some
        { data := Block.splice (byteAlloc (roundUpToPowerOf2 n)) 0 ((b.data.drop f).take n)
          byteLen := n
          allocLen := int32 (roundUpToPowerOf2 n) }) := by
      simp only [BufObj.getSlice, hr, hn, init_length (show 0 < n by omega) (by omega), hcopy,
        Option.bind_eq_bind, Option.bind_some]
    refine ⟨_, hres, ?_⟩
    rintro b' ⟨⟩
    exact inv_made (by omega) ((Block.length_copy hcopy).trans hlen) (by omega) (by omega)

/-- The condition under which a slice assignment keeps to the room of a buffer: what is behind the
slice moves to a place that it does not overlap, or the new block has the size of the old one. -/
def SliceFits (b : BufObj) (start stop : ℤ) (val : Option BufObj) : Prop :=
  ∀ r, sliceRange b.byteLen start stop = some r →
    if b.byteLen - (r.2 - r.1) + val.elim 0 byteLen < b.byteLen then
      r.2 = b.byteLen ∨ b.byteLen - r.2 ≤ r.2 - r.1 - val.elim 0 byteLen
    else b.byteLen - (r.2 - r.1) + val.elim 0 byteLen ≤ b.allocLen ∧
      b.allocLen ≤ calculateAllocLen (b.byteLen - (r.2 - r.1) + val.elim 0 byteLen).toNat

/-- A shorter value replaces a slice in place. -/
theorem shrink (data bytes : List UInt8) {c f e n : ℕ} (hfe : f + n ≤ e) (hec : e ≤ c)
    (hc : c ≤ data.length) (hn : n ≤ bytes.length) (h : e = c ∨ f + n + (c - e) ≤ e) :
    ∃ d₁ d₂, Block.copy data f bytes 0 n = some d₁ ∧
      Block.copyApart d₁ (f + n : ℕ) e (c - e : ℕ) = some d₂ ∧ d₂.length = data.length ∧
      d₂.take (f + n + (c - e)) = data.take f ++ bytes.take n ++ (data.take c).drop e := by
  have hlen : (bytes.take n).length = n := by
    rw [List.length_take]
    omega
  have h₁ := Block.copy_of_le data bytes f 0 n (by omega) (by omega)
  rw [Nat.cast_zero, List.drop_zero] at h₁
  have hlen₁ := Block.length_copy h₁
  have h₂ := Block.copy_of_le (Block.splice data f (bytes.take n)) (Block.splice data f (bytes.take n))
    (f + n) e (c - e) (by omega) (by omega)
  rw [Block.drop_splice (by omega) (by omega), ← List.drop_take] at h₂
  refine ⟨_, _, h₁, by rw [Block.copyApart, if_pos (by omega), h₂], ?_, ?_⟩
  · rw [Block.length_copy h₂, hlen₁]
  · have hw : ((data.take c).drop e).length = c - e := by
      rw [List.length_drop, List.length_take]
      omega
    have htake := Block.take_splice_splice (b := data) (v := bytes.take n)
      (w := (data.take c).drop e) (d := f) (by omega)
    rwa [hlen, hw] at htake

/-- A longer value replaces a slice in a new block. -/
theorem regrow (data bytes : List UInt8) {c f e n : ℕ} (hfe : f ≤ e) (hec : e ≤ c)
    (hc : c ≤ data.length) (hn : n ≤ bytes.length) :
    ∃ d₁ d₂ d₃, Block.copy (byteAlloc (f + n + (c - e))) 0 data 0 f = some d₁ ∧
      Block.copy d₁ f bytes 0 n = some d₂ ∧
      Block.copy d₂ (f + n : ℕ) data e (c - e : ℕ) = some d₃ ∧
      d₃.length = calculateAllocLen (f + n + (c - e)) ∧
      d₃.take (f + n + (c - e)) = data.take f ++ bytes.take n ++ (data.take c).drop e := by
  have hroom := le_calculateAllocLen (f + n + (c - e))
  have hnew := length_byteAlloc (f + n + (c - e))
  have hlen : (bytes.take n).length = n := by
    rw [List.length_take]
    omega
  have hpre : (data.take f).length = f := by
    rw [List.length_take]
    omega
  have h₁ := Block.copy_of_le (byteAlloc (f + n + (c - e))) data 0 0 f (by omega) (by omega)
  rw [Nat.cast_zero, List.drop_zero] at h₁
  have hlen₁ := Block.length_copy h₁
  have h₂ := Block.copy_of_le (Block.splice (byteAlloc (f + n + (c - e))) 0 (data.take f)) bytes f 0 n
    (by omega) (by omega)
  rw [Nat.cast_zero, List.drop_zero] at h₂
  have hlen₂ := Block.length_copy h₂
  have h₃ := Block.copy_of_le (Block.splice (Block.splice (byteAlloc (f + n + (c - e))) 0 (data.take f))
    f (bytes.take n)) data (f + n) e (c - e) (by omega) (by omega)
  rw [← List.drop_take] at h₃
  refine ⟨_, _, _, h₁, h₂, h₃, by rw [Block.length_copy h₃, hlen₂, hlen₁, hnew], ?_⟩
  have hw : ((data.take c).drop e).length = c - e := by
    rw [List.length_drop, List.length_take]
    omega
  have htake := Block.take_splice_splice
    (b := Block.splice (byteAlloc (f + n + (c - e))) 0 (data.take f)) (v := bytes.take n)
    (w := (data.take c).drop e) (d := f) (by omega)
  have hfirst := Block.take_splice (byteAlloc (f + n + (c - e))) (data.take f) (Nat.zero_le _)
  rw [hpre, Nat.zero_add, List.take_zero, List.nil_append] at hfirst
  rwa [hlen, hw, hfirst] at htake

/-- The value of a slice gives the bytes it contains. -/
theorem val_bytes {val : Option BufObj} (hval : ∀ v ∈ val, Inv v) :
    ∃ n : ℕ, val.elim 0 byteLen = n ∧ n ≤ (val.elim [] data).length ∧
      val.elim [] contents = (val.elim [] data).take n := by
  rcases val with _ | v
  · exact ⟨0, rfl, le_rfl, rfl⟩
  · have hv := hval v rfl
    have halloc := hv.le_alloc
    have hdata := hv.le_data
    obtain ⟨n, hn⟩ := Int.eq_ofNat_of_zero_le hv.nonneg
    refine ⟨n, hn, ?_, ?_⟩
    · show n ≤ v.data.length
      omega
    · show v.data.take v.byteLen.toNat = v.data.take n
      rw [hn, Int.toNat_natCast]

/-- Replacing a slice keeps the invariant and gives the contents with the value in its place. -/
theorem Inv.setSlice (hb : Inv b) (start stop : ℤ) (val : Option BufObj) (hval : ∀ v ∈ val, Inv v)
    (h : b.SliceFits start stop val) : ∃ b', b.setSlice start stop val = some b' ∧ Inv b' ∧
      ∀ r, sliceRange b.byteLen start stop = some r → b'.contents =
        b.contents.take r.1.toNat ++ val.elim [] contents ++ b.contents.drop r.2.toNat := by
  rcases hr : sliceRange b.byteLen start stop with _ | ⟨first, last⟩
  · exact ⟨b, by simp only [BufObj.setSlice, hr], hb, fun r hr => by cases hr⟩
  obtain ⟨hfirst, hlt, hlast⟩ := sliceRange_bounds hr
  have hfit := h _ hr
  simp only at hfirst hlt hlast hfit
  have halloc := hb.le_alloc
  have hdata := hb.le_data
  have hsmall := hb.small
  obtain ⟨n, hn, hbytes, hcontents⟩ := val_bytes hval
  obtain ⟨c, hc⟩ := Int.eq_ofNat_of_zero_le hb.nonneg
  obtain ⟨f, rfl⟩ := Int.eq_ofNat_of_zero_le hfirst
  obtain ⟨e, rfl⟩ := Int.eq_ofNat_of_zero_le (show 0 ≤ last by omega)
  rw [hn, hc] at hfit
  rw [hc] at hr
  have hnew : (c : ℤ) - (e - f) + n = (f + n + (c - e) : ℕ) := by omega
  have hrest : (c : ℤ) - e = (c - e : ℕ) := by omega
  have hdst : (f : ℤ) + n = (f + n : ℕ) := by omega
  have hpre : b.contents.take f = b.data.take f := by
    rw [contents, hc, Int.toNat_natCast, List.take_take, Nat.min_eq_left (by omega)]
  have hsuf : b.contents.drop e = (b.data.take c).drop e := by
    rw [contents, hc, Int.toNat_natCast]
  rw [hnew] at hfit
  -- what is left to show of either block
  suffices hblock : ∃ d, d.take (f + n + (c - e)) =
        b.data.take f ++ (val.elim [] data).take n ++ (b.data.take c).drop e ∧
      ((f + n + (c - e) : ℕ) : ℤ) ≤ b.allocLen ∧ b.allocLen ≤ d.length ∧
      b.setSlice start stop val = some { b with
        data := d
        byteLen := int32 (f + n + (c - e) : ℕ) } by
    obtain ⟨d, htake, hle, hroom, hres⟩ := hblock
    have hint : int32 (f + n + (c - e) : ℕ) = (f + n + (c - e) : ℕ) :=
      int32_of_lt (by omega) (by omega)
    rw [hint] at hres
    refine ⟨_, hres, ⟨⟨hle, hroom⟩, Int.natCast_nonneg _, hb.small⟩, ?_⟩
    rintro r ⟨⟩
    show d.take (((f + n + (c - e) : ℕ) : ℤ)).toNat = b.contents.take (f : ℤ).toNat ++ _ ++
      b.contents.drop (e : ℤ).toNat
    rw [Int.toNat_natCast, Int.toNat_natCast, Int.toNat_natCast, htake, hpre, hsuf, hcontents]
  by_cases hshrink : ((f + n + (c - e) : ℕ) : ℤ) < c
  · rw [if_pos hshrink] at hfit
    obtain ⟨d₁, d₂, h₁, h₂, hlen, htake⟩ := shrink b.data (val.elim [] data)
      (c := c) (f := f) (e := e) (n := n) (by omega) (by omega) (by omega) hbytes (by omega)
    refine ⟨d₂, htake, by omega, by omega, ?_⟩
    simp only [BufObj.setSlice, hr, hn, hc, hnew, if_pos hshrink, hrest, hdst, h₁, h₂,
      Option.bind_eq_bind, Option.bind_some]
  · rw [if_neg hshrink] at hfit
    obtain ⟨d₁, d₂, d₃, h₁, h₂, h₃, hlen, htake⟩ := regrow b.data
      (val.elim [] data) (c := c) (f := f) (e := e) (n := n) (by omega) (by omega)
      (by omega) hbytes
    rw [Int.toNat_natCast] at hfit
    refine ⟨d₃, htake, hfit.1, by omega, ?_⟩
    simp only [BufObj.setSlice, hr, hn, hc, hnew, if_neg hshrink, hrest, hdst, h₁, h₂, h₃,
      Int.toNat_natCast, Option.bind_eq_bind, Option.bind_some]

end BufObj

/-! ## Runs -/

/-- What is asked of an operation: that its buffers are there, and the bytes that `raw` points to.
-/
def BufAsked (s : List BufObj) : BufOp → Prop
  | .create length raw _ => ∀ bytes ∈ raw, length ≤ bytes.length
  | .resize k newSz => (∃ b, s[k]? = some b) ∧ newSz < 2 ^ 64
  | .setIndex k _ _ | .getSlice k _ _ => ∃ b, s[k]? = some b
  | .setSlice k _ _ val => ∃ b v, s[k]? = some b ∧ valAt s val = some v

/-- The condition under which the buffers keep to their bytes. -/
def BufFits (s : List BufObj) : BufOp → Prop
  | .create length raw hex => BufObj.CreateFits length raw hex
  | .resize k newSz => (∃ b, s[k]? = some b) ∧ newSz ≤ 2 ^ 30
  | .setIndex k _ _ | .getSlice k _ _ => ∃ b, s[k]? = some b
  | .setSlice k start stop val =>
    ∃ b v, s[k]? = some b ∧ valAt s val = some v ∧ b.SliceFits start stop v

/-- What an operation does to the contents: those of a slice assignment. -/
def SliceReplaced (s s' : List BufObj) : BufOp → Prop
  | .setSlice k start stop val => ∀ b v r, s[k]? = some b → valAt s val = some v →
    BufObj.sliceRange b.byteLen start stop = some r → ∃ b', s'[k]? = some b' ∧
      b'.contents = b.contents.take r.1.toNat ++ v.elim [] BufObj.contents ++
        b.contents.drop r.2.toNat
  | _ => True

variable {s : List BufObj}

/-- A new buffer keeps the invariants. -/
theorem inv_append {r : Option BufObj} (hs : ∀ b ∈ s, b.Inv) (hr : ∀ b ∈ r, b.Inv) :
    ∀ b ∈ s ++ r.toList, b.Inv := by
  intro b hb
  rcases List.mem_append.mp hb with hb | hb
  · exact hs b hb
  · exact hr b (Option.mem_toList.mp hb)

/-- Changing one buffer to a valid one keeps the invariants. -/
theorem inv_set {b' : BufObj} (hs : ∀ b ∈ s, b.Inv) (k : ℕ) (hb' : b'.Inv) :
    ∀ b ∈ s.set k b', b.Inv := by
  intro b hb
  rcases List.mem_or_eq_of_mem_set hb with hb | rfl
  · exact hs b hb
  · exact hb'

/-- The value taken from the buffers is valid. -/
theorem valAt_inv (hs : ∀ b ∈ s, b.Inv) {val : Option ℕ} {v : Option BufObj}
    (h : valAt s val = some v) : ∀ b ∈ v, b.Inv := by
  rcases val with _ | j
  · cases h
    simp
  · obtain ⟨u, hu, rfl⟩ := Option.map_eq_some_iff.mp h
    rintro b ⟨⟩
    exact hs u (List.mem_of_getElem? hu)

/-- An operation that fits keeps all buffers valid and replaces slices exactly. -/
theorem bufStep_inv (hs : ∀ b ∈ s, b.Inv) (op : BufOp) (h : BufFits s op) :
    ∃ s', bufStep s op = some s' ∧ (∀ b ∈ s', b.Inv) ∧ SliceReplaced s s' op := by
  cases op with
  | create length raw hex =>
    obtain ⟨r, hr, hinv⟩ := BufObj.init_inv length raw hex h
    exact ⟨_, by rw [bufStep, hr]; rfl, inv_append hs hinv, trivial⟩
  | resize k newSz =>
    obtain ⟨⟨b, hk⟩, hle⟩ := h
    obtain ⟨b', hb', hinv⟩ := (hs b (List.mem_of_getElem? hk)).resize hle
    exact ⟨_, by rw [bufStep, hk, Option.bind_eq_bind, Option.bind_some, hb']; rfl,
      inv_set hs k hinv, trivial⟩
  | setIndex k n c =>
    obtain ⟨b, hk⟩ := h
    obtain ⟨b', hb', hinv⟩ := (hs b (List.mem_of_getElem? hk)).setIndex n c
    exact ⟨_, by rw [bufStep, hk, Option.bind_eq_bind, Option.bind_some, hb']; rfl,
      inv_set hs k hinv, trivial⟩
  | setSlice k start stop val =>
    obtain ⟨b, v, hk, hv, hfit⟩ := h
    obtain ⟨b', hb', hinv, hreplaced⟩ :=
      (hs b (List.mem_of_getElem? hk)).setSlice start stop v (valAt_inv hs hv) hfit
    refine ⟨s.set k b', ?_, inv_set hs k hinv, ?_⟩
    · rw [bufStep, hk, Option.bind_eq_bind, Option.bind_some, hv, Option.bind_eq_bind,
        Option.bind_some, hb']
      rfl
    · intro b₁ v₁ r hk₁ hv₁ hr
      rw [hk] at hk₁
      rw [hv] at hv₁
      cases hk₁
      cases hv₁
      have hlt := (List.getElem?_eq_some_iff.mp hk).1
      exact ⟨b', List.getElem?_set_self hlt, hreplaced r hr⟩
  | getSlice k start stop =>
    obtain ⟨b, hk⟩ := h
    obtain ⟨r, hr, hinv⟩ := (hs b (List.mem_of_getElem? hk)).getSlice start stop
    exact ⟨_, by rw [bufStep, hk, Option.bind_eq_bind, Option.bind_some, hr]; rfl,
      inv_append hs hinv, trivial⟩

/-- **Every buffer has the bytes it says**, in every run of operations that meet the condition, and
a slice assignment replaces the slice. -/
theorem buffers_hold (s : List BufObj) (hrun : Run bufStep BufFits [] s) :
    (∀ b ∈ s, b.Valid) ∧
      ∀ op, BufFits s op → ∃ s', bufStep s op = some s' ∧ SliceReplaced s s' op := by
  have hinv : ∀ b ∈ s, b.Inv :=
    hrun.invariant (I := fun t => ∀ b ∈ t, BufObj.Inv b) (by simp) fun t op u ht hfit hstep => by
      obtain ⟨u', hu', hinv, _⟩ := bufStep_inv ht op hfit
      rw [hstep] at hu'
      rwa [Option.some.inj hu']
  refine ⟨fun b hb => (hinv b hb).toValid, fun op hop => ?_⟩
  obtain ⟨s', hs', _, hreplaced⟩ := bufStep_inv hinv op hop
  exact ⟨s', hs', hreplaced⟩

/-- A buffer of four bytes, two of which are replaced by none. -/
theorem buffers_hold_cut : ∃ s', bufStep
    [{ data := [1, 2, 3, 4] ++ List.replicate 12 0, byteLen := 4, allocLen := 4 }]
      (.setSlice 0 1 3 none) = some s' ∧ SliceReplaced
        [{ data := [1, 2, 3, 4] ++ List.replicate 12 0, byteLen := 4, allocLen := 4 }] s'
        (.setSlice 0 1 3 none) := by
  have hcreate : BufFits [] (.create 4 (some [1, 2, 3, 4]) none) :=
    ⟨by decide, by simp, by simp⟩
  have hstep : bufStep [] (.create 4 (some [1, 2, 3, 4]) none) = some
      [{ data := [1, 2, 3, 4] ++ List.replicate 12 0, byteLen := 4, allocLen := 4 }] := by decide
  refine (buffers_hold _ (.tail .refl hcreate hstep)).2 _ ⟨_, _, rfl, rfl, ?_⟩
  rintro r ⟨⟩
  decide

/-- A buffer of 33 bytes, which has room for 64, is replaced by its own contents. The new block has
48 bytes. -/
theorem set_slice_keeps_alloc_len :
    ¬ ∀ s : List BufObj, Run bufStep BufAsked [] s → (∀ b ∈ s, b.Valid) ∧
      ∀ op, BufAsked s op → ∃ s', bufStep s op = some s' ∧ SliceReplaced s s' op := by
  intro h
  have hcreate : bufStep [] (.create 33 none none) = some
      [{ data := List.replicate 64 0, byteLen := 33, allocLen := 64 }] := by decide
  have hslice : bufStep [{ data := List.replicate 64 0, byteLen := 33, allocLen := 64 }]
      (.setSlice 0 0 33 (some 0)) = some
      [{ data := List.replicate 48 0, byteLen := 33, allocLen := 64 }] := by decide
  have hrun : Run bufStep BufAsked []
      [{ data := List.replicate 48 0, byteLen := 33, allocLen := 64 }] :=
    .tail (e := .setSlice 0 0 33 (some 0)) (.tail .refl (by simp [BufAsked]) hcreate)
      ⟨_, _, rfl, rfl⟩ hslice
  have hle := ((h _ hrun).1 _ List.mem_cons_self).le_data
  revert hle
  decide

end N00b.Adts
