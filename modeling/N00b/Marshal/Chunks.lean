import Mathlib
import N00b.Marshal.Pickle

/-!
# The local heaps of a message

`local_heap_alloc` spreads the records of a message over several buffers, and `bundle_result` copies
the buffers back together by the virtual offsets at which they end.

## Main results

* `copied_eq`: the bundled words are the records in the order in which they were opened.
-/

namespace N00b.Marshal

variable {ctx : PickleCtx}

/-! ## Dictionaries -/

/-- After a put its key gives the value and the others what they gave. -/
theorem lookup_dictPut (dict : List (Word × Word)) (key value k : Word) :
    (dictPut dict key value).lookup k = if k = key then some value else dict.lookup k := by
  induction dict with
  | nil => by_cases h : k = key <;> simp [dictPut, h]
  | cons e dict ih =>
    obtain ⟨j, v⟩ := e
    unfold dictPut at ih ⊢
    by_cases hj : j = key
    · subst hj
      rw [List.filter_cons_of_neg (by simp), ih, List.lookup_cons]
      by_cases hk : k = j
      · simp [hk]
      · rw [if_neg hk, if_neg hk, beq_false_of_ne hk]
    · rw [List.filter_cons_of_pos (by simpa using hj), List.cons_append, List.lookup_cons, ih]
      by_cases hk : k = j
      · subst hk
        simp [hj]
      · rw [List.lookup_cons, beq_false_of_ne hk]

@[simp] theorem dictPut_ne_nil (dict : List (Word × Word)) (key value : Word) :
    dictPut dict key value ≠ [] := by
  simp [dictPut]

/-! ## Records -/

namespace PickleCtx

/-- The lengths of the records, which writing to them leaves alone. -/
def lens (ctx : PickleCtx) : List Nat :=
  ctx.records.map List.length

@[simp] theorem lens_writeWord (dst i : Nat) (word : Word) :
    (ctx.writeWord dst i word).lens = ctx.lens := by
  apply List.ext_getElem?
  intro j
  by_cases h : dst = j <;> simp [lens, writeWord, h, Function.comp_def]

/-- Writing a word changes its own record only. -/
theorem getElem?_writeWord (dst i j : Nat) (word : Word) :
    (ctx.writeWord dst i word).records[j]? =
      if dst = j then (ctx.records[j]?).map (·.set i word) else ctx.records[j]? := by
  by_cases h : dst = j <;> simp [writeWord, h]

/-- Writing a header keeps the lengths of the records. -/
theorem lens_writeHeader {dst : Nat} (hdr : RecordHdr)
    (h : ∀ block, ctx.records[dst]? = some block → 6 ≤ block.length) :
    (ctx.writeHeader dst hdr).lens = ctx.lens := by
  apply List.ext_getElem?
  intro j
  by_cases hj : dst = j
  · subst hj
    cases hb : ctx.records[dst]? with
    | none => simp [lens, writeHeader, hb]
    | some block =>
      have := h block hb
      simp [lens, writeHeader, hb]
      omega
  · simp [lens, writeHeader, hj]

/-- A record is as long as the lengths say. -/
theorem length_record (ctx : PickleCtx) (j : Nat) :
    (ctx.record j).length = ctx.lens.getD j 0 := by
  cases h : ctx.records[j]? <;> simp [record, lens, List.getD_eq_getElem?_getD, h]

end PickleCtx

/-! ## Buffers -/

def sizeOfIds (lens : List Nat) (ids : List Nat) : Nat :=
  (ids.map (lens.getD · 0)).sum

@[simp] theorem sizeOfIds_append (lens ids ids' : List Nat) :
    sizeOfIds lens (ids ++ ids') = sizeOfIds lens ids + sizeOfIds lens ids' := by
  simp [sizeOfIds]

/-- All the records together have the size of all. -/
theorem sizeOfIds_range (lens : List Nat) : sizeOfIds lens (List.range lens.length) = lens.sum := by
  unfold sizeOfIds
  congr 1
  apply List.ext_getElem (by simp)
  intro i h₁ h₂
  simp [List.getElem?_eq_getElem h₂]

/-- Each buffer that was filled ends at the virtual offset noted with it. -/
def Ends (lens : List Nat) : Word → List (Buf × Word) → Prop
  | _, [] => True
  | start, (b, stop) :: heaps =>
    stop = start + BitVec.ofNat 64 (8 * sizeOfIds lens b.records) ∧ Ends lens stop heaps

/-- The buffers hold the records of the message in order. -/
structure Chunked (ctx : PickleCtx) : Prop where
  ids : ctx.bufferedHeapInfo.flatMap (·.1.records) ++
    (ctx.currentOutputBuf.map Buf.records).getD [] = List.range ctx.records.length
  ends : Ends ctx.lens ctx.lastOffsetEnd ctx.bufferedHeapInfo
  none : ctx.currentOutputBuf = none → ctx.bufferedHeapInfo = []

/-- The next virtual offset is where the records end. -/
def InSync (ctx : PickleCtx) : Prop :=
  ctx.offset = ctx.lastOffsetEnd + BitVec.ofNat 64 (8 * ctx.lens.sum)

/-- One more buffer that ends where its records do keeps the ends right. -/
theorem Ends.concat {lens : List Nat} {b : Buf} {stop : Word} :
    ∀ {heaps : List (Buf × Word)} {start : Word}, Ends lens start heaps →
      stop = start + BitVec.ofNat 64
        (8 * sizeOfIds lens (heaps.flatMap (·.1.records) ++ b.records)) →
      Ends lens start (heaps ++ [(b, stop)]) := by
  intro heaps
  induction heaps with
  | nil =>
    rintro start - hstop
    exact ⟨by simpa using hstop, trivial⟩
  | cons e heaps ih =>
    obtain ⟨c, s⟩ := e
    rintro start ⟨hs, hends⟩ hstop
    refine ⟨hs, ih hends ?_⟩
    rw [hstop, hs, BitVec.add_assoc, ← BitVec.ofNat_add, List.flatMap_cons, List.append_assoc,
      sizeOfIds_append, Nat.mul_add]

/-- Further records do not move the ends of those before. -/
theorem Ends.append_lens {lens more : List Nat} :
    ∀ {heaps : List (Buf × Word)} {start : Word},
      (∀ e ∈ heaps, ∀ j ∈ e.1.records, j < lens.length) → Ends lens start heaps →
      Ends (lens ++ more) start heaps := by
  intro heaps
  induction heaps with
  | nil => exact fun _ _ => trivial
  | cons e heaps ih =>
    obtain ⟨c, s⟩ := e
    rintro start hids ⟨hs, hends⟩
    have hc : sizeOfIds (lens ++ more) c.records = sizeOfIds lens c.records :=
      congrArg List.sum (List.map_congr_left fun j hj => by
        simp [List.getD_eq_getElem?_getD,
          List.getElem?_append_left (hids _ List.mem_cons_self j hj)])
    exact ⟨by rw [hs, hc], ih (fun e he => hids e (List.mem_cons_of_mem _ he)) hends⟩

/-- A buffer holds records that exist. -/
theorem Chunked.mem_lt (h : Chunked ctx) {e : Buf × Word} (he : e ∈ ctx.bufferedHeapInfo)
    {j : Nat} (hj : j ∈ e.1.records) : j < ctx.records.length := by
  have : j ∈ List.range ctx.records.length := by
    rw [← h.ids]
    exact List.mem_append_left _ (List.mem_flatMap_of_mem he hj)
  exact List.mem_range.mp this

/-- The division into buffers reads only the lengths and the buffers of the context. -/
theorem Chunked.of_lens {ctx' : PickleCtx} (h : Chunked ctx) (hlens : ctx'.lens = ctx.lens)
    (hheaps : ctx'.bufferedHeapInfo = ctx.bufferedHeapInfo)
    (hbuf : ctx'.currentOutputBuf = ctx.currentOutputBuf)
    (hstart : ctx'.lastOffsetEnd = ctx.lastOffsetEnd) : Chunked ctx' := by
  have hlen : ctx'.records.length = ctx.records.length := by
    simpa [PickleCtx.lens] using congrArg List.length hlens
  exact ⟨by rw [hheaps, hbuf, hlen]; exact h.ids,
    by rw [hlens, hheaps, hstart]; exact h.ends, by rw [hheaps, hbuf]; exact h.none⟩

/-! ## Allocation -/

/-- Rounding up does not make a number smaller. -/
theorem le_roundUpToPowerOf2 (n : Nat) : n ≤ PickleCtx.roundUpToPowerOf2 n := by
  unfold PickleCtx.roundUpToPowerOf2
  split
  · exact le_refl n
  · exact Nat.lt_log2_self.le

/-- Rounding up gives a power of two below twice the number. -/
theorem roundUpToPowerOf2_pow {n : Nat} (h : n ≠ 0) :
    ∃ k, PickleCtx.roundUpToPowerOf2 n = 2 ^ k ∧ 2 ^ k < 2 * n := by
  unfold PickleCtx.roundUpToPowerOf2
  split
  next hpow =>
    obtain ⟨k, rfl⟩ := (Nat.and_sub_one_eq_zero_iff_isPowerOfTwo h).mp hpow
    exact ⟨k, rfl, by have := Nat.two_pow_pos k; omega⟩
  next hpow =>
    refine ⟨n.log2 + 1, rfl, ?_⟩
    have hle := Nat.log2_self_le h
    have hne : 2 ^ n.log2 ≠ n := fun heq =>
      hpow ((Nat.and_sub_one_eq_zero_iff_isPowerOfTwo h).mpr ⟨n.log2, heq.symm⟩)
    rw [Nat.pow_succ]
    omega

/-- The length of a new local heap is an `int32_t` again, if it is no more than 2^30. -/
theorem allocLen_newLocalHeap {n : Nat} (h : n ≤ 2 ^ 30) :
    (n : Int) ≤ (PickleCtx.roundUpToPowerOf2 n : Int).bmod (2 ^ 32) := by
  have hle := le_roundUpToPowerOf2 n
  rcases Nat.eq_zero_or_pos n with rfl | hpos
  · decide
  · obtain ⟨k, hround, hlt⟩ := roundUpToPowerOf2_pow (Nat.ne_of_gt hpos)
    have hk : k < 31 := (Nat.pow_lt_pow_iff_right (by decide)).mp (show 2 ^ k < 2 ^ 31 by omega)
    have hsmall : 2 ^ k ≤ 2 ^ 30 := Nat.pow_le_pow_right (by decide) (by omega)
    rw [Int.bmod_eq_of_le (by omega) (by omega)]
    exact_mod_cast hle

/-- Beyond that it is negative, or zero. -/
theorem allocLen_newLocalHeap_nonpos {n : Nat} (h : 2 ^ 30 < n) (h' : n < 2 ^ 32) :
    (PickleCtx.roundUpToPowerOf2 n : Int).bmod (2 ^ 32) ≤ 0 := by
  have hle := le_roundUpToPowerOf2 n
  obtain ⟨k, hround, hlt⟩ := roundUpToPowerOf2_pow (show n ≠ 0 by omega)
  have hlow : 30 < k := (Nat.pow_lt_pow_iff_right (by decide)).mp (show 2 ^ 30 < 2 ^ k by omega)
  have hhigh : k < 33 := (Nat.pow_lt_pow_iff_right (by decide)).mp (show 2 ^ k < 2 ^ 33 by omega)
  rw [hround]
  obtain rfl | rfl : k = 31 ∨ k = 32 := by omega
  · decide
  · decide

/-- The buffer of a new local heap, by its length. -/
theorem newLocalHeap_buf (ctx : PickleCtx) (len : Nat) :
    ∃ cap : Int, cap = (PickleCtx.roundUpToPowerOf2
        (max (len + headerLen) marshalChunkSize) : Int).bmod (2 ^ 32) ∧
      (ctx.newLocalHeap len).currentOutputBuf = some ⟨cap, 0, []⟩ :=
  ⟨_, rfl, rfl⟩

/-- A new buffer keeps the division. -/
theorem newLocalHeap_chunked (h : Chunked ctx) (hsync : InSync ctx) (len : Nat) :
    Chunked (ctx.newLocalHeap len) := by
  cases hbuf : ctx.currentOutputBuf with
  | none =>
    have hids := h.ids
    rw [h.none hbuf, hbuf] at hids
    refine ⟨?_, ?_, ?_⟩
    · simpa [PickleCtx.newLocalHeap, hbuf] using hids
    · simp [PickleCtx.newLocalHeap, hbuf, Ends]
    · simp [PickleCtx.newLocalHeap]
  | some b =>
    have hids : ctx.bufferedHeapInfo.flatMap (·.1.records) ++ b.records =
        List.range ctx.records.length := by
      simpa [hbuf] using h.ids
    refine ⟨?_, ?_, ?_⟩
    · simpa [PickleCtx.newLocalHeap, hbuf] using hids
    · have hstop : ctx.offset = ctx.lastOffsetEnd + BitVec.ofNat 64
          (8 * sizeOfIds ctx.lens (ctx.bufferedHeapInfo.flatMap (·.1.records) ++ b.records)) := by
        have hlen : ctx.records.length = ctx.lens.length := by simp [PickleCtx.lens]
        rw [hids, hlen, sizeOfIds_range]
        exact hsync
      show Ends ctx.lens ctx.lastOffsetEnd (ctx.newLocalHeap len).bufferedHeapInfo
      simpa [PickleCtx.newLocalHeap, hbuf] using h.ends.concat hstop
    · simp [PickleCtx.newLocalHeap]

/-- A record that fits the open buffer goes into it. -/
theorem localHeapAlloc_room {b : Buf} {len : Nat} (h : Chunked ctx)
    (hbuf : ctx.currentOutputBuf = some b) (hroom : (b.byteLen + len : Int) ≤ b.allocLen) :
    ∃ cb, ctx.localHeapAlloc len = some (ctx.records.length,
        { ctx with
          currentOutputBuf := some cb
          records := ctx.records ++ [List.replicate (len / 8) 0] }) ∧
      (∃ ids, cb.records = ids ++ [ctx.records.length]) ∧
      Chunked { ctx with
        currentOutputBuf := some cb
        records := ctx.records ++ [List.replicate (len / 8) 0] } := by
  refine ⟨{ b with byteLen := b.byteLen + len, records := b.records ++ [ctx.records.length] },
    ?_, ⟨b.records, rfl⟩, ?_, ?_, ?_⟩
  · simp [PickleCtx.localHeapAlloc, hbuf, Int.not_lt.mpr hroom]
  · have hids := h.ids
    simp only [hbuf, Option.map_some, Option.getD_some] at hids
    simp [← List.append_assoc, hids, List.range_succ]
  · have hlens : ({ ctx with
        currentOutputBuf := some
          { b with byteLen := b.byteLen + len, records := b.records ++ [ctx.records.length] }
        records := ctx.records ++ [List.replicate (len / 8) 0] } : PickleCtx).lens
        = ctx.lens ++ [len / 8] := by
      simp [PickleCtx.lens]
    rw [hlens]
    refine h.ends.append_lens ?_
    rintro e he j hj
    simpa [PickleCtx.lens] using h.mem_lt he hj
  · simp

/-- A record that does not fit the open buffer is not allocated. -/
theorem localHeapAlloc_none {b : Buf} {len : Nat} (hbuf : ctx.currentOutputBuf = some b)
    (hfull : b.allocLen < b.byteLen + len) : ctx.localHeapAlloc len = none := by
  rw [PickleCtx.localHeapAlloc, hbuf]
  exact if_pos hfull

/-- A local heap for a record of so many bytes can be made. -/
def RecordFits (len : Nat) : Prop := len * 4 + headerLen ≤ 2 ^ 30

instance (len : Nat) : Decidable (RecordFits len) := inferInstanceAs (Decidable (_ ≤ _))

/-- **A longer record** has no room in any local heap. -/
theorem openRecord_none {len : Nat} (hlen : ¬ RecordFits len) : ctx.openRecord len = none := by
  have hhdr : headerLen = 48 := rfl
  have hchunk : marshalChunkSize = 512 := rfl
  rw [RecordFits] at hlen
  unfold PickleCtx.openRecord
  split
  next => rfl
  next hint =>
    have hnew (c : PickleCtx) : (c.newLocalHeap (len * 4)).localHeapAlloc len = none := by
      obtain ⟨cap, hcap, hbuf⟩ := newLocalHeap_buf c (len * 4)
      have hnonpos := allocLen_newLocalHeap_nonpos
        (show 2 ^ 30 < max (len * 4 + headerLen) marshalChunkSize by omega)
        (show max (len * 4 + headerLen) marshalChunkSize < 2 ^ 32 by omega)
      rw [← hcap] at hnonpos
      refine localHeapAlloc_none hbuf ?_
      show cap < ((0 : Nat) : Int) + len
      omega
    simp only [if_pos (show len * 2 ≥ marshalChunkSize by omega), hnew]
    rfl

/-- Opening a record that fits succeeds, in the open buffer or in a new one. -/
theorem openRecord_spec (h : Chunked ctx) (hsync : InSync ctx) {len : Nat} (hlen : RecordFits len) :
    ∃ cb heaps, ctx.openRecord len = some (ctx.records.length,
        { ctx with
          currentOutputBuf := some cb
          bufferedHeapInfo := heaps
          records := ctx.records ++ [List.replicate (len / 8) 0] }) ∧
      (∃ ids, cb.records = ids ++ [ctx.records.length]) ∧
      Chunked { ctx with
        currentOutputBuf := some cb
        bufferedHeapInfo := heaps
        records := ctx.records ++ [List.replicate (len / 8) 0] } := by
  have hhdr : headerLen = 48 := rfl
  have hchunk : marshalChunkSize = 512 := rfl
  rw [RecordFits] at hlen
  -- a new local heap has room for the record that it was made for
  have hnew : ∀ {c : PickleCtx}, Chunked c → InSync c →
      ∃ cb, (c.newLocalHeap (len * 4)).localHeapAlloc len = some (c.records.length,
          { c.newLocalHeap (len * 4) with
            currentOutputBuf := some cb
            records := c.records ++ [List.replicate (len / 8) 0] }) ∧
        (∃ ids, cb.records = ids ++ [c.records.length]) ∧
        Chunked { c.newLocalHeap (len * 4) with
          currentOutputBuf := some cb
          records := c.records ++ [List.replicate (len / 8) 0] } := by
    intro c hc hs
    obtain ⟨cap, hcap, hbuf⟩ := newLocalHeap_buf c (len * 4)
    have hroom := allocLen_newLocalHeap
      (show max (len * 4 + headerLen) marshalChunkSize ≤ 2 ^ 30 by omega)
    rw [← hcap] at hroom
    refine localHeapAlloc_room (newLocalHeap_chunked hc hs _) hbuf ?_
    show ((0 : Nat) : Int) + len ≤ cap
    omega
  rw [PickleCtx.openRecord, if_neg (by omega)]
  simp only
  -- whether the record is large enough to start a heap of its own
  by_cases hlarge : len * 2 ≥ marshalChunkSize
  · obtain ⟨cb, halloc, hchunked⟩ := hnew h hsync
    rw [if_pos hlarge, halloc]
    exact ⟨cb, (ctx.newLocalHeap (len * 4)).bufferedHeapInfo, rfl, hchunked⟩
  · rw [if_neg hlarge]
    cases halloc : ctx.localHeapAlloc len with
    | none =>
      obtain ⟨cb, halloc', hchunked⟩ := hnew h hsync
      simp only [Option.orElse_none, halloc']
      exact ⟨cb, (ctx.newLocalHeap (len * 4)).bufferedHeapInfo, rfl, hchunked⟩
    | some r =>
      cases hbuf : ctx.currentOutputBuf with
      | none => simp [PickleCtx.localHeapAlloc, hbuf] at halloc
      | some b =>
        have hroom : (b.byteLen + len : Int) ≤ b.allocLen := by
          by_contra hno
          rw [localHeapAlloc_none hbuf (Int.lt_of_not_ge hno)] at halloc
          cases halloc
        obtain ⟨cb, halloc', hchunked⟩ := localHeapAlloc_room h hbuf hroom
        rw [halloc'] at halloc
        exact ⟨cb, ctx.bufferedHeapInfo, halloc.symm, hchunked⟩

/-! ## Bundling -/

/-- The words of some records are as many as their sizes say. -/
theorem length_flatMap_record (ctx : PickleCtx) (ids : List Nat) :
    (ids.flatMap ctx.record).length = sizeOfIds ctx.lens ids := by
  simp [List.length_flatMap, sizeOfIds, PickleCtx.length_record]

/-- The offset at which the last of the filled buffers ends. -/
def reached : Word → List (Buf × Word) → Word
  | start, [] => start
  | _, (_, stop) :: heaps => reached stop heaps

/-- The address reached behind the buffers is that of their words. -/
theorem Ends.reached_eq {lens : List Nat} :
    ∀ {heaps : List (Buf × Word)} {start : Word}, Ends lens start heaps →
      reached start heaps =
        start + BitVec.ofNat 64 (8 * sizeOfIds lens (heaps.flatMap (·.1.records))) := by
  intro heaps
  induction heaps with
  | nil => simp [reached, sizeOfIds]
  | cons e heaps ih =>
    obtain ⟨c, s⟩ := e
    rintro start ⟨hs, hends⟩
    rw [reached, ih hends, hs, BitVec.add_assoc, ← BitVec.ofNat_add, List.flatMap_cons,
      sizeOfIds_append, Nat.mul_add]

/-- Copying as many words as there are gives the words. -/
theorem takeD_copy (words more : List Word) (start : Word) (h : 8 * words.length < 2 ^ 64) :
    (words ++ more).takeD
      ((start + BitVec.ofNat 64 (8 * words.length) - start).toNat / 8) 0 = words := by
  have hlen : (start + BitVec.ofNat 64 (8 * words.length) - start).toNat / 8 = words.length := by
    rw [BitVec.add_comm, BitVec.add_sub_cancel, BitVec.toNat_ofNat, Nat.mod_eq_of_lt h]
    omega
  rw [hlen, List.takeD_eq_take _ (by simp), List.take_left]

/-- Copying the buffers gives the words of their records. -/
theorem copyHeaps_eq :
    ∀ {heaps : List (Buf × Word)} {start : Word}, Ends ctx.lens start heaps →
      8 * sizeOfIds ctx.lens (heaps.flatMap (·.1.records)) < 2 ^ 64 →
      copyHeaps ctx heaps start =
        ((heaps.flatMap (·.1.records)).flatMap ctx.record, reached start heaps) := by
  intro heaps
  induction heaps with
  | nil => exact fun _ _ => rfl
  | cons e heaps ih =>
    obtain ⟨c, s⟩ := e
    rintro start ⟨hs, hends⟩ hbound
    simp only [List.flatMap_cons, sizeOfIds_append] at hbound
    have hwords := length_flatMap_record ctx c.records
    have hcopy := takeD_copy (c.records.flatMap ctx.record) [] start (by rw [hwords]; omega)
    rw [hwords, List.append_nil] at hcopy
    simp only [copyHeaps, ih hends (by omega), PickleCtx.heapWords, reached, List.flatMap_cons,
      List.flatMap_append]
    rw [hs, hcopy]

/-- The copy of all buffers is the words of all records, with the end record behind them. -/
theorem copied_eq {b : Buf} {ids : List Nat} {rs : List (List Word)} {endRecord : List Word}
    (h : Chunked ctx) (hbuf : ctx.currentOutputBuf = some b) (hids : b.records = ids ++ [rs.length])
    (hrecords : ctx.records = rs ++ [endRecord])
    (hoffset : ctx.offset = ctx.lastOffsetEnd + BitVec.ofNat 64 (8 * rs.flatten.length))
    (hbound : 8 * rs.flatten.length < 2 ^ 64) :
    (copyHeaps ctx ctx.bufferedHeapInfo ctx.lastOffsetEnd).1 ++
      (ctx.heapWords b).takeD ((ctx.offset -
        (copyHeaps ctx ctx.bufferedHeapInfo ctx.lastOffsetEnd).2).toNat / 8) 0 = rs.flatten := by
  have hall : ctx.bufferedHeapInfo.flatMap (·.1.records) ++ ids = List.range rs.length := by
    have := h.ids
    rw [hbuf, hrecords, Option.map_some, Option.getD_some, hids, List.length_append,
      List.length_singleton, List.range_succ, ← List.append_assoc] at this
    exact List.append_cancel_right this
  have hwords : (List.range rs.length).flatMap ctx.record = rs.flatten := by
    rw [List.flatMap_def]
    congr 1
    apply List.ext_getElem (by simp)
    intro i h₁ h₂
    simp [PickleCtx.record, hrecords, List.getElem?_append_left h₂, List.getElem?_eq_getElem h₂]
  rw [← hall, List.flatMap_append] at hwords
  have hlen : sizeOfIds ctx.lens (ctx.bufferedHeapInfo.flatMap (·.1.records)) +
      sizeOfIds ctx.lens ids = rs.flatten.length := by
    rw [← hwords, List.length_append, length_flatMap_record, length_flatMap_record]
  have hstop : ctx.offset = reached ctx.lastOffsetEnd ctx.bufferedHeapInfo +
      BitVec.ofNat 64 (8 * (ids.flatMap ctx.record).length) := by
    rw [hoffset, h.ends.reached_eq, ← hlen, Nat.mul_add, BitVec.ofNat_add, BitVec.add_assoc,
      length_flatMap_record]
  have hheap : ctx.heapWords b = ids.flatMap ctx.record ++ ctx.record rs.length := by
    simp [PickleCtx.heapWords, hids]
  have hsmall : 8 * (ids.flatMap ctx.record).length < 2 ^ 64 := by
    rw [length_flatMap_record]
    omega
  rw [copyHeaps_eq h.ends (by omega), hstop, hheap, takeD_copy _ _ _ hsmall, hwords]

end N00b.Marshal
