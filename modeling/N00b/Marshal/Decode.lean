import Mathlib
import N00b.Marshal.Segments

/-!
# Decoding a message

`n00b_unmarshal_records` on the records of a message. The words that `n00b_munge_user_data` visits
are the data of a record and then the header of the next one, since it counts with the whole of
`alloc_len`; the last record of a message runs over the header of the end record. A record behind
another one therefore has its type read twice.

## Main results

* `unmarshalRecords_step`: one record, and what it does to the header behind it.
-/

namespace N00b.Marshal

/-- What a word becomes when it is visited. -/
abbrev Reads (ctx : UnpickleCtx) (word word' : Word) : Prop :=
  safeUnmungePointer ctx word = .ok word'

/-- A record and what is left of it when it was decoded. -/
structure Decoded (gcGuard : Word) (ctx : UnpickleCtx) (hdr : RecordHdr) (type : Word)
    (data data' : List Word) : Prop where
  allocLen : hdr.allocLen = headerLen + 8 * data.length
  fits : hdr.allocLen < 2 ^ 32
  type : Reads ctx hdr.type type
  allocFile : Reads ctx hdr.allocFile hdr.allocFile
  data : List.Forall₂ (Reads ctx) data data'

/-- The words of a header that stay what they are when they are visited. -/
structure Quiet (ctx : UnpickleCtx) (hdr : RecordHdr) (type : Word) : Prop where
  type : Reads ctx type type
  others : ∀ word ∈ { hdr with type := 0 }.words, Reads ctx word word

/-- The records of a message, each with what is left of it. Those behind the first are quiet. -/
inductive Records (gcGuard : Word) (ctx : UnpickleCtx) : List (List Word) → List (List Word) → Prop
  | nil : Records gcGuard ctx [] []
  | cons {hdr : RecordHdr} {type : Word} {data data' : List Word} {blocks blocks' : List (List Word)} :
      Decoded gcGuard ctx hdr type data data' → Quiet ctx hdr type →
      Records gcGuard ctx blocks blocks' →
      Records gcGuard ctx ((hdr.words ++ data) :: blocks)
        (({ hdr with guard := gcGuard, type }.words ++ data') :: blocks')

variable {gcGuard : Word} {ctx : UnpickleCtx} {hdr : RecordHdr} {type : Word}
  {data data' next next' : List Word} {blocks blocks' : List (List Word)}

/-! ## Words -/

/-- Reading the first of some words leaves the others to read. -/
theorem mungeWords_cons {word word' : Word} (h : Reads ctx word word') (n : Nat)
    (front rest : List Word) :
    mungeWords ctx (n + 1) front.length (front ++ word :: rest) =
      mungeWords ctx n (front.length + 1) (front ++ word' :: rest) := by
  have hget : (front ++ word :: rest).getD front.length 0 = word :=
    getD_append_add front (word :: rest) 0
  rw [mungeWords, hget]
  by_cases hw : lsbErase word = ctx.vaddrStart
  · rw [Reads, safeUnmungePointer, if_neg (not_not.mpr hw)] at h
    have hset : (front ++ word :: rest).set front.length word' = front ++ word' :: rest := by
      simp
    simp only [if_pos hw, h]
    show mungeWords ctx n (front.length + 1) _ = _
    rw [hset]
  · rw [Reads, safeUnmungePointer, if_pos hw] at h
    obtain rfl : word = word' := Except.ok.inj h
    simp only [if_neg hw]

/-- The reader translates every word of a run. -/
theorem mungeWords_reads {words words' : List Word} (h : List.Forall₂ (Reads ctx) words words')
    (front rest : List Word) :
    mungeWords ctx words.length front.length (front ++ (words ++ rest)) =
      .ok (front ++ (words' ++ rest)) := by
  induction h generalizing front with
  | nil => rfl
  | @cons word word' words words' hword _ ih =>
    have hnext := ih (front ++ [word'])
    simp only [List.length_append, List.length_singleton, List.append_assoc,
      List.singleton_append] at hnext
    rw [List.length_cons, List.cons_append, mungeWords_cons hword, hnext, List.cons_append]

/-! ## Records -/

/-- Reading one record moves on to the header of the next. -/
theorem unmarshalRecords_step (h : Decoded gcGuard ctx hdr type data data')
    (hnext : List.Forall₂ (Reads ctx) next next') (hlen : next.length = 6) (endRecord fuel : Nat)
    (front rest : List Word) (hend : front.length < endRecord) :
    unmarshalRecords gcGuard ctx endRecord (fuel + 1) front.length
        (front ++ (hdr.words ++ data ++ (next ++ rest))) =
      unmarshalRecords gcGuard ctx endRecord fuel (front.length + (6 + data.length))
        (front ++ ({ hdr with guard := gcGuard, type }.words ++ data' ++ (next' ++ rest))) := by
  have hread := fun i => getD_append_add front (hdr.words ++ data ++ (next ++ rest)) i
  have htype : (front ++ (hdr.words ++ data ++ (next ++ rest))).getD (front.length + 1) 0 =
      hdr.type := hread 1
  have hfile : (front ++ (hdr.words ++ data ++ (next ++ rest))).getD (front.length + 2) 0 =
      hdr.allocFile := hread 2
  have hword : (front ++ (hdr.words ++ data ++ (next ++ rest))).getD (front.length + 3) 0 =
      lengthWord hdr.allocLen hdr.allocLine hdr.marshalEnd hdr.ptrScan hdr.obj := hread 3
  have hset : (((front ++ (hdr.words ++ data ++ (next ++ rest))).set front.length gcGuard).set
      (front.length + 1) type).set (front.length + 2) hdr.allocFile =
      front ++ { hdr with guard := gcGuard, type }.words ++ (data ++ next ++ rest) := by
    rw [List.set_append_right _ _ (Nat.le_refl _), List.set_append_right _ _ (Nat.le_succ _),
      List.set_append_right _ _ (Nat.le_add_right _ 2)]
    simp [RecordHdr.words]
  have hdiv : hdr.allocLen / 8 = (data ++ next).length := by
    rw [h.allocLen, List.length_append, hlen, headerLen]
    omega
  have hmunged : mungeUserData ctx front.length
      (front ++ { hdr with guard := gcGuard, type }.words ++ (data ++ next ++ rest)) =
      .ok (front ++ { hdr with guard := gcGuard, type }.words ++ (data' ++ next' ++ rest)) := by
    have hword' : (front ++ { hdr with guard := gcGuard, type }.words ++
        (data ++ next ++ rest)).getD (front.length + 3) 0 =
        lengthWord hdr.allocLen hdr.allocLine hdr.marshalEnd hdr.ptrScan hdr.obj := by
      rw [List.append_assoc]
      exact getD_append_add front _ 3
    have hboth : List.Forall₂ (Reads ctx) (data ++ next) (data' ++ next') :=
      List.rel_append h.data hnext
    have hwords := mungeWords_reads hboth
      (front ++ { hdr with guard := gcGuard, type }.words) rest
    have hfront : (front ++ { hdr with guard := gcGuard, type }.words).length =
        front.length + 6 := List.length_append
    rw [hfront] at hwords
    rw [mungeUserData, hword', allocLenOf_lengthWord h.fits, hdiv, hwords]
  have hne : hdr.allocLen ≠ 0 := by
    rw [h.allocLen, headerLen]
    omega
  rw [unmarshalRecords]
  simp only [hword, allocLenOf_lengthWord h.fits, htype, h.type, hfile, h.allocFile]
  rw [if_pos ⟨hne, hend⟩]
  show (mungeUserData ctx front.length _ >>= _) = _
  rw [hset, hmunged]
  show unmarshalRecords gcGuard ctx endRecord fuel _ _ = _
  rw [hdiv, List.length_append, hlen, Nat.add_comm data.length]
  simp only [List.append_assoc]

/-- Reading stops at the end record. -/
theorem unmarshalRecords_end (gcGuard : Word) (ctx : UnpickleCtx) (endRecord fuel : Nat)
    (front : List Word) :
    unmarshalRecords gcGuard ctx endRecord (fuel + 1) front.length
        (front ++ (endHeader 0).words) = .ok (front ++ (endHeader 0).words) := by
  have hlen : (front ++ (endHeader 0).words).getD (front.length + 3) 0 =
      lengthWord 0 recordLine true false false := getD_append_add front _ 3
  rw [unmarshalRecords]
  simp only [hlen, allocLenOf_lengthWord (show 0 < 2 ^ 32 by decide), ne_eq, not_true_eq_false,
    false_and, if_false]

/-- Every record has at least one word. -/
theorem Records.length_le (h : Records gcGuard ctx blocks blocks') :
    blocks.length ≤ blocks.flatten.length := by
  induction h with
  | nil => simp
  | cons _ _ _ ih =>
    simp only [List.length_cons, List.flatten_cons, List.length_append, RecordHdr.length_words]
    omega

/-- Reading records keeps their size. -/
theorem Records.flatten_length (h : Records gcGuard ctx blocks blocks') :
    blocks.flatten.length = blocks'.flatten.length := by
  induction h with
  | nil => rfl
  | cons hdecoded _ _ ih =>
    simp only [List.flatten_cons, List.length_append, RecordHdr.length_words, ih,
      hdecoded.data.length_eq]

/-- Reading the header of a quiet record changes its type word only. -/
theorem Quiet.visited (h : Quiet ctx hdr type) (htype : Reads ctx hdr.type type) :
    List.Forall₂ (Reads ctx) hdr.words { hdr with type }.words := by
  have hothers := h.others
  simp only [RecordHdr.words, List.forall_mem_cons] at hothers
  obtain ⟨hguard, -, hfile, hlen, h₁, h₂, -⟩ := hothers
  exact .cons hguard (.cons htype (.cons hfile (.cons hlen (.cons h₁ (.cons h₂ .nil)))))

/-- A record still decodes after its header was read. -/
theorem Decoded.visited (h : Decoded gcGuard ctx hdr type data data') (hquiet : Quiet ctx hdr type) :
    Decoded gcGuard ctx { hdr with type } type data data' :=
  ⟨h.allocLen, h.fits, hquiet.type, h.allocFile, h.data⟩

/-- Reading a run of records reads each of them up to the end record. -/
theorem unmarshalRecords_blocks (hend : ∀ word ∈ (endHeader 0).words, Reads ctx word word)
    (h : Records gcGuard ctx blocks blocks') (hfirst : Decoded gcGuard ctx hdr type data data')
    {endRecord fuel : Nat} (front : List Word)
    (hend' : front.length + (6 + data.length) + blocks.flatten.length ≤ endRecord)
    (hfuel : blocks.length + 2 ≤ fuel) :
    unmarshalRecords gcGuard ctx endRecord fuel front.length
        (front ++ (hdr.words ++ data ++ (blocks.flatten ++ (endHeader 0).words))) =
      .ok (front ++ ({ hdr with guard := gcGuard, type }.words ++ data' ++
        (blocks'.flatten ++ (endHeader 0).words))) := by
  have hsize := hfirst.data.length_eq
  induction h generalizing hdr type data data' front fuel with
  | nil =>
    obtain ⟨k, rfl⟩ : ∃ k, fuel = k + 2 := ⟨fuel - 2, by simp at hfuel; omega⟩
    have hquiet : List.Forall₂ (Reads ctx) (endHeader 0).words (endHeader 0).words :=
      List.forall₂_same.mpr hend
    have hstep := unmarshalRecords_step hfirst hquiet rfl endRecord (k + 1) front [] (by omega)
    have hlast := unmarshalRecords_end gcGuard ctx endRecord k
      (front ++ ({ hdr with guard := gcGuard, type }.words ++ data'))
    rw [List.length_append, List.length_append, RecordHdr.length_words, ← hsize] at hlast
    simp only [List.flatten_nil, List.nil_append, List.append_nil] at hstep ⊢
    rw [hstep]
    simpa only [List.append_assoc] using hlast
  | @cons hdr₂ type₂ data₂ data₂' blocks blocks' hdecoded hquiet _ ih =>
    obtain ⟨k, rfl⟩ : ∃ k, fuel = k + 1 := ⟨fuel - 1, by omega⟩
    have hstep := unmarshalRecords_step hfirst (hquiet.visited hdecoded.type) rfl endRecord k front
      (data₂ ++ (blocks.flatten ++ (endHeader 0).words)) (by omega)
    have hroom : (front ++ ({ hdr with guard := gcGuard, type }.words ++ data')).length +
        (6 + data₂.length) + blocks.flatten.length ≤ endRecord := by
      simp only [List.flatten_cons, List.length_append, RecordHdr.length_words] at hend' ⊢
      omega
    have hleft : blocks.length + 2 ≤ k := by
      rw [List.length_cons] at hfuel
      omega
    have hnext := ih (hdecoded.visited hquiet) _ hroom hleft hdecoded.data.length_eq
    rw [List.length_append, List.length_append, RecordHdr.length_words, ← hsize] at hnext
    simp only [List.flatten_cons, List.append_assoc] at hstep hnext ⊢
    rw [hstep, hnext]

/-! ## Messages -/

/-- The state of a decoder after messages of the given sizes. -/
structure Received (loc : Nat → Word) (base : Word) (sizes : List Nat) (ctx : UnpickleCtx) :
    Prop where
  vaddrStart : ctx.vaddrStart = base
  curRecordEndOffset : ctx.curRecordEndOffset = BitVec.ofNat 64 sizes.sum
  vaddrInfo : ctx.vaddrInfo = vaddrEntries loc 0 0 sizes

/-- What is known of a message while it is decoded: its first record, the others, and the header of
its end record. -/
structure Readable (gcGuard : Word) (ctx : UnpickleCtx) (hdr : RecordHdr) (type : Word)
    (data data' : List Word) (blocks blocks' : List (List Word)) : Prop where
  first : Decoded gcGuard ctx hdr type data data'
  others : Records gcGuard ctx blocks blocks'
  last : ∀ word ∈ (endHeader 0).words, Reads ctx word word

/-- The state in which `n00b_unpickle_one` reads the records of a message. -/
def readingCtx (receiver : Receiver) (ctx : UnpickleCtx) (endRecord : Nat) : UnpickleCtx :=
  { ctx with
    curRecordStartOffset := ctx.curRecordEndOffset
    curRecordEndOffset := ctx.curRecordEndOffset + BitVec.ofNat 64 (8 * endRecord)
    curRecord := receiver.loc ctx.vaddrInfo.length }

def readCtx (ctx : UnpickleCtx) : UnpickleCtx :=
  { ctx with
    vaddrInfo := ctx.vaddrInfo ++
      [⟨ctx.curRecordStartOffset, ctx.curRecordEndOffset, ctx.curRecord⟩]
    curRecordStartOffset := ctx.curRecordEndOffset }

variable {receiver : Receiver} {base : Word} {sizes : List Nat} {size : Nat}

/-- Reading one message reads its records and applies its patches. -/
theorem unpickleOne_eq {buf buf₁ : List Word} {endRecord : Nat} (fuel : Nat)
    (hfind : findEndRecord buf = some endRecord)
    (hrecords : unmarshalRecords receiver.gcGuard (readingCtx receiver ctx endRecord) endRecord
      (buf.length + 1) 0 buf = .ok buf₁) :
    unpickleOne receiver fuel ctx buf =
      (performUnmarshalBackpatching (readingCtx receiver ctx endRecord)
        (receiver.beyond ctx.vaddrInfo.length) fuel endRecord buf₁).map fun buf₂ =>
          (⟨receiver.loc ctx.vaddrInfo.length + BitVec.ofNat 64 headerLen,
            receiver.loc ctx.vaddrInfo.length, buf₂.take endRecord⟩,
            readCtx (readingCtx receiver ctx endRecord)) := by
  unfold unpickleOne
  rw [hfind]
  show (unmarshalRecords receiver.gcGuard (readingCtx receiver ctx endRecord) endRecord
      (buf.length + 1) 0 buf >>= _) = _
  rw [hrecords]
  show (performUnmarshalBackpatching (readingCtx receiver ctx endRecord)
    (receiver.beyond ctx.vaddrInfo.length) fuel endRecord buf₁ >>= _) = _
  cases performUnmarshalBackpatching (readingCtx receiver ctx endRecord)
    (receiver.beyond ctx.vaddrInfo.length) fuel endRecord buf₁ with
  | error e => rfl
  | ok buf₂ => rfl

/-- A message that follows those received is decoded at the next offset. -/
theorem Received.reading (h : Received receiver.loc base sizes ctx) {endRecord : Nat}
    (hsize : 8 * endRecord = size) (hsmall : sizes.sum + size ≤ 65536) :
    Decoding receiver.loc base sizes size (readingCtx receiver ctx endRecord) where
  vaddrStart := h.vaddrStart
  curRecordStartOffset := h.curRecordEndOffset
  curRecordEndOffset := by rw [readingCtx, h.curRecordEndOffset, hsize, BitVec.ofNat_add]
  curRecord := by rw [readingCtx, h.vaddrInfo, length_vaddrEntries]
  vaddrInfo := h.vaddrInfo
  small := hsmall

/-- A decoded message counts as received. -/
theorem Decoding.received (h : Decoding receiver.loc base sizes size ctx) :
    Received receiver.loc base (sizes ++ [size]) (readCtx ctx) where
  vaddrStart := h.vaddrStart
  curRecordEndOffset := by
    rw [List.sum_append, List.sum_singleton]
    exact h.curRecordEndOffset
  vaddrInfo := by
    rw [vaddrEntries_concat, readCtx, h.curRecordStartOffset, h.curRecordEndOffset, h.curRecord,
      h.vaddrInfo]
    simp

/-- The reader accepts a readable message and translates all its records. -/
theorem unpickleOne_message (h : Received receiver.loc base sizes ctx)
    (hsize : 8 * (hdr.words ++ data ++ blocks.flatten).length = size)
    (hsmall : sizes.sum + size ≤ 65536)
    (hread : ∀ ctx, Decoding receiver.loc base sizes size ctx →
      Readable receiver.gcGuard ctx hdr type data data' blocks blocks') (fuel : Nat) :
    ∃ ctx', unpickleOne receiver fuel ctx
        (hdr.words ++ data ++ (blocks.flatten ++ (endHeader 0).words)) =
        .ok (⟨receiver.loc sizes.length + BitVec.ofNat 64 headerLen, receiver.loc sizes.length,
          { hdr with guard := receiver.gcGuard, type }.words ++ data' ++ blocks'.flatten⟩, ctx') ∧
      Received receiver.loc base (sizes ++ [size]) ctx' ∧
      ctx'.partialData = ctx.partialData ∧ ctx'.partCursor = ctx.partCursor := by
  generalize hfront : hdr.words ++ data ++ blocks.flatten = front at hsize
  have hbuf : hdr.words ++ data ++ (blocks.flatten ++ (endHeader 0).words) =
      front ++ (endHeader 0).words := by simp only [← hfront, List.append_assoc]
  have hdecoding := h.reading hsize hsmall
  have hreadable := hread _ hdecoding
  have hsegments : ctx.vaddrInfo.length = sizes.length := by
    rw [h.vaddrInfo, length_vaddrEntries]
  -- the records
  have hlength := congrArg List.length hfront
  have hroom : (front ++ (endHeader 0).words).length = front.length + 6 := List.length_append
  simp only [List.length_append, RecordHdr.length_words] at hlength
  have hblocks := hreadable.others.length_le
  have hrecords := unmarshalRecords_blocks hreadable.last hreadable.others hreadable.first []
    (show 0 + (6 + data.length) + blocks.flatten.length ≤ front.length by omega)
    (show blocks.length + 2 ≤ (front ++ (endHeader 0).words).length + 1 by omega)
  rw [List.length_nil, List.nil_append, List.nil_append, hbuf, ← List.append_assoc] at hrecords
  -- the end record has no patches
  have hsame := hreadable.others.flatten_length
  have hdata := hreadable.first.data.length_eq
  generalize hfront' : { hdr with guard := receiver.gcGuard, type }.words ++ data' ++
      blocks'.flatten = front' at hrecords ⊢
  have hout : front'.length = front.length := by
    rw [← hfront']
    simp only [List.length_append, RecordHdr.length_words]
    omega
  have hlen : (front' ++ (endHeader 0).words).getD (front.length + 3) 0 =
      lengthWord 0 recordLine true false false := hout ▸ getD_append_add front' _ 3
  have hzero : allocLenOf (lengthWord 0 recordLine true false false) / 16 = 0 := by decide
  have hpatches : performUnmarshalBackpatching (readingCtx receiver ctx front.length)
      (receiver.beyond ctx.vaddrInfo.length) fuel front.length (front' ++ (endHeader 0).words) =
      .ok (front' ++ (endHeader 0).words) := by
    rw [performUnmarshalBackpatching, hlen, hzero, backpatchLoop]
  have htake : (front' ++ (endHeader 0).words).take front.length = front' := by
    rw [← hout, List.take_left]
  refine ⟨readCtx (readingCtx receiver ctx front.length), ?_, hdecoding.received, rfl, rfl⟩
  rw [hbuf, unpickleOne_eq fuel (findEndRecord_message front 0) hrecords, hpatches, Except.map,
    htake, hsegments]

end N00b.Marshal
