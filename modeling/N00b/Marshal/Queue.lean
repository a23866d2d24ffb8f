import Mathlib
import N00b.Marshal.Opening

/-!
# The work list

`process_queue` fills in the records of a message. Each word may open further records; the records
still to fill are those with an item on the work list.

## Main results

* `processQueue_spec`: the queue is emptied, and then every record of the message is filled, unless
  one of the allocations is too long for a record.
-/

namespace N00b.Marshal

open Lib

/-! ## Records being filled -/

/-- The word written for the data word `s`. -/
def Copied (heap : Heap) (base : Word) (lay : List Alloc) (s word : Word) : Prop :=
  if InWindow base s then word = 0 else Stands heap base lay s word

/-- A record of which the first `k` data words are written. -/
def Filled (heap : Heap) (base : Word) (lay : List Alloc) (a : Alloc) (k : Nat)
    (block : List Word) : Prop :=
  ∃ type words, Stands heap base lay a.type type ∧
    List.Forall₂ (Copied heap base lay) (a.data.take k) words ∧
    block = (newHeader a type).words ++ words ++ List.replicate (a.data.length - k) 0

/-- The state of a message that started in `ctx₀`, after the messages `prev`: `cur` are the
allocations with a record in this message, and `done` says how many words of each are written. -/
structure Progress (heap : Heap) (S : Alloc → Prop) (ctx₀ : PickleCtx) (prev cur : List Alloc)
    (done : Nat → Nat) (ctx : PickleCtx) : Prop where
  base : ctx.base = ctx₀.base
  started : ctx.started = ctx₀.started
  lastOffsetEnd : ctx.lastOffsetEnd = ctx₀.lastOffsetEnd
  ready : Ready ctx (prev ++ cur)
  count : ctx.records.length = cur.length
  blocks : ∀ j a block, cur[j]? = some a → ctx.records[j]? = some block →
    Filled heap ctx₀.base (prev ++ cur) a (done j) block
  later : ∀ j, cur.length ≤ j → done j = 0
  fresh : Fresh prev cur
  mem : ∀ a ∈ cur, a ∈ heap.allocs ∧ S a
  small : ∀ a ∈ cur, RecordFits a.allocLen
  patches : ctx.neededPatches = [] ↔
    ∀ j (a : Alloc), cur[j]? = some a → ∀ s ∈ a.data.take (done j), ¬ InWindow ctx₀.base s
  emitted : ∃ log, ctx.emitted = ctx₀.emitted ++ log ∧
    ∀ e ∈ log, EmissionOk heap ctx₀.base S (prev ++ cur) e
  logged : ∀ j (a : Alloc), cur[j]? = some a → ∀ s ∈ a.data.take (done j),
    ¬ InWindow ctx₀.base s → ∃ word, Stands heap ctx₀.base (prev ++ cur) s word ∧
      ⟨(heap.findAllocationRecord s).isSome, word⟩ ∈ ctx.emitted

/-- The items that stand for new allocations, the first record of which has the index `n`. -/
structure Stand (items : List WlItem) (n : Nat) (new : List Alloc) : Prop where
  perm : (items.map WlItem.dst).Perm (List.range' n new.length)
  src : ∀ it ∈ items, new[it.dst - n]? = some it.src

variable {heap : Heap} {S : Alloc → Prop} {ctx₀ ctx ctx' : PickleCtx} {base : Word}
  {lay prev cur new : List Alloc} {done : Nat → Nat}

/-- A copied word stays copied in a longer layout. -/
theorem Copied.mono {s word : Word} (h : Copied heap base lay s word) (more : List Alloc) :
    Copied heap base (lay ++ more) s word := by
  unfold Copied at h ⊢
  split
  next hw => rwa [if_pos hw] at h
  next hw =>
    rw [if_neg hw] at h
    exact h.mono more

/-- A filled record stays filled in a longer layout. -/
theorem Filled.mono {a : Alloc} {k : Nat} {block : List Word} (h : Filled heap base lay a k block)
    (more : List Alloc) : Filled heap base (lay ++ more) a k block := by
  obtain ⟨type, words, htype, hwords, hblock⟩ := h
  exact ⟨type, words, htype.mono more, hwords.imp fun _ _ hw => hw.mono more, hblock⟩

/-- A blank record is filled up to its first word. -/
theorem Blank.filled {a : Alloc} {block : List Word} (h : Blank heap base lay a block) :
    Filled heap base lay a 0 block := by
  obtain ⟨type, htype, hblock⟩ := h
  exact ⟨type, [], htype, .nil, by simpa using hblock⟩

/-- Copying the next word fills a record one word further. -/
theorem Filled.write {a : Alloc} {k : Nat} {block : List Word} {s word : Word}
    (h : Filled heap base lay a k block) (hs : a.data[k]? = some s)
    (hword : Copied heap base lay s word) :
    Filled heap base lay a (k + 1) (block.set (6 + k) word) := by
  obtain ⟨type, words, htype, hwords, rfl⟩ := h
  obtain ⟨hk, rfl⟩ := List.getElem?_eq_some_iff.mp hs
  have hlen : words.length = k := by
    rw [← hwords.length_eq, List.length_take]
    omega
  refine ⟨type, words ++ [word], htype, ?_, ?_⟩
  · rw [List.take_succ_eq_append_getElem hk]
    exact List.rel_append hwords (.cons hword .nil)
  · have hzeros : List.replicate (a.data.length - k) (0 : Word) =
        0 :: List.replicate (a.data.length - (k + 1)) 0 := by
      rw [← List.replicate_succ]
      congr 1
      omega
    rw [hzeros, List.append_assoc, List.set_append_right _ _ (by simp),
      RecordHdr.length_words, Nat.add_sub_cancel_left, List.set_append_right _ _ (by omega), hlen,
      Nat.sub_self, List.set_cons_zero]
    simp

/-! ## Items -/

/-- The items of two openings in a row stand for the allocations of both. -/
theorem Stand.append {items₁ items₂ : List WlItem} {n : Nat} {new₁ new₂ : List Alloc}
    (h₁ : Stand items₁ n new₁) (h₂ : Stand items₂ (n + new₁.length) new₂) :
    Stand (items₂ ++ items₁) n (new₁ ++ new₂) where
  perm := by
    rw [List.map_append, List.length_append, ← List.range'_append_1]
    exact List.perm_append_comm.trans (h₁.perm.append h₂.perm)
  src := by
    have hrange : ∀ {items : List WlItem} {m : Nat} {l : List Alloc}, Stand items m l →
        ∀ it ∈ items, m ≤ it.dst ∧ it.dst < m + l.length := by
      rintro items m l h it hit
      have := h.perm.mem_iff.mp (List.mem_map_of_mem hit)
      simpa [List.mem_range'_1] using this
    rintro it hit
    rcases List.mem_append.mp hit with hit | hit
    · have := hrange h₂ it hit
      rw [List.getElem?_append_right (by omega), ← h₂.src it hit]
      congr 1
      omega
    · have := hrange h₁ it hit
      rw [List.getElem?_append_left (by omega), h₁.src it hit]

/-- The items queued for new records stand for them. -/
theorem stand_itemsFor : ∀ {lay : List Alloc} {n : Nat} {new : List Alloc},
    Stand (itemsFor base lay n new) n new := by
  intro lay n new
  induction new generalizing lay n with
  | nil => exact ⟨by simp [itemsFor], by simp [itemsFor]⟩
  | cons a new ih =>
    refine ⟨?_, ?_⟩
    · rw [itemsFor, List.map_cons, List.length_cons, List.range'_succ]
      exact ih.perm.cons n
    · rintro it hit
      rcases List.mem_cons.mp hit with rfl | hit
      · simp
      · have hmem := ih.perm.mem_iff.mp (List.mem_map_of_mem hit)
        rw [List.mem_range'_1] at hmem
        have hsub : it.dst - n = (it.dst - (n + 1)) + 1 := by omega
        rw [hsub, List.getElem?_cons_succ]
        exact ih.src it hit

/-! ## Words -/

/-- Processing one word copies it, opens what it points to and logs it, or fails where a record is
too large. -/
theorem processOneWord_spec {depth : Nat} {lay₀ : List Alloc} {s : Word} (offset : Word)
    (hclosed : Closed heap base lay₀ S) (hbase : ctx.base = base) (hpre : lay₀ <+: lay)
    (hready : Ready ctx lay) (hdepth : heap.allocs.length < depth) {a : Alloc} (ha : S a)
    (hs : s ∈ a.data) :
    (∃ new ctx' word, processOneWord heap depth ctx s offset = some (word, ctx') ∧
      Opened heap S lay new { ctx with neededPatches := ctx'.neededPatches } ctx' ∧
      ctx'.wl = itemsFor base lay ctx.records.length new ++ ctx.wl ∧
      Copied heap base (lay ++ new) s word ∧
      (InWindow base s ∨ ⟨(heap.findAllocationRecord s).isSome, word⟩ ∈ ctx'.emitted) ∧
      (ctx'.neededPatches = [] ↔ ctx.neededPatches = [] ∧ ¬ InWindow base s)) ∨
    processOneWord heap depth ctx s offset = none ∧ Oversized S := by
  by_cases hw : InWindow base s
  · -- the collision is written as zero
    have hok : EmissionOk heap (handleCollision ctx s offset).base S lay ⟨false, 0⟩ := by
      simp [EmissionOk]
    left
    refine ⟨[], (handleCollision ctx s offset).emit false 0, 0, ?_, ?_, rfl, ?_, Or.inl hw, ?_⟩
    · rw [processOneWord, if_pos (hw.trans hbase.symm)]
    · have hready' : Ready (handleCollision ctx s offset) lay :=
        hready.of_lens rfl rfl rfl rfl rfl rfl rfl
      exact opened_emit hready' hok
    · simp [Copied, hw]
    · simp [handleCollision, PickleCtx.emit, hw]
  · have hdepth' : unwritten heap lay < depth := (unwritten_le heap lay).trans_lt hdepth
    have htarget : ∀ b, heap.findAllocationRecord s = some b → startOf lay b.addr = none → S b :=
      fun b hb hstart => hclosed a b ha ⟨s, Or.inr ⟨hs, hw⟩, hb⟩ (start_eq_none_before hpre hstart)
    have hcall : processOneWord heap depth ctx s offset =
        translateWith heap (getWriteRecord heap depth) ctx s := by
      rw [processOneWord, if_neg (fun h => hw (h.trans hbase)), translatePointer]
    rw [hcall]
    obtain ⟨new, ctx', word, htrans, hopen, hwl, hstands, hlogged⟩ | hrefused :=
      translateWith_spec (getWriteRecord_spec hclosed depth) hbase hpre hready hdepth' htarget
        (Or.inl hw)
    swap
    · exact Or.inr hrefused
    left
    refine ⟨new, ctx', word, htrans, ?_, hwl, ?_, Or.inr hlogged, ?_⟩
    · rw [hopen.neededPatches]
      exact hopen
    · rw [Copied, if_neg hw]
      exact hstands
    · simp [hopen.neededPatches, hw]

/-- Lists related element by element are related at each index. -/
theorem forall₂_getElem? {α β : Type} {R : α → β → Prop} {l : List α} {m : List β}
    (h : List.Forall₂ R l m) : ∀ {i : Nat} {a : α} {b : β}, l[i]? = some a → m[i]? = some b →
      R a b := by
  induction h with
  | nil => simp
  | cons hab _ ih =>
    rintro i a b ha hb
    cases i with
    | zero =>
      cases ha
      cases hb
      exact hab
    | succ i => exact ih ha hb

/-- The word `t` of the record `i`, which is one of `b`, is written. -/
def Written (cur : List Alloc) (done : Nat → Nat) (i : Nat) (b : Alloc) (t : Word) : Prop :=
  cur[i]? = some b ∧ t ∈ b.data.take (done i)

/-! ### One more word

The record `j`, of the allocation `a`, has `k` words, and `s` is the next. -/

section Step

variable {j k : Nat} {a : Alloc} {s word : Word}

/-- The records after a step: the one that is written to, those before, and the new ones. -/
theorem Progress.record_cases (h : Progress heap S ctx₀ prev cur done ctx) (ha : cur[j]? = some a)
    {i : Nat} {b : Alloc} (hb : (cur ++ new)[i]? = some b) (n : Nat) :
    i = j ∧ b = a ∨ i ≠ j ∧ cur[i]? = some b ∧ Function.update done j n i = done i ∨
      i ≠ j ∧ cur.length ≤ i ∧ new[i - cur.length]? = some b ∧ Function.update done j n i = 0 := by
  have hj : j < cur.length := (List.getElem?_eq_some_iff.mp ha).1
  rcases Nat.lt_or_ge i cur.length with hi | hi
  · rw [List.getElem?_append_left hi] at hb
    by_cases hij : i = j
    · subst hij
      exact Or.inl ⟨rfl, Option.some.inj (hb.symm.trans ha)⟩
    · exact Or.inr (Or.inl ⟨hij, hb, Function.update_of_ne hij ..⟩)
  · rw [List.getElem?_append_right hi] at hb
    have hij : i ≠ j := by omega
    exact Or.inr (Or.inr ⟨hij, hi, hb, (Function.update_of_ne hij ..).trans (h.later i hi)⟩)

/-- A step writes one word more. -/
theorem Progress.written_iff (h : Progress heap S ctx₀ prev cur done ctx) (ha : cur[j]? = some a)
    (hk : done j = k) (hs : a.data[k]? = some s) {i : Nat} {b : Alloc} {t : Word} :
    Written (cur ++ new) (Function.update done j (k + 1)) i b t ↔
      Written cur done i b t ∨ i = j ∧ b = a ∧ t = s := by
  have hlift : ∀ {i : Nat} {b : Alloc}, cur[i]? = some b → (cur ++ new)[i]? = some b := by
    intro i b hb
    rw [List.getElem?_append_left (List.getElem?_eq_some_iff.mp hb).1, hb]
  have htake : a.data.take (k + 1) = a.data.take (done j) ++ [s] := by
    obtain ⟨hlt, rfl⟩ := List.getElem?_eq_some_iff.mp hs
    rw [hk]
    exact List.take_succ_eq_append_getElem hlt
  constructor
  · rintro ⟨hb, ht⟩
    obtain ⟨rfl, rfl⟩ | ⟨hij, hb', hdone⟩ | ⟨hij, -, -, hdone⟩ := h.record_cases ha hb (k + 1)
    · rw [Function.update_self, htake, List.mem_append, List.mem_singleton] at ht
      exact ht.imp (fun ht => ⟨ha, ht⟩) fun ht => ⟨rfl, rfl, ht⟩
    · exact Or.inl ⟨hb', hdone ▸ ht⟩
    · rw [hdone] at ht
      simp at ht
  · rintro (⟨hb, ht⟩ | ⟨rfl, rfl, rfl⟩)
    · refine ⟨hlift hb, ?_⟩
      by_cases hij : i = j
      · subst hij
        obtain rfl : b = a := Option.some.inj (hb.symm.trans ha)
        rw [Function.update_self, htake]
        exact List.mem_append_left _ ht
      · rwa [Function.update_of_ne hij]
    · refine ⟨hlift ha, ?_⟩
      rw [Function.update_self, htake]
      exact List.mem_append_right _ (List.mem_singleton_self t)

/-- One copied word keeps every record filled up to its count. -/
theorem Progress.step_blocks {blocks : List (List Word)}
    (h : Progress heap S ctx₀ prev cur done ctx) (ha : cur[j]? = some a) (hk : done j = k)
    (hs : a.data[k]? = some s) (hrecords : ctx'.records = ctx.records ++ blocks)
    (hblank : List.Forall₂ (Blank heap ctx₀.base (prev ++ (cur ++ new))) new blocks)
    (hcopied : Copied heap ctx₀.base (prev ++ (cur ++ new)) s word) {i : Nat} {b : Alloc}
    {block : List Word} (hb : (cur ++ new)[i]? = some b)
    (hblock : (ctx'.writeWord j (6 + k) word).records[i]? = some block) :
    Filled heap ctx₀.base (prev ++ (cur ++ new)) b (Function.update done j (k + 1) i) block := by
  have hold : ∀ {i : Nat} {b : Alloc} {block : List Word}, cur[i]? = some b →
      ctx.records[i]? = some block →
      Filled heap ctx₀.base (prev ++ (cur ++ new)) b (done i) block := by
    intro i b block hb hblock
    rw [← List.append_assoc]
    exact (h.blocks i b block hb hblock).mono new
  have hleft : ∀ {i : Nat} {b : Alloc}, cur[i]? = some b → ctx'.records[i]? = ctx.records[i]? := by
    intro i b hb
    have hi := (List.getElem?_eq_some_iff.mp hb).1
    rw [hrecords, List.getElem?_append_left (h.count ▸ hi)]
  rw [PickleCtx.getElem?_writeWord] at hblock
  obtain ⟨rfl, rfl⟩ | ⟨hij, hb', hdone⟩ | ⟨hij, hi, hb', hdone⟩ := h.record_cases ha hb (k + 1)
  · rw [if_pos rfl, Option.map_eq_some_iff] at hblock
    obtain ⟨old, hblock, rfl⟩ := hblock
    rw [Function.update_self]
    exact (hk ▸ hold ha (hleft ha ▸ hblock)).write hs hcopied
  · rw [if_neg (Ne.symm hij), hleft hb'] at hblock
    rw [hdone]
    exact hold hb' hblock
  · rw [if_neg (Ne.symm hij), hrecords, List.getElem?_append_right (h.count ▸ hi), h.count]
      at hblock
    rw [hdone]
    exact (forall₂_getElem? hblank hb' hblock).filled

/-- No patch is needed iff no copied word lies in the window. -/
theorem Progress.step_patches (h : Progress heap S ctx₀ prev cur done ctx) (ha : cur[j]? = some a)
    (hk : done j = k) (hs : a.data[k]? = some s) :
    (ctx.neededPatches = [] ∧ ¬ InWindow ctx₀.base s) ↔
      ∀ i (b : Alloc), (cur ++ new)[i]? = some b →
        ∀ t ∈ b.data.take (Function.update done j (k + 1) i), ¬ InWindow ctx₀.base t := by
  rw [h.patches]
  constructor
  · rintro ⟨hall, hclean⟩ i b hb t ht
    obtain ⟨hb', ht'⟩ | ⟨rfl, rfl, rfl⟩ := (h.written_iff ha hk hs).mp ⟨hb, ht⟩
    · exact hall i b hb' t ht'
    · exact hclean
  · rintro hall
    have hnow : ∀ {i b t}, Written cur done i b t ∨ i = j ∧ b = a ∧ t = s →
        ¬ InWindow ctx₀.base t := by
      intro i b t hw
      have hwritten : Written (cur ++ new) (Function.update done j (k + 1)) i b t :=
        (h.written_iff ha hk hs).mpr hw
      exact hall i b hwritten.1 t hwritten.2
    exact ⟨fun i b hb t ht => hnow (Or.inl ⟨hb, ht⟩), hnow (Or.inr ⟨rfl, rfl, rfl⟩)⟩

/-- One copied word keeps the log complete. -/
theorem Progress.step_logged {log : List Emission} (h : Progress heap S ctx₀ prev cur done ctx)
    (ha : cur[j]? = some a) (hk : done j = k) (hs : a.data[k]? = some s)
    (hlog : ctx'.emitted = ctx.emitted ++ log)
    (hcopied : Copied heap ctx₀.base (prev ++ (cur ++ new)) s word)
    (hlogged : InWindow ctx₀.base s ∨
      ⟨(heap.findAllocationRecord s).isSome, word⟩ ∈ ctx'.emitted) {i : Nat} {b : Alloc} {t : Word}
    (hwritten : Written (cur ++ new) (Function.update done j (k + 1)) i b t)
    (hclean : ¬ InWindow ctx₀.base t) :
    ∃ word, Stands heap ctx₀.base (prev ++ (cur ++ new)) t word ∧
      ⟨(heap.findAllocationRecord t).isSome, word⟩ ∈ ctx'.emitted := by
  obtain ⟨hb, ht⟩ | ⟨rfl, rfl, rfl⟩ := (h.written_iff ha hk hs).mp hwritten
  · obtain ⟨w, hw, hmem⟩ := h.logged i b hb t ht hclean
    refine ⟨w, List.append_assoc .. ▸ hw.mono new, ?_⟩
    rw [hlog]
    exact List.mem_append_left _ hmem
  · rw [Copied, if_neg hclean] at hcopied
    exact ⟨word, hcopied, hlogged.resolve_left hclean⟩

/-- One word is copied, unless it points to an allocation that is too long. -/
theorem Progress.word_step {depth : Nat} (offset : Word)
    (hclosed : Closed heap ctx₀.base prev S) (hdepth : heap.allocs.length < depth)
    (h : Progress heap S ctx₀ prev cur done ctx) (ha : cur[j]? = some a) (hk : done j = k)
    (hs : a.data[k]? = some s) :
    (∃ new ctx' word, processOneWord heap depth ctx s offset = some (word, ctx') ∧
      Progress heap S ctx₀ prev (cur ++ new) (Function.update done j (k + 1))
        (ctx'.writeWord j (6 + k) word) ∧
      ctx'.wl = itemsFor ctx₀.base (prev ++ cur) cur.length new ++ ctx.wl) ∨
    processOneWord heap depth ctx s offset = none ∧ Oversized S := by
  have hj : j < cur.length := (List.getElem?_eq_some_iff.mp ha).1
  obtain ⟨new, ctx', word, hcall, hopen, hwl, hcopied, hlogged, hpatches⟩ | hrefused :=
    processOneWord_spec offset hclosed h.base (List.prefix_append prev cur) h.ready hdepth
      (h.mem a (List.mem_of_getElem? ha)).2 (List.mem_of_getElem? hs)
  swap
  · exact Or.inr hrefused
  left
  obtain ⟨blocks, hblocks, hblank⟩ := hopen.records
  obtain ⟨log₁, hlog₁, hok₁⟩ := h.emitted
  obtain ⟨log₂, hlog₂, hok₂⟩ := hopen.emitted
  have hrecords : ctx'.records = ctx.records ++ blocks := hblocks
  have hemitted : ctx'.emitted = ctx.emitted ++ log₂ := hlog₂
  have hbase : ({ ctx with neededPatches := ctx'.neededPatches } : PickleCtx).base = ctx₀.base :=
    h.base
  rw [hbase, List.append_assoc] at hblank
  rw [List.append_assoc] at hcopied
  refine ⟨new, ctx', word, hcall, ?_, by rw [hwl, h.count]⟩
  exact
    { base := hopen.base.trans h.base
      started := hopen.started.trans h.started
      lastOffsetEnd := hopen.lastOffsetEnd.trans h.lastOffsetEnd
      ready := by
        rw [← List.append_assoc]
        exact hopen.ready.of_lens (PickleCtx.lens_writeWord _ _ _) rfl rfl rfl rfl rfl rfl
      count := by
        simp [PickleCtx.writeWord, hrecords, h.count, hblank.length_eq]
      blocks := fun _ _ _ => h.step_blocks ha hk hs hrecords hblank hcopied
      later := by
        rintro i hi
        rw [List.length_append] at hi
        rw [Function.update_of_ne (by omega), h.later i (by omega)]
      fresh := fresh_append.mpr ⟨h.fresh, hopen.fresh⟩
      mem := fun b hb => (List.mem_append.mp hb).elim (h.mem b) (hopen.mem b)
      small := fun b hb => (List.mem_append.mp hb).elim (h.small b) (hopen.small b)
      patches := hpatches.trans (h.step_patches ha hk hs)
      emitted := by
        refine ⟨log₁ ++ log₂, ?_, ?_⟩
        · rw [PickleCtx.writeWord, hemitted, ← List.append_assoc, ← hlog₁]
        · rintro e he
          rw [← List.append_assoc]
          rcases List.mem_append.mp he with he | he
          · exact (hok₁ e he).mono new
          · exact hbase ▸ hok₂ e he
      logged := fun _ _ hb _ ht =>
        h.step_logged ha hk hs hemitted hcopied hlogged ⟨hb, ht⟩ }

end Step

/-- Processing the words of one allocation fills its record. -/
theorem Progress.words {depth j : Nat} {a : Alloc} (hclosed : Closed heap ctx₀.base prev S)
    (hdepth : heap.allocs.length < depth) :
    ∀ {vals : List Word} {k : Nat} (offset : Word) {cur : List Alloc} {done : Nat → Nat}
      {ctx : PickleCtx}, Progress heap S ctx₀ prev cur done ctx → cur[j]? = some a → done j = k →
      k ≤ a.data.length → a.data.drop k = vals →
      (∃ new ctx' items, processWords heap depth j vals (6 + k) offset ctx = some ctx' ∧
        Progress heap S ctx₀ prev (cur ++ new) (Function.update done j a.data.length) ctx' ∧
        ctx'.wl = items ++ ctx.wl ∧ Stand items cur.length new) ∨
      processWords heap depth j vals (6 + k) offset ctx = none ∧ Oversized S := by
  intro vals
  induction vals with
  | nil =>
    rintro k offset cur done ctx h ha hk hle hdrop
    have hend : a.data.length = done j := by
      rw [List.drop_eq_nil_iff] at hdrop
      omega
    left
    refine ⟨[], ctx, [], rfl, ?_, rfl, ⟨.refl _, by simp⟩⟩
    rw [hend, Function.update_eq_self, List.append_nil]
    exact h
  | cons s vals ih =>
    rintro k offset cur done ctx h ha hk hle hdrop
    have hs : a.data[k]? = some s := by
      have := congrArg List.head? hdrop
      simpa using this
    have hnext : a.data.drop (k + 1) = vals := by
      rw [← List.tail_drop, hdrop, List.tail_cons]
    obtain ⟨new₁, ctx₁, word, hcall, hprog, hwl₁⟩ | ⟨hcall, hlarge⟩ :=
      h.word_step offset hclosed hdepth ha hk hs
    swap
    · exact Or.inr ⟨by simp only [processWords, hcall, Option.bind_eq_bind, Option.bind_none],
        hlarge⟩
    have ha₁ : (cur ++ new₁)[j]? = some a := by
      rw [List.getElem?_append_left (List.getElem?_eq_some_iff.mp ha).1, ha]
    have hnow : processWords heap depth j (s :: vals) (6 + k) offset ctx =
        processWords heap depth j vals (6 + (k + 1)) (offset + 1)
          (ctx₁.writeWord j (6 + k) word) := by
      simp only [processWords, hcall, Option.bind_eq_bind, Option.bind_some]
      rfl
    rw [hnow]
    obtain ⟨new₂, ctx₂, items, hloop, hprog₂, hwl₂, hstand⟩ | hrefused := ih (offset + 1) hprog ha₁
      (Function.update_self ..) (List.getElem?_eq_some_iff.mp hs).1 hnext
    swap
    · exact Or.inr hrefused
    left
    refine ⟨new₁ ++ new₂, ctx₂, items ++ itemsFor ctx₀.base (prev ++ cur) cur.length new₁, hloop,
      ?_, ?_, ?_⟩
    · rw [Function.update_idem, List.append_assoc] at hprog₂
      exact hprog₂
    · rw [hwl₂, List.append_assoc]
      exact congrArg (items ++ ·) hwl₁
    · rw [List.length_append] at hstand
      exact stand_itemsFor.append hstand

/-! ## The queue -/

/-- The work list names the records that are still blank, and the others are filled. -/
structure Pending (cur : List Alloc) (done : Nat → Nat) (wl : List WlItem) : Prop where
  src : ∀ it ∈ wl, cur[it.dst]? = some it.src
  nodup : (wl.map WlItem.dst).Nodup
  blank : ∀ it ∈ wl, done it.dst = 0
  filled : ∀ j (a : Alloc), cur[j]? = some a → j ∉ wl.map WlItem.dst → done j = a.data.length

/-- Finishing one item of the queue leaves those behind it and the ones it opened pending. -/
theorem Pending.step {item : WlItem} {next items : List WlItem}
    (h : Pending cur done (item :: next)) (hlater : ∀ j, cur.length ≤ j → done j = 0)
    (hitems : Stand items cur.length new) :
    Pending (cur ++ new) (Function.update done item.dst item.src.data.length) (items ++ next) := by
  have hitem := h.src item List.mem_cons_self
  have hlt := (List.getElem?_eq_some_iff.mp hitem).1
  have hnodup := List.nodup_cons.mp h.nodup
  have hnext : ∀ it ∈ next, it.dst < cur.length := fun it hit =>
    (List.getElem?_eq_some_iff.mp (h.src it (List.mem_cons_of_mem _ hit))).1
  have hnew : ∀ it ∈ items, cur.length ≤ it.dst := fun it hit =>
    (List.mem_range'_1.mp (hitems.perm.mem_iff.mp (List.mem_map_of_mem hit))).1
  refine ⟨?_, ?_, ?_, ?_⟩
  · rintro it hit
    rcases List.mem_append.mp hit with hit | hit
    · rw [List.getElem?_append_right (hnew it hit)]
      exact hitems.src it hit
    · rw [List.getElem?_append_left (hnext it hit)]
      exact h.src it (List.mem_cons_of_mem _ hit)
  · rw [List.map_append]
    refine List.nodup_append.mpr
      ⟨hitems.perm.nodup_iff.mpr (List.nodup_range' ..), hnodup.2, ?_⟩
    rintro i hi j hj rfl
    obtain ⟨it, hit, rfl⟩ := List.mem_map.mp hi
    obtain ⟨it', hit', heq⟩ := List.mem_map.mp hj
    have := hnew it hit
    have := hnext it' hit'
    omega
  · rintro it hit
    rcases List.mem_append.mp hit with hit | hit
    · have := hnew it hit
      rw [Function.update_of_ne (by omega), hlater _ this]
    · have hne : it.dst ≠ item.dst := fun heq =>
        hnodup.1 (List.mem_map.mpr ⟨it, hit, heq⟩)
      rw [Function.update_of_ne hne]
      exact h.blank it (List.mem_cons_of_mem _ hit)
  · rintro j a ha hj
    rw [List.map_append, List.mem_append, not_or] at hj
    by_cases hji : j = item.dst
    · subst hji
      rw [List.getElem?_append_left hlt] at ha
      rw [Function.update_self, Option.some.inj (hitem.symm.trans ha)]
    · rw [Function.update_of_ne hji]
      rcases Nat.lt_or_ge j cur.length with hjc | hjc
      · rw [List.getElem?_append_left hjc] at ha
        refine h.filled j a ha ?_
        rw [List.map_cons, List.mem_cons, not_or]
        exact ⟨hji, hj.2⟩
      · rw [List.getElem?_append_right hjc] at ha
        refine absurd (hitems.perm.mem_iff.mpr (List.mem_range'_1.mpr ⟨hjc, ?_⟩)) hj.1
        have := (List.getElem?_eq_some_iff.mp ha).1
        omega

/-- Processing the queue fills every record of the message. -/
theorem processQueue_spec {depth : Nat} (hclosed : Closed heap ctx₀.base prev S)
    (hdepth : heap.allocs.length < depth) :
    ∀ {fuel : Nat} {cur : List Alloc} {done : Nat → Nat} {ctx : PickleCtx},
      Progress heap S ctx₀ prev cur done ctx → Pending cur done ctx.wl →
      ctx.wl.length + unwritten heap (prev ++ cur) ≤ fuel →
      (∃ new ctx' done', processQueue heap depth fuel ctx = some ctx' ∧ ctx'.wl = [] ∧
        Progress heap S ctx₀ prev (cur ++ new) done' ctx' ∧
        (∀ j (a : Alloc), (cur ++ new)[j]? = some a → done' j = a.data.length)) ∨
      processQueue heap depth fuel ctx = none ∧ Oversized S := by
  intro fuel
  induction fuel with
  | zero =>
    rintro cur done ctx h hpend hfuel
    have hwl : ctx.wl = [] := List.eq_nil_of_length_eq_zero (by omega)
    refine Or.inl ⟨[], ctx, done, by simp [processQueue, hwl], hwl, by simpa using h, ?_⟩
    rintro j a ha
    exact hpend.filled j a (by simpa using ha) (by simp [hwl])
  | succ fuel ih =>
    rintro cur done ctx h hpend hfuel
    cases hwl : ctx.wl with
    | nil =>
      refine Or.inl ⟨[], ctx, done, by simp [processQueue, hwl], hwl, by simpa using h, ?_⟩
      rintro j a ha
      exact hpend.filled j a (by simpa using ha) (by simp [hwl])
    | cons item next =>
      rw [hwl] at hpend hfuel
      have hitem := hpend.src item List.mem_cons_self
      have hpopped : Progress heap S ctx₀ prev cur done { ctx with wl := next } :=
        { h with ready := h.ready.of_lens rfl rfl rfl rfl rfl rfl rfl }
      obtain ⟨new₁, ctx₁, items, hloop, hprog, hwl₁, hstand⟩ | ⟨hloop, hlarge⟩ :=
        Progress.words hclosed hdepth (item.curOffset + BitVec.ofNat 64 headerLen) hpopped hitem
          (hpend.blank item List.mem_cons_self) (Nat.zero_le _) List.drop_zero
      swap
      · right
        refine ⟨?_, hlarge⟩
        simp only [processQueue, hwl, processQueueItem, Option.bind_eq_bind]
        rw [hloop, Option.bind_none]
      have hpend₁ : Pending (cur ++ new₁) _ ctx₁.wl := hwl₁ ▸ hpend.step h.later hstand
      have hcount : items.length = new₁.length := by
        have := hstand.perm.length_eq
        simpa using this
      have hroom : unwritten heap (prev ++ cur ++ new₁) + new₁.length ≤
          unwritten heap (prev ++ cur) := unwritten_append
        (fun a ha => (hprog.mem a (List.mem_append_right _ ha)).1)
        ((fresh_append.mp hprog.fresh).2)
      have hfuel₁ : ctx₁.wl.length + unwritten heap (prev ++ (cur ++ new₁)) ≤ fuel := by
        rw [hwl₁, List.length_append, hcount, ← List.append_assoc]
        simp only [List.length_cons] at hfuel ⊢
        omega
      have hnow : processQueue heap depth (fuel + 1) ctx = processQueue heap depth fuel ctx₁ := by
        simp only [processQueue, hwl, processQueueItem, Option.bind_eq_bind]
        rw [hloop, Option.bind_some]
      rw [hnow]
      obtain ⟨new₂, ctx₂, done₂, hrec, hempty, hprog₂, hall⟩ | hrefused := ih hprog hpend₁ hfuel₁
      swap
      · exact Or.inr hrefused
      left
      refine ⟨new₁ ++ new₂, ctx₂, done₂, hrec, hempty, ?_, ?_⟩
      · rw [← List.append_assoc]
        exact hprog₂
      · rw [← List.append_assoc]
        exact hall

end N00b.Marshal
