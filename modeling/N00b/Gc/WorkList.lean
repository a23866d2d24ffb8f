import Mathlib

/-!
# The work list of the collector

heap_collect.nc: `setup_work_list`, `enqueue_work`, `dequeue_work`, `delete_work_list`.

## Representation

* A page is `entries_per_page` words for items, and one that links to the next page. The memory gives
  the pages that are mapped; what touches another word, or fails an assertion, has no result.
* `n00b_unprotected_mempage` gives any address that is not in use, and a page of zeros.
* `total_items` is only logged, and left out.

## Main results

* `Inv.enqueue`, `Inv.dequeue`: what the operations do to the pages.
-/

namespace N00b.Gc

abbrev Pages := ℕ → Option (ℕ → ℕ)

/-- `n00b_work_list_t`, with the memory. -/
structure WorkList where
  entriesPerPage : ℕ
  readIndex : ℕ
  writeIndex : ℕ
  readPage : ℕ
  writePage : ℕ
  pages : Pages

namespace WorkList

def load (wl : WorkList) (page ix : ℕ) : Option ℕ :=
  if ix ≤ wl.entriesPerPage then (wl.pages page).map (· ix) else none

def store (wl : WorkList) (page ix value : ℕ) : Option WorkList :=
  if ix ≤ wl.entriesPerPage then
    (wl.pages page).map fun f =>
      { wl with pages := Function.update wl.pages page (some (Function.update f ix value)) }
  else none

/-- `n00b_unprotected_mempage`, at an address. -/
def unprotectedMempage (wl : WorkList) (page : ℕ) : WorkList :=
  { wl with pages := Function.update wl.pages page (some fun _ => 0) }

/-- `n00b_delete_mempage`. -/
def deleteMempage (wl : WorkList) (page : ℕ) : Option WorkList :=
  (wl.pages page).map fun _ => { wl with pages := Function.update wl.pages page none }

end WorkList

/-- `setup_work_list`, with its first page. -/
def setupWorkList (pages : Pages) (entriesPerPage page : ℕ) : WorkList :=
  WorkList.unprotectedMempage
    { entriesPerPage, readIndex := 0, writeIndex := 0, readPage := page, writePage := page, pages }
    page

/-- `enqueue_work`, with the address of a new page. -/
def enqueueWork (wl : WorkList) (hdr newPage : ℕ) : Option WorkList := do
  let n := wl.writeIndex
  let wl := { wl with writeIndex := wl.writeIndex + 1 }
  if n = wl.entriesPerPage then
    let wl := wl.unprotectedMempage newPage
    let wl ← wl.store wl.writePage n newPage
    WorkList.store { wl with writePage := newPage, writeIndex := 1 } newPage 0 hdr
  else wl.store wl.writePage n hdr

/-- `dequeue_work`: an item, or 0, and the page that was deleted. -/
def dequeueWork (wl : WorkList) : Option (ℕ × Option ℕ × WorkList) := do
  if wl.readIndex = wl.writeIndex ∧ wl.readPage = wl.writePage then some (0, none, wl)
  else
    let n := wl.readIndex
    let wl := { wl with readIndex := wl.readIndex + 1 }
    if n = wl.entriesPerPage then
      let nextPage ← wl.load wl.readPage n
      let readPage := wl.readPage
      let wl ← wl.deleteMempage readPage
      let wl := { wl with readPage := nextPage, readIndex := 1 }
      return (← wl.load wl.readPage 0, some readPage, wl)
    else return (← wl.load wl.readPage n, none, wl)

/-- `delete_work_list`: the memory that is left. -/
def deleteWorkList (wl : WorkList) : Option Pages := do
  let link ← wl.load wl.readPage wl.entriesPerPage
  if wl.readPage = wl.writePage ∧ link = 0 then return (← wl.deleteMempage wl.readPage).pages
  else none

/-! ## Runs -/

/-- A call, and the address that `n00b_unprotected_mempage` would give. -/
inductive WorkOp where
  | enqueue (hdr newPage : ℕ)
  | dequeue

/-- What a call returns; and the page that an item was written to, or the one that was deleted. -/
inductive WorkReply where
  | enqueued (page : ℕ)
  | dequeued (item : ℕ) (deleted : Option ℕ)

def WorkList.exec (wl : WorkList) : WorkOp → Option (WorkList × WorkReply)
  | .enqueue hdr newPage => (enqueueWork wl hdr newPage).map fun wl' => (wl', .enqueued wl'.writePage)
  | .dequeue => (dequeueWork wl).map fun (item, deleted, wl') => (wl', .dequeued item deleted)

def WorkList.run : WorkList → List WorkOp → Option (WorkList × List WorkReply)
  | wl, [] => some (wl, [])
  | wl, op :: ops => do
    let (wl, reply) ← wl.exec op
    let (wl, replies) ← wl.run ops
    return (wl, reply :: replies)

/-- Items are not NULL, and a new page is not one that is in use. -/
def WorkOp.Allowed (wl : WorkList) : WorkOp → Prop
  | .enqueue hdr newPage => hdr ≠ 0 ∧ wl.pages newPage = none
  | .dequeue => True

def WorkList.Allowed : WorkList → List WorkOp → Prop
  | _, [] => True
  | wl, op :: ops => op.Allowed wl ∧ ∀ wl' reply, wl.exec op = some (wl', reply) → wl'.Allowed ops

/-- The calls of a queue that holds items, each with the page it was written to. The oldest item is
returned, or NULL if there is none; and a page that is deleted holds no item of the queue. -/
inductive Fifo : List (ℕ × ℕ) → List WorkOp → List WorkReply → List (ℕ × ℕ) → Prop where
  | nil (q : List (ℕ × ℕ)) : Fifo q [] [] q
  | enqueue {q q' : List (ℕ × ℕ)} {hdr newPage page : ℕ} {ops : List WorkOp}
      {replies : List WorkReply} (hrest : Fifo (q ++ [(hdr, page)]) ops replies q') :
      Fifo q (.enqueue hdr newPage :: ops) (.enqueued page :: replies) q'
  | none {q' : List (ℕ × ℕ)} {ops : List WorkOp} {replies : List WorkReply}
      (hrest : Fifo [] ops replies q') : Fifo [] (.dequeue :: ops) (.dequeued 0 none :: replies) q'
  | oldest {x : ℕ × ℕ} {q q' : List (ℕ × ℕ)} {deleted : Option ℕ} {ops : List WorkOp}
      {replies : List WorkReply} (hitem : x.1 ≠ 0)
      (hdeleted : ∀ page ∈ deleted, ∀ y ∈ x :: q, y.2 ≠ page) (hrest : Fifo q ops replies q') :
      Fifo (x :: q) (.dequeue :: ops) (.dequeued x.1 deleted :: replies) q'

/-! ## The pages of a list -/

/-- The pages from the one that is read to the one that is written, the items on them (those that
were returned too) and the number of items on the last one. -/
inductive Chain (E : ℕ) (pages : Pages) : List ℕ → List (ℕ × ℕ) → ℕ → Prop where
  | last {p n : ℕ} {ws : List (ℕ × ℕ)} {f : ℕ → ℕ} (hpage : pages p = some f) (hlink : f E = 0)
      (hn : ws.length = n) (hle : n ≤ E) (hitems : ∀ i x, ws[i]? = some x → f i = x.1 ∧ x.2 = p) :
      Chain E pages [p] ws n
  | full {p p' n : ℕ} {ps : List ℕ} {ws rest : List (ℕ × ℕ)} {f : ℕ → ℕ} (hpage : pages p = some f)
      (hlink : f E = p') (hlen : ws.length = E)
      (hitems : ∀ i x, ws[i]? = some x → f i = x.1 ∧ x.2 = p) (hnot : p ∉ p' :: ps) (hpos : 1 ≤ n)
      (hrest : Chain E pages (p' :: ps) rest n) : Chain E pages (p :: p' :: ps) (ws ++ rest) n

namespace Chain

variable {E n : ℕ} {pages pages' : Pages} {ps : List ℕ} {ws : List (ℕ × ℕ)}

/-- A chain depends on its own pages only. -/
theorem congr (h : Chain E pages ps ws n) (heq : ∀ p ∈ ps, pages' p = pages p) :
    Chain E pages' ps ws n := by
  induction h with
  | last hpage hlink hn hle hitems =>
    exact .last ((heq _ (by simp)).trans hpage) hlink hn hle hitems
  | full hpage hlink hlen hitems hnot hpos _ ih =>
    have hrest := ih fun q hq => heq q (List.mem_cons_of_mem _ hq)
    exact .full ((heq _ (by simp)).trans hpage) hlink hlen hitems hnot hpos hrest

/-- The pages of a chain are mapped. -/
theorem mapped (h : Chain E pages ps ws n) {p : ℕ} (hp : p ∈ ps) : ∃ f, pages p = some f := by
  induction h with
  | last hpage _ _ _ _ =>
    obtain rfl := List.mem_singleton.mp hp
    exact ⟨_, hpage⟩
  | full hpage _ _ _ _ _ _ ih =>
    rcases List.mem_cons.mp hp with rfl | hp
    · exact ⟨_, hpage⟩
    · exact ih hp

/-- Every item of a chain lies on one of its pages. -/
theorem page_mem (h : Chain E pages ps ws n) {x : ℕ × ℕ} (hx : x ∈ ws) : x.2 ∈ ps := by
  induction h with
  | last _ _ _ _ hitems =>
    obtain ⟨i, hi⟩ := List.mem_iff_getElem?.mp hx
    exact List.mem_singleton.mpr (hitems i x hi).2
  | full _ _ _ hitems _ _ _ ih =>
    rcases List.mem_append.mp hx with hx | hx
    · obtain ⟨i, hi⟩ := List.mem_iff_getElem?.mp hx
      exact List.mem_cons.mpr (.inl (hitems i x hi).2)
    · exact List.mem_cons_of_mem _ (ih hx)

/-- The write index lies within a page. -/
theorem index_le (h : Chain E pages ps ws n) : n ≤ E := by
  induction h with
  | last _ _ _ hle _ => exact hle
  | full _ _ _ _ _ _ _ ih => exact ih

/-- The chain has at least the items of its last page. -/
theorem le_length (h : Chain E pages ps ws n) : n ≤ ws.length := by
  induction h with
  | last _ _ hn _ _ => exact hn.ge
  | full _ _ _ _ _ _ _ ih => simp only [List.length_append]; omega

/-- The first page of a chain holds its first items. -/
theorem read (h : Chain E pages ps ws n) {p : ℕ} (hp : ps.head? = some p) :
    ∃ f, pages p = some f ∧ ∀ i x, i < E → ws[i]? = some x → f i = x.1 := by
  cases h with
  | last hpage _ _ _ hitems =>
    obtain rfl : _ = p := Option.some.inj hp
    exact ⟨_, hpage, fun i x _ hx => (hitems i x hx).1⟩
  | full hpage _ hlen hitems _ _ _ =>
    obtain rfl : _ = p := Option.some.inj hp
    refine ⟨_, hpage, fun i x hi hx => (hitems i x ?_).1⟩
    rwa [List.getElem?_append_left (by omega)] at hx

/-- One more item on a page comes behind the others. -/
theorem items_concat {f : ℕ → ℕ} {p hdr : ℕ} (hn : ws.length = n)
    (hitems : ∀ i x, ws[i]? = some x → f i = x.1 ∧ x.2 = p) :
    ∀ i x, (ws ++ [(hdr, p)])[i]? = some x → Function.update f n hdr i = x.1 ∧ x.2 = p := by
  intro i x hx
  rcases Nat.lt_trichotomy i ws.length with hi | hi | hi
  · rw [List.getElem?_append_left hi] at hx
    rw [Function.update_of_ne (by omega)]
    exact hitems i x hx
  · subst hi
    simp only [List.getElem?_concat_length, Option.some.injEq] at hx
    rw [← hx, hn, Function.update_self]
    exact ⟨rfl, rfl⟩
  · rw [List.getElem?_eq_none (by simp; omega)] at hx
    cases hx

/-- Storing an item on the last page extends the chain. -/
theorem store (h : Chain E pages ps ws n) {p : ℕ} (hp : ps.getLast? = some p) (hlt : n < E)
    (hdr : ℕ) : ∃ f, pages p = some f ∧
      Chain E (Function.update pages p (some (Function.update f n hdr))) ps (ws ++ [(hdr, p)])
        (n + 1) := by
  induction h with
  | @last q n ws f hpage hlink hn hle hitems =>
    obtain rfl : q = p := by simpa using hp
    refine ⟨f, hpage, .last (Function.update_self ..) ?_ (by simp [hn]) hlt (items_concat hn hitems)⟩
    rw [Function.update_of_ne (by omega), hlink]
  | full hpage hlink hlen hitems hnot hpos _ ih =>
    rw [List.getLast?_cons_cons] at hp
    obtain ⟨f, hf, hrest⟩ := ih hp hlt
    have hne := ne_of_mem_of_not_mem (List.mem_of_getLast? hp) hnot
    rw [List.append_assoc]
    refine ⟨f, hf, .full ?_ hlink hlen hitems hnot (by omega) hrest⟩
    rw [Function.update_of_ne hne.symm, hpage]

/-- Linking a new page to a full one extends the chain. -/
theorem link (h : Chain E pages ps ws n) {p newPage : ℕ} (hp : ps.getLast? = some p) (hn : n = E)
    (hE : 1 ≤ E) (hnew : newPage ∉ ps) {g : ℕ → ℕ} (hg : g E = 0) (hdr : ℕ) : ∃ f, pages p = some f ∧
      Chain E (Function.update (Function.update pages p (some (Function.update f E newPage))) newPage
        (some (Function.update g 0 hdr))) (ps ++ [newPage]) (ws ++ [(hdr, newPage)]) 1 := by
  induction h with
  | @last q n ws f hpage hlink hlen hle hitems =>
    obtain rfl : q = p := by simpa using hp
    have hne : q ≠ newPage := fun he => hnew (by simp [he])
    have hlast : Chain E (Function.update
        (Function.update pages q (some (Function.update f E newPage))) newPage
        (some (Function.update g 0 hdr))) [newPage] [(hdr, newPage)] 1 := by
      refine .last (Function.update_self ..) ?_ rfl hE (@items_concat 0 [] g newPage hdr rfl (by simp))
      rw [Function.update_of_ne (by omega), hg]
    refine ⟨f, hpage, .full (f := Function.update f E newPage) ?_ (Function.update_self ..)
      (hlen.trans hn) ?_ (by simp [hne]) (Nat.le_refl 1) hlast⟩
    · rw [Function.update_of_ne hne, Function.update_self]
    · intro i x hx
      have hi := (List.getElem?_eq_some_iff.mp hx).1
      rw [Function.update_of_ne (by omega)]
      exact hitems i x hx
  | full hpage hlink hlen hitems hnot hpos _ ih =>
    rw [List.getLast?_cons_cons] at hp
    obtain ⟨f, hf, hrest⟩ := ih hp hn (fun hm => hnew (List.mem_cons_of_mem _ hm))
    have hne := ne_of_mem_of_not_mem (List.mem_of_getLast? hp) hnot
    have hne' := ne_of_mem_of_not_mem (List.mem_cons_self ..) hnew
    rw [List.append_assoc]
    refine ⟨f, hf, .full ?_ hlink hlen hitems ?_ (Nat.le_refl 1) hrest⟩
    · rw [Function.update_of_ne hne', Function.update_of_ne hne.symm, hpage]
    · simpa [hne'] using hnot

end Chain

/-! ## The invariant -/

/-- A list in memory, with its pages and the items on them. -/
structure WorkList.Inv (memory : Pages) (wl : WorkList) (ps : List ℕ) (ws : List (ℕ × ℕ)) : Prop where
  chain : Chain wl.entriesPerPage wl.pages ps ws wl.writeIndex
  read : ps.head? = some wl.readPage
  write : ps.getLast? = some wl.writePage
  readIndex_le : wl.readIndex ≤ wl.entriesPerPage
  readIndex_le_length : wl.readIndex ≤ ws.length
  item_ne : ∀ x ∈ ws, x.1 ≠ 0
  other : ∀ p ∉ ps, wl.pages p = memory p
  new : ∀ p ∈ ps, memory p = none

namespace WorkList

variable {memory : Pages} {wl : WorkList} {ps : List ℕ} {ws : List (ℕ × ℕ)}

/-- A new work list has one page and no items. -/
theorem Inv.setup {E page : ℕ} (hpage : memory page = none) :
    (setupWorkList memory E page).Inv memory [page] [] where
  chain := .last (Function.update_self ..) rfl rfl (Nat.zero_le E) (by simp)
  read := rfl
  write := rfl
  readIndex_le := Nat.zero_le E
  readIndex_le_length := Nat.le_refl 0
  item_ne := by simp
  other p hp := Function.update_of_ne (by simpa using hp) ..
  new p hp := by rwa [List.mem_singleton.mp hp]

/-- A page that is not mapped is none of the list's. -/
theorem Inv.new_page (h : wl.Inv memory ps ws) {page : ℕ} (hpage : wl.pages page = none) :
    page ∉ ps ∧ memory page = none := by
  have hnot : page ∉ ps := by
    intro hm
    obtain ⟨f, hf⟩ := h.chain.mapped hm
    rw [hf] at hpage
    cases hpage
  exact ⟨hnot, (h.other page hnot).symm.trans hpage⟩

/-- A list whose chain got one more item meets the invariant. -/
theorem Inv.enqueued (h : wl.Inv memory ps ws) {ps' : List ℕ} {pages : Pages}
    {hdr writePage writeIndex : ℕ} (hhdr : hdr ≠ 0)
    (hchain : Chain wl.entriesPerPage pages ps' (ws ++ [(hdr, writePage)]) writeIndex)
    (hread : ps'.head? = some wl.readPage) (hwrite : ps'.getLast? = some writePage)
    (hother : ∀ p ∉ ps', pages p = memory p) (hnew : ∀ p ∈ ps', memory p = none) :
    Inv memory { wl with pages, writePage, writeIndex } ps' (ws ++ [(hdr, writePage)]) where
  chain := hchain
  read := hread
  write := hwrite
  readIndex_le := h.readIndex_le
  readIndex_le_length := by
    have hle := h.readIndex_le_length
    simp only [List.length_append]
    omega
  item_ne x hx := by
    rcases List.mem_append.mp hx with hx | hx
    · exact h.item_ne x hx
    · rw [List.mem_singleton.mp hx]; exact hhdr
  other := hother
  new := hnew

/-- Enqueueing puts the item behind the others. -/
theorem Inv.enqueue (h : wl.Inv memory ps ws) (hE : 1 ≤ wl.entriesPerPage) {hdr newPage : ℕ}
    (hhdr : hdr ≠ 0) (hpage : wl.pages newPage = none) :
    ∃ wl' ps', enqueueWork wl hdr newPage = some wl' ∧
      wl'.Inv memory ps' (ws ++ [(hdr, wl'.writePage)]) ∧ wl'.readIndex = wl.readIndex ∧
      wl'.entriesPerPage = wl.entriesPerPage := by
  obtain ⟨hnew, hmemory⟩ := h.new_page hpage
  have hwrite := List.mem_of_getLast? h.write
  by_cases hn : wl.writeIndex = wl.entriesPerPage
  · have hne : newPage ≠ wl.writePage := (ne_of_mem_of_not_mem hwrite hnew).symm
    obtain ⟨f, hf, hchain⟩ := h.chain.link h.write hn hE hnew (g := fun _ => 0) rfl hdr
    -- the new page is zeroed before the link is written, which the chain does not show
    have hpages (X Y : Option (ℕ → ℕ)) : Function.update (Function.update (Function.update wl.pages
        newPage (some fun _ => 0)) wl.writePage X) newPage Y =
        Function.update (Function.update wl.pages wl.writePage X) newPage Y := by
      rw [Function.update_comm hne, Function.update_idem]
    have hps := List.ne_nil_of_mem hwrite
    refine ⟨_, ps ++ [newPage], ?_, h.enqueued hhdr hchain ?_ ?_ ?_ ?_, rfl, rfl⟩
    · have hzero (X : Option (ℕ → ℕ)) : Function.update (Function.update wl.pages
          newPage (some fun _ => 0)) wl.writePage X newPage = some fun _ => 0 := by
        rw [Function.update_of_ne hne, Function.update_self]
      simp [enqueueWork, store, unprotectedMempage, hn, hf, hne.symm, hpages, hzero]
    · rw [List.head?_append_of_ne_nil _ hps, h.read]
    · simp
    · intro p hp
      simp only [List.mem_append, List.mem_singleton, not_or] at hp
      rw [Function.update_of_ne hp.2,
        Function.update_of_ne (ne_of_mem_of_not_mem hwrite hp.1).symm]
      exact h.other p hp.1
    · intro p hp
      rcases List.mem_append.mp hp with hp | hp
      · exact h.new p hp
      · rwa [List.mem_singleton.mp hp]
  · have hlt := Nat.lt_of_le_of_ne h.chain.index_le hn
    obtain ⟨f, hf, hchain⟩ := h.chain.store h.write hlt hdr
    refine ⟨_, ps, ?_, h.enqueued hhdr hchain h.read h.write ?_ h.new, rfl, rfl⟩
    · simp [enqueueWork, store, hn, hf, h.chain.index_le]
    · intro p hp
      rw [Function.update_of_ne (ne_of_mem_of_not_mem hwrite hp).symm]
      exact h.other p hp

/-- The indices and pages meet iff no items are left. -/
theorem Inv.empty_iff (h : wl.Inv memory ps ws) :
    wl.readIndex = wl.writeIndex ∧ wl.readPage = wl.writePage ↔ ws.drop wl.readIndex = [] := by
  rw [List.drop_eq_nil_iff]
  obtain ⟨hchain, hread, hwrite, hle, hlen, -, -, -⟩ := h
  cases hchain with
  | last _ _ hn _ _ =>
    obtain rfl := Option.some.inj hread
    obtain hpages := Option.some.inj hwrite
    constructor
    · rintro ⟨hindex, -⟩
      omega
    · intro hend
      exact ⟨by omega, hpages⟩
  | full _ _ hfull _ hnot hpos hrest =>
    obtain rfl := Option.some.inj hread
    rw [List.getLast?_cons_cons] at hwrite
    have hrest := hrest.le_length
    constructor
    · rintro ⟨-, hpage⟩
      rw [hpage] at hnot
      exact absurd (List.mem_of_getLast? hwrite) hnot
    · intro hend
      rw [List.length_append] at hend
      omega

/-- Dequeueing takes the first item and gives back no page that an item lies on. -/
theorem Inv.dequeue (h : wl.Inv memory ps ws) {x : ℕ × ℕ} {q : List (ℕ × ℕ)}
    (hq : ws.drop wl.readIndex = x :: q) :
    ∃ wl' ps' ws' deleted, dequeueWork wl = some (x.1, deleted, wl') ∧ wl'.Inv memory ps' ws' ∧
      ws'.drop wl'.readIndex = q ∧ (∀ page ∈ deleted, ∀ y ∈ x :: q, y.2 ≠ page) ∧
      wl'.entriesPerPage = wl.entriesPerPage := by
  have hempty : ¬(wl.readIndex = wl.writeIndex ∧ wl.readPage = wl.writePage) := by
    rw [h.empty_iff, hq]
    simp
  have hx : ws[wl.readIndex]? = some x := by rw [← List.head?_drop, hq]; rfl
  have hlt := (List.getElem?_eq_some_iff.mp hx).1
  by_cases hn : wl.readIndex = wl.entriesPerPage
  · -- the page was read to its end, and there is another one
    obtain ⟨hchain, hread, hwrite, -, -, hne, hother, hnew⟩ := h
    cases hchain with
    | last _ _ hn' hle' _ => omega
    | @full p p' n ps ws rest f hpage hlink hlen _ hnot hpos hrest =>
      obtain rfl := Option.some.inj hread
      obtain rfl : rest = x :: q := by rwa [hn, ← hlen, List.drop_left] at hq
      obtain ⟨g, hg, hitems⟩ := hrest.read (p := p') rfl
      have hp' : p' ≠ wl.readPage := by
        rintro rfl
        exact hnot (List.mem_cons_self ..)
      have hchain := @Chain.congr _ _ _ (Function.update wl.pages wl.readPage none) _ _ hrest fun p hp =>
        Function.update_of_ne (ne_of_mem_of_not_mem hp hnot) ..
      have hle : 1 ≤ wl.entriesPerPage := hpos.trans hrest.index_le
      refine ⟨{ wl with
          readPage := p'
          readIndex := 1
          pages := Function.update wl.pages wl.readPage none },
        p' :: ps, x :: q, some wl.readPage, ?_, ⟨hchain, rfl, ?_, hle, by simp, ?_, ?_, ?_⟩, rfl, ?_,
        rfl⟩
      · rw [dequeueWork, if_neg hempty]
        simp [hn, load, deleteMempage, hpage, hlink, hp', hg, hitems 0 x hle rfl]
      · rwa [List.getLast?_cons_cons] at hwrite
      · exact fun y hy => hne y (List.mem_append_right _ hy)
      · intro r hr
        by_cases hrp : r = wl.readPage
        · subst hrp
          exact (Function.update_self ..).trans (hnew _ (List.mem_cons_self ..)).symm
        · refine (Function.update_of_ne hrp ..).trans (hother r ?_)
          simp only [List.mem_cons] at hr ⊢
          tauto
      · exact fun r hr => hnew r (List.mem_cons_of_mem _ hr)
      · rintro page ⟨⟩ y hy
        exact ne_of_mem_of_not_mem (hrest.page_mem hy) hnot
  · have hle := h.readIndex_le
    obtain ⟨f, hf, hitems⟩ := h.chain.read h.read
    refine ⟨{ wl with readIndex := wl.readIndex + 1 }, ps, ws, none, ?_,
      { h with readIndex_le := by simp only; omega, readIndex_le_length := hlt }, ?_, by simp, rfl⟩
    · simp [dequeueWork, hempty, hn, load, hle, hf, hitems _ x (by omega) hx]
    · rw [← List.tail_drop, hq]; rfl

/-- Deleting an empty list gives all its pages back. -/
theorem Inv.delete (h : wl.Inv memory ps ws) (hq : ws.drop wl.readIndex = []) :
    deleteWorkList wl = some memory := by
  have hpages := (h.empty_iff.mpr hq).2
  obtain ⟨hchain, hread, hwrite, -, -, -, hother, hnew⟩ := h
  cases hchain with
  | @last p _ _ f hpage hlink _ _ _ =>
    obtain rfl := Option.some.inj hread
    have hmemory : Function.update wl.pages wl.readPage none = memory := by
      funext r
      by_cases hr : r = wl.readPage
      · subst hr
        exact (Function.update_self ..).trans (hnew _ (List.mem_cons_self ..)).symm
      · exact (Function.update_of_ne hr ..).trans (hother r (by simpa using hr))
    simp [deleteWorkList, load, hpage, hlink, ← hpages, deleteMempage, hmemory]
  | full _ _ _ _ hnot _ _ =>
    obtain rfl := Option.some.inj hread
    rw [List.getLast?_cons_cons] at hwrite
    rw [hpages] at hnot
    exact absurd (List.mem_of_getLast? hwrite) hnot

/-- Any allowed operations are first in, first out. -/
theorem Inv.run (ops : List WorkOp) (h : wl.Inv memory ps ws) (hE : 1 ≤ wl.entriesPerPage)
    (hops : wl.Allowed ops) : ∃ wl' replies q, wl.run ops = some (wl', replies) ∧
      Fifo (ws.drop wl.readIndex) ops replies q ∧ (q = [] → deleteWorkList wl' = some memory) := by
  induction ops generalizing wl ps ws with
  | nil => exact ⟨wl, [], _, rfl, .nil _, h.delete⟩
  | cons op ops ih =>
    obtain ⟨hop, hops⟩ := hops
    cases op with
    | enqueue hdr newPage =>
      obtain ⟨wl', ps', henq, h', hindex, hentries⟩ := h.enqueue hE hop.1 hop.2
      have hexec : wl.exec (.enqueue hdr newPage) = some (wl', .enqueued wl'.writePage) := by
        rw [exec, henq, Option.map_some]
      obtain ⟨wl'', replies, q, hrun, hfifo, hend⟩ := ih h' (hentries ▸ hE) (hops _ _ hexec)
      rw [hindex, List.drop_append_of_le_length h.readIndex_le_length] at hfifo
      exact ⟨wl'', _, q, by simp [WorkList.run, hexec, hrun], .enqueue hfifo, hend⟩
    | dequeue =>
      rcases hq : ws.drop wl.readIndex with _ | ⟨x, q⟩
      · have hexec : wl.exec .dequeue = some (wl, .dequeued 0 none) := by
          rw [exec, dequeueWork, if_pos (h.empty_iff.mpr hq), Option.map_some]
        obtain ⟨wl'', replies, q, hrun, hfifo, hend⟩ := ih h hE (hops _ _ hexec)
        rw [hq] at hfifo
        exact ⟨wl'', _, q, by simp [WorkList.run, hexec, hrun], .none hfifo, hend⟩
      · obtain ⟨wl', ps', ws', deleted, hdeq, h', hq', hdeleted, hentries⟩ := h.dequeue hq
        have hexec : wl.exec .dequeue = some (wl', .dequeued x.1 deleted) := by
          rw [exec, hdeq, Option.map_some]
        obtain ⟨wl'', replies, q', hrun, hfifo, hend⟩ := ih h' (hentries ▸ hE) (hops _ _ hexec)
        have hx : x ∈ ws := List.mem_of_mem_drop (hq ▸ List.mem_cons_self ..)
        rw [hq'] at hfifo
        exact ⟨wl'', _, q', by simp [WorkList.run, hexec, hrun],
          .oldest (h.item_ne x hx) hdeleted hfifo, hend⟩

end WorkList

/-- The work list is a queue. Behind a run that returned every item, `delete_work_list` leaves the
memory that was there before the list. -/
theorem run_fifo {memory : Pages} {E page : ℕ} (hE : 1 ≤ E) (hpage : memory page = none)
    (ops : List WorkOp) (hops : (setupWorkList memory E page).Allowed ops) :
    ∃ wl replies q, (setupWorkList memory E page).run ops = some (wl, replies) ∧
      Fifo [] ops replies q ∧ (q = [] → deleteWorkList wl = some memory) :=
  (WorkList.Inv.setup hpage).run ops hE hops

/-- Three items on pages of one, with a NULL between them. -/
theorem run_fifo_pages : ∃ wl replies q, (setupWorkList (fun _ => none) 1 8).run
      [.enqueue 3 16, .dequeue, .dequeue, .enqueue 4 16, .enqueue 5 24, .dequeue, .dequeue] =
        some (wl, replies) ∧
      Fifo [] [.enqueue 3 16, .dequeue, .dequeue, .enqueue 4 16, .enqueue 5 24, .dequeue, .dequeue]
        replies q ∧ (q = [] → deleteWorkList wl = some fun _ => none) := by
  refine run_fifo (Nat.le_refl 1) rfl _ ?_
  simp [WorkList.Allowed, WorkOp.Allowed, WorkList.exec, setupWorkList, enqueueWork, dequeueWork,
    WorkList.load, WorkList.store, WorkList.unprotectedMempage, WorkList.deleteMempage,
    Function.update_apply]

end N00b.Gc
