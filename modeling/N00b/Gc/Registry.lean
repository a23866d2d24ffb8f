import Mathlib

/-!
# The heap registry

The records of all heaps lie in pages that are linked in a list: `n00b_add_heap_entry_page`,
`_n00b_new_heap` and `n00b_delete_heap` of core/heap_alloc.nc, `n00b_addr_find_heap` of core/heap.nc
and `trace_all_roots` of core/heap_collect.nc.

All three walks over the records are one loop with a body of its own. It moves a pointer and an index
along together, and takes the index for a page boundary whenever the number of records in a page
divides it.
-/

namespace N00b.Gc

/-! ## Records -/

/-- `n00b_arena_t`, the part that says which addresses it has. -/
structure Arena where
  addrStart : Nat
  addrEnd : Nat
deriving DecidableEq, Repr

/-- `n00b_addr_in_arena`. -/
def addrInArena (a : Arena) (addr : Nat) : Prop :=
  a.addrStart ≤ addr ∧ addr < a.addrEnd

instance (a : Arena) (addr : Nat) : Decidable (addrInArena a addr) :=
  inferInstanceAs (Decidable (_ ∧ _))

/-- `n00b_gc_root_info_t`. -/
structure RootInfo where
  ptr : Nat
  numItems : Nat
  inactive : Bool
deriving DecidableEq, Repr

/-- `n00b_heap_t`, the fields that the walks read. `arenas` is the list from `first_arena` on, the
last of which is `newest_arena`. -/
structure HeapRec where
  heapId : Nat
  nextAlloc : Nat
  arenas : List Arena
  roots : List RootInfo
  noTrace : Bool
  isPrivate : Bool
  released : Bool
deriving DecidableEq, Repr

/-- A zeroed record. -/
instance : Inhabited HeapRec :=
  ⟨⟨0, 0, [], [], false, false, false⟩⟩

/-- The loop of `_n00b_addr_in_one_heap` over the arenas. -/
def addrInArenas (nextAlloc p : Nat) : List Arena → Bool
  | [] => false
  | a :: arenas =>
    if addrInArena a p then !(arenas.isEmpty && decide (nextAlloc < p))
    else addrInArenas nextAlloc p arenas

/-- `_n00b_addr_in_one_heap`. -/
def HeapRec.addrInOneHeap (h : HeapRec) (p : Nat) : Bool :=
  !h.released && addrInArenas h.nextAlloc p h.arenas

/-- The roots that `trace_one_rootset` scans. -/
def HeapRec.rootset (h : HeapRec) : List RootInfo :=
  h.roots.filter (fun ri => !ri.inactive)

/-! ## Pages -/

/-- `n00b_heap_entries_pp` as `n00b_setup_heap_info` computes it: the last place in a page is for
the link. -/
def entriesPerPage (pageBytes recordBytes : Nat) : Nat :=
  pageBytes / recordBytes - 1

/-- A page of records. The slot behind its entries holds the address of the next page. -/
structure Page where
  entries : List HeapRec
  link : Option Nat
deriving DecidableEq, Repr

/-- A pointer into the pages. `wild` is any other address. -/
inductive HeapPtr where
  | slot (page entry : Nat)
  | wild
deriving DecidableEq, Repr

/-- `h++`. -/
def HeapPtr.next : HeapPtr → HeapPtr
  | .slot page entry => .slot page (entry + 1)
  | .wild => .wild

/-- The registry: `n00b_heap_entries_pp`, the pages and `n00b_next_heap_index`. `n00b_all_heaps` is
the first page and `n00b_cur_heap_page` the last. -/
structure Registry where
  heapEntriesPp : Nat
  pages : List Page
  nextHeapIndex : Nat
deriving DecidableEq, Repr

namespace Registry

/-- `n00b_all_heaps`. -/
def allHeaps (reg : Registry) : HeapPtr :=
  if reg.pages.isEmpty then .wild else .slot 0 0

/-- The record at a pointer. There is none behind the entries of a page. -/
def heapAt (reg : Registry) : HeapPtr → Option HeapRec
  | .slot page entry => (reg.pages[page]?).bind fun p => p.entries[entry]?
  | .wild => none

/-- `*(n00b_heap_t **)h`. The first word of a record is its number, which is no address of a page.
There is no result where the memory cannot be read. -/
def readLink (reg : Registry) : HeapPtr → Option HeapPtr
  | .slot page entry =>
    (reg.pages[page]?).map fun p =>
      if entry = reg.heapEntriesPp then (p.link.map fun next => .slot next 0).getD .wild
      else .wild
  | .wild => none

/-- The record with the number `id`. -/
def slotOf (reg : Registry) (id : Nat) : HeapPtr :=
  .slot (id / reg.heapEntriesPp) (id % reg.heapEntriesPp)

/-- A change to the record with the number `id`. -/
def modifyHeap (reg : Registry) (id : Nat) (f : HeapRec → HeapRec) : Registry :=
  { reg with
    pages := reg.pages.modify (id / reg.heapEntriesPp) fun p =>
      { p with entries := p.entries.modify (id % reg.heapEntriesPp) f } }

end Registry

/-! ## The walk -/

/-- How a walk ends: with the index at the end, with a `return`, or with a read from no memory. -/
inductive Walk (σ β : Type) where
  | ended (s : σ)
  | returned (b : β)
  | fault
deriving DecidableEq, Repr

/-- The walk that ends as a loop over the records would. -/
def Walk.ofExcept {σ β : Type} : Except β σ → Walk σ β
  | .ok s => .ended s
  | .error b => .returned b

namespace Registry

variable {σ β : Type}

/-- The loop over the registry, from the index `i` on. `visit` is its body, an error of which is a
`return`; `link` observes the links that are read. -/
def loop (reg : Registry) (visit : σ → HeapPtr → HeapRec → Except β σ) (link : σ → HeapPtr → σ) :
    Nat → Nat → HeapPtr → σ → Walk σ β
  | 0, _, _, s => .ended s
  | todo + 1, i, h, s =>
    if i ≠ 0 ∧ i % reg.heapEntriesPp = 0 then
      match reg.readLink h with
      | none => .fault
      | some next => loop reg visit link todo (i + 1) next (link s h)
    else
      match reg.heapAt h with
      | none => .fault
      | some r =>
        match visit s h r with
        | .error b => .returned b
        | .ok s => loop reg visit link todo (i + 1) h.next s

/-- The loop over all of the registry. -/
def walk (reg : Registry) (visit : σ → HeapPtr → HeapRec → Except β σ) (s : σ) : Walk σ β :=
  reg.loop visit (fun s _ => s) reg.nextHeapIndex 0 reg.allHeaps s

/-- `n00b_addr_find_heap`, `fromSpace` being `__n00b_current_from_space`. No heap is the state at
the end. -/
def addrFindHeap (reg : Registry) (fromSpace : HeapPtr) (p : Nat) (any : Bool) :
    Walk Unit HeapPtr :=
  if p = 0 then .ended ()
  else reg.walk (fun _ h r =>
    if any && r.addrInOneHeap p then .error h
    else if !(r.isPrivate && h != fromSpace) && r.addrInOneHeap p then .error h
    else .ok ()) ()

/-- `trace_all_roots`: the roots that are scanned, when `fromSpace` is collected. -/
def traceAllRoots (reg : Registry) (fromSpace : HeapPtr) : Walk (List RootInfo) Empty :=
  reg.walk (fun scanned h r =>
    if r.noTrace && h != fromSpace then .ok scanned else .ok (scanned ++ r.rootset)) []

/-- The loop of `_n00b_new_heap`, which looks for a record that was released. -/
def findReleased (reg : Registry) : Walk Unit HeapPtr :=
  reg.walk (fun _ h r => if r.released then .error h else .ok ()) ()

/-! ## Calls -/

/-- `n00b_add_heap_entry_page`. -/
def addHeapEntryPage (reg : Registry) : Registry :=
  { reg with
    pages := (reg.pages.modify (reg.pages.length - 1)
      fun p => { p with link := some reg.pages.length }) ++ [⟨List.replicate reg.heapEntriesPp default, none⟩] }

/-- What `_n00b_new_heap` does when there is no record to use again. -/
def appendHeap (reg : Registry) (arenas : List Arena) : Registry :=
  let id := reg.nextHeapIndex
  let reg := { reg with nextHeapIndex := id + 1 }
  let entryIndex := id % reg.heapEntriesPp
  let reg := if entryIndex = 0 then reg.addHeapEntryPage else reg
  { reg with
    pages := reg.pages.modify (reg.pages.length - 1) fun p =>
      { p with entries := p.entries.modify entryIndex fun r =>
          { r with heapId := id, arenas, roots := [], released := false } } }

/-- `_n00b_new_heap`. `arenas` is empty or the arena that `n00b_add_arena` makes for a heap with a
length. There is no result where the loop reads from no memory. -/
def newHeap (reg : Registry) (arenas : List Arena) : Option Registry :=
  match reg.findReleased with
  | .fault => none
  | .returned (.slot page entry) =>
    some { reg with
      pages := reg.pages.modify page fun p =>
        { p with entries := p.entries.modify entry fun r => { r with released := false, arenas } } }
  | .returned .wild => none
  | .ended () => some (reg.appendHeap arenas)

/-- `n00b_delete_heap` on the heap with the number `id`. -/
def deleteHeap (reg : Registry) (id : Nat) : Registry :=
  reg.modifyHeap id fun r => { (default : HeapRec) with heapId := r.heapId, released := true }

/-- The registries of a process. `use` is all that happens to a heap between the calls. -/
inductive Reached (pp : Nat) : Registry → Prop where
  | start : Reached pp ⟨pp, [], 0⟩
  | newHeap {reg reg' : Registry} {arenas : List Arena} :
      Reached pp reg → reg.newHeap arenas = some reg' → Reached pp reg'
  | deleteHeap {reg : Registry} {id : Nat} :
      Reached pp reg → id < reg.nextHeapIndex → Reached pp (reg.deleteHeap id)
  | use {reg : Registry} {id : Nat} (nextAlloc : Nat) (arenas : List Arena) (roots : List RootInfo)
      (noTrace isPrivate : Bool) :
      Reached pp reg → id < reg.nextHeapIndex →
      Reached pp (reg.modifyHeap id fun r => { r with nextAlloc, arenas, roots, noTrace, isPrivate })

/-! ## What the walks are for -/

/-- A step of a walk. -/
inductive Event where
  | visit (h : HeapPtr)
  | link (h : HeapPtr)
deriving DecidableEq, Repr

/-- The steps of a walk whose body never returns. -/
def events (reg : Registry) : Walk (List Event) Empty :=
  reg.loop (fun log h _ => .ok (log ++ [.visit h])) (fun log h => log ++ [.link h])
    reg.nextHeapIndex 0 reg.allHeaps []

def visited (log : List Event) : List HeapPtr :=
  log.filterMap fun
    | .visit h => some h
    | .link _ => none

/-- **What the walks are for**: each record is visited once, links are read from the link slots of
full pages, a heap with the address is found, and the roots of every heap to trace are scanned. -/
structure Sound (reg : Registry) : Prop where
  once : ∃ log, reg.events = .ended log ∧
    (visited log).Perm ((List.range reg.nextHeapIndex).map reg.slotOf) ∧
    ∀ h, Event.link h ∈ log → ∃ page, h = .slot page reg.heapEntriesPp ∧
      (page + 1) * reg.heapEntriesPp ≤ reg.nextHeapIndex
  find : ∀ fromSpace p id r, p ≠ 0 → id < reg.nextHeapIndex → reg.heapAt (reg.slotOf id) = some r →
    r.addrInOneHeap p = true → ∃ h r', reg.addrFindHeap fromSpace p true = .returned h ∧
      reg.heapAt h = some r' ∧ r'.addrInOneHeap p = true
  trace : ∀ fromSpace, ∃ scanned, reg.traceAllRoots fromSpace = .ended scanned ∧
    ∀ id r, id < reg.nextHeapIndex → reg.heapAt (reg.slotOf id) = some r → r.noTrace = false →
      r.rootset ⊆ scanned

/-- The registry as calls leave it. -/
structure WellFormed (reg : Registry) : Prop where
  pages : reg.nextHeapIndex ≤ reg.pages.length * reg.heapEntriesPp
  entries : ∀ p ∈ reg.pages, p.entries.length = reg.heapEntriesPp

variable {reg reg' : Registry} {pp : Nat} {page : Page} {σ β : Type}

/-! ## Calls keep the pages in order -/

/-- The number of entries on a page never changes. -/
theorem Reached.heapEntriesPp (h : Reached pp reg) : reg.heapEntriesPp = pp := by
  induction h with
  | start => rfl
  | newHeap _ hnew ih =>
    unfold Registry.newHeap at hnew
    split at hnew
    · cases hnew
    · cases hnew
      exact ih
    · cases hnew
    · cases hnew
      rw [← ih, appendHeap]
      split
      · rfl
      · rfl
  | deleteHeap _ _ ih => exact ih
  | use _ _ _ _ _ _ _ ih => exact ih

/-- Changing one record keeps the registry well formed. -/
theorem WellFormed.modify (h : reg.WellFormed) (k entry : Nat) (f : HeapRec → HeapRec) :
    WellFormed { reg with
      pages := reg.pages.modify k fun p => { p with entries := p.entries.modify entry f } } where
  pages := by simpa using h.pages
  entries := by
    rintro p hp
    obtain ⟨i, hi, rfl⟩ := List.getElem_of_mem hp
    rw [List.getElem_modify]
    split
    · simpa using h.entries _ (List.getElem_mem _)
    · exact h.entries _ (List.getElem_mem _)

/-- A new page keeps the registry well formed. -/
theorem WellFormed.addHeapEntryPage (h : reg.WellFormed) :
    WellFormed { reg.addHeapEntryPage with
      nextHeapIndex := reg.pages.length * reg.heapEntriesPp + reg.heapEntriesPp } where
  pages := by simp [Registry.addHeapEntryPage, Nat.add_mul]
  entries := by
    rintro p hp
    rcases List.mem_append.mp hp with hp | hp
    · obtain ⟨i, hi, rfl⟩ := List.getElem_of_mem hp
      have hlen : ∀ hi, (reg.pages.get ⟨i, hi⟩).entries.length = reg.heapEntriesPp :=
        fun hi => h.entries _ (List.getElem_mem hi)
      rw [List.getElem_modify]
      split
      · exact hlen _
      · exact hlen _
    · obtain rfl := List.mem_singleton.mp hp
      exact List.length_replicate

/-- A registry with room for its heaps is well formed. -/
theorem WellFormed.of_le {n : Nat} (h : reg.WellFormed)
    (hn : n ≤ reg.pages.length * reg.heapEntriesPp) :
    WellFormed { reg with nextHeapIndex := n } :=
  ⟨hn, h.entries⟩

/-- A new heap keeps the registry well formed. -/
theorem WellFormed.appendHeap (h : reg.WellFormed) (hpp : 0 < reg.heapEntriesPp)
    (arenas : List Arena) : (reg.appendHeap arenas).WellFormed := by
  have hle := h.pages
  unfold Registry.appendHeap
  by_cases hfull : reg.nextHeapIndex % reg.heapEntriesPp = 0
  · simp only [hfull, if_true]
    have hpage := h.addHeapEntryPage.of_le (n := reg.nextHeapIndex + 1) (by
      simp only [Registry.addHeapEntryPage, List.length_append, List.length_modify,
        List.length_singleton, Nat.add_mul]
      omega)
    exact hpage.modify _ _ _
  · simp only [hfull, if_false]
    have hlt : reg.nextHeapIndex < reg.pages.length * reg.heapEntriesPp := by
      rcases Nat.lt_or_eq_of_le hle with hlt | heq
      · exact hlt
      · rw [heq, Nat.mul_mod_left] at hfull
        exact absurd rfl hfull
    exact (h.of_le hlt).modify _ _ _

/-- Every reached registry is well formed. -/
theorem Reached.wellFormed (h : Reached pp reg) (hpp : 0 < pp) : reg.WellFormed := by
  induction h with
  | start => exact ⟨Nat.zero_le _, by simp⟩
  | newHeap hreg hnew ih =>
    unfold Registry.newHeap at hnew
    split at hnew
    · cases hnew
    · cases hnew
      exact ih.modify _ _ _
    · cases hnew
    · cases hnew
      exact ih.appendHeap (hreg.heapEntriesPp ▸ hpp) _
  | deleteHeap _ _ ih => exact ih.modify _ _ _
  | use _ _ _ _ _ _ _ ih => exact ih.modify _ _ _

/-! ## Walks within one page -/

/-- Within the first page no index lies on a page boundary. -/
theorem not_boundary {i : Nat} (hi : i < reg.heapEntriesPp) :
    ¬ (i ≠ 0 ∧ i % reg.heapEntriesPp = 0) := by
  rintro ⟨hne, hmod⟩
  rw [Nat.mod_eq_of_lt hi] at hmod
  exact hne hmod

/-- A slot of the first page reads that page's entry. -/
theorem heapAt_page (hpage : reg.pages[0]? = some page)
    (hentries : page.entries.length = reg.heapEntriesPp) {i : Nat} (hi : i < reg.heapEntriesPp) :
    reg.heapAt (.slot 0 i) = some (page.entries.getD i default) := by
  have hlt : i < page.entries.length := by omega
  simp [heapAt, hpage, List.getElem?_eq_getElem hlt]

/-- Within the first page the macro's loop visits the entries in order. -/
theorem loop_page (hpage : reg.pages[0]? = some page)
    (hentries : page.entries.length = reg.heapEntriesPp)
    (visit : σ → HeapPtr → HeapRec → Except β σ) (link : σ → HeapPtr → σ) :
    ∀ (todo i : Nat) (s : σ), i + todo ≤ reg.heapEntriesPp →
      reg.loop visit link todo i (.slot 0 i) s = .ofExcept
        ((List.range' i todo).foldlM
          (fun s j => visit s (.slot 0 j) (page.entries.getD j default)) s) := by
  intro todo
  induction todo with
  | zero =>
    rintro i s -
    rfl
  | succ todo ih =>
    rintro i s hle
    have hi : i < reg.heapEntriesPp := by omega
    rw [loop, if_neg (not_boundary hi), heapAt_page hpage hentries hi, List.range'_succ,
      List.foldlM_cons]
    cases hvisit : visit s (.slot 0 i) (page.entries.getD i default) with
    | error b => simp only [hvisit]; rfl
    | ok s' =>
      simp only [hvisit]
      exact ih (i + 1) s' (by omega)

/-- A registry with a heap has a first page, where the walk starts. -/
theorem exists_page (h : reg.WellFormed) (hpos : 0 < reg.nextHeapIndex) :
    ∃ page, reg.pages[0]? = some page ∧ page.entries.length = reg.heapEntriesPp ∧
      reg.allHeaps = .slot 0 0 := by
  have hle := h.pages
  cases hpages : reg.pages with
  | nil =>
    rw [hpages, List.length_nil, Nat.zero_mul] at hle
    omega
  | cons page pages =>
    refine ⟨page, rfl, h.entries page (by simp [hpages]), ?_⟩
    simp [allHeaps, hpages]

/-- With all heaps on one page the macro's loop visits each of them in order. -/
theorem loop_onePage (h : reg.WellFormed) (hone : reg.nextHeapIndex ≤ reg.heapEntriesPp)
    (hpos : 0 < reg.nextHeapIndex) (visit : σ → HeapPtr → HeapRec → Except β σ)
    (link : σ → HeapPtr → σ) (s : σ) :
    ∃ page, reg.pages[0]? = some page ∧ page.entries.length = reg.heapEntriesPp ∧
      reg.loop visit link reg.nextHeapIndex 0 reg.allHeaps s = .ofExcept
        ((List.range reg.nextHeapIndex).foldlM
          (fun s j => visit s (.slot 0 j) (page.entries.getD j default)) s) := by
  obtain ⟨page, hpage, hlen, hall⟩ := exists_page h hpos
  refine ⟨page, hpage, hlen, ?_⟩
  rw [hall, loop_page hpage hlen visit link _ 0 s (by omega), List.range_eq_range']

/-- With all heaps on one page a heap's number is its slot. -/
theorem slotOf_onePage {id : Nat} (hid : id < reg.heapEntriesPp) : reg.slotOf id = .slot 0 id := by
  rw [slotOf, Nat.div_eq_of_lt hid, Nat.mod_eq_of_lt hid]

/-- With all heaps on one page a heap's record is the entry of its number. -/
theorem heapAt_onePage (hpage : reg.pages[0]? = some page) {id : Nat} {r : HeapRec}
    (hid : id < reg.heapEntriesPp) (hr : reg.heapAt (reg.slotOf id) = some r) :
    page.entries.getD id default = r := by
  rw [slotOf_onePage hid] at hr
  have hget : page.entries[id]? = some r := by simpa [heapAt, hpage] using hr
  rw [List.getD_eq_getElem?_getD, hget, Option.getD_some]

theorem foldlM_ok (f : σ → Nat → σ) (js : List Nat) (s : σ) :
    js.foldlM (fun s j => (.ok (f s j) : Except β σ)) s = .ok (js.foldl f s) := by
  induction js generalizing s with
  | nil => rfl
  | cons j js ih =>
    rw [List.foldlM_cons, List.foldl_cons]
    exact ih _

/-- A search that some element meets ends at one that meets it. -/
theorem foldlM_hit (ptr : Nat → HeapPtr) (hit : Nat → Bool) {js : List Nat}
    (h : ∃ j ∈ js, hit j = true) :
    ∃ j ∈ js, hit j = true ∧
      js.foldlM (fun (_ : Unit) j => if hit j then .error (ptr j) else .ok ()) () =
        (.error (ptr j) : Except HeapPtr Unit) := by
  induction js with
  | nil => simp at h
  | cons j js ih =>
    rw [List.foldlM_cons]
    by_cases hj : hit j = true
    · refine ⟨j, List.mem_cons_self, hj, ?_⟩
      rw [if_pos hj]
      rfl
    · obtain ⟨k, hk, hhit⟩ := h
      have hk' : k ∈ js := by
        rcases List.mem_cons.mp hk with rfl | hk
        · exact absurd hhit hj
        · exact hk
      obtain ⟨m, hm, hmhit, hrun⟩ := ih ⟨k, hk', hhit⟩
      refine ⟨m, List.mem_cons_of_mem _ hm, hmhit, ?_⟩
      rw [if_neg hj]
      exact hrun

/-- Appending the results for each element collects them in order. -/
theorem foldl_append {α : Type} (f : Nat → List α) (js : List Nat) (s : List α) :
    js.foldl (fun s j => s ++ f j) s = s ++ js.flatMap f := by
  induction js generalizing s with
  | nil => simp
  | cons j js ih => rw [List.foldl_cons, ih, List.flatMap_cons, List.append_assoc]

/-! ## Soundness -/

/-- With all heaps on one page the walk visits each once and links none. -/
theorem events_onePage (h : reg.WellFormed) (hone : reg.nextHeapIndex ≤ reg.heapEntriesPp) :
    reg.events = .ended ((List.range reg.nextHeapIndex).map fun j => .visit (.slot 0 j)) := by
  rcases Nat.eq_zero_or_pos reg.nextHeapIndex with hzero | hpos
  · rw [events, hzero]
    rfl
  · obtain ⟨page, -, -, hloop⟩ := loop_onePage (β := Empty) h hone hpos
      (fun log h _ => .ok (log ++ [Event.visit h])) (fun log h => log ++ [.link h]) []
    rw [events, hloop, foldlM_ok, foldl_append, List.nil_append, ← List.map_eq_flatMap]
    rfl

/-- With all heaps on one page every walk over the registry is right. -/
theorem WellFormed.sound (h : reg.WellFormed) (hone : reg.nextHeapIndex ≤ reg.heapEntriesPp) :
    reg.Sound where
  once := by
    refine ⟨_, events_onePage h hone, ?_, by simp⟩
    have hvisited : visited ((List.range reg.nextHeapIndex).map fun j => .visit (.slot 0 j)) =
        (List.range reg.nextHeapIndex).map fun j => .slot 0 j := by
      rw [visited, List.filterMap_map]
      show (List.range reg.nextHeapIndex).filterMap (some ∘ fun j => HeapPtr.slot 0 j) = _
      rw [List.filterMap_eq_map]
    have hslots : (List.range reg.nextHeapIndex).map (fun j => HeapPtr.slot 0 j) =
        (List.range reg.nextHeapIndex).map reg.slotOf := by
      refine List.map_congr_left fun j hj => (slotOf_onePage ?_).symm
      have := List.mem_range.mp hj
      omega
    rw [hvisited, hslots]
  find := by
    rintro fromSpace p id r hp hid hr hin
    obtain ⟨page, hpage, hlen, hloop⟩ := loop_onePage h hone (by omega)
      (fun _ h r =>
        if true && r.addrInOneHeap p then .error h
        else if !(r.isPrivate && h != fromSpace) && r.addrInOneHeap p then .error h
        else .ok ()) (fun s _ => s) ()
    have hbody : (fun (_ : Unit) j =>
        if true && (page.entries.getD j default).addrInOneHeap p then
          (.error (HeapPtr.slot 0 j) : Except HeapPtr Unit)
        else if !((page.entries.getD j default).isPrivate && HeapPtr.slot 0 j != fromSpace) &&
          (page.entries.getD j default).addrInOneHeap p then .error (.slot 0 j)
        else .ok ()) =
        fun _ j => if (page.entries.getD j default).addrInOneHeap p then .error (.slot 0 j)
          else .ok () := by
      funext _ j
      cases (page.entries.getD j default).addrInOneHeap p with
      | true => rfl
      | false => simp
    have hentry := heapAt_onePage hpage (by omega) hr
    obtain ⟨j, hj, hhit, hrun⟩ := foldlM_hit (HeapPtr.slot 0)
      (fun j => (page.entries.getD j default).addrInOneHeap p)
      ⟨id, List.mem_range.mpr hid, by rw [hentry]; exact hin⟩
    have hlt : j < page.entries.length := by
      have := List.mem_range.mp hj
      omega
    refine ⟨.slot 0 j, page.entries.getD j default, ?_, ?_, hhit⟩
    · rw [addrFindHeap, if_neg hp, walk, hloop, hbody, hrun]
      rfl
    · simp [heapAt, hpage, List.getElem?_eq_getElem hlt]
  trace := by
    intro fromSpace
    rcases Nat.eq_zero_or_pos reg.nextHeapIndex with hzero | hpos
    · refine ⟨[], ?_, fun id r hid => by omega⟩
      rw [traceAllRoots, walk, hzero]
      rfl
    · obtain ⟨page, hpage, -, hloop⟩ := loop_onePage (β := Empty) h hone hpos
        (fun scanned h r =>
          if r.noTrace && h != fromSpace then .ok scanned else .ok (scanned ++ r.rootset))
        (fun s _ => s) []
      have hbody : (fun (scanned : List RootInfo) j =>
          if (page.entries.getD j default).noTrace && HeapPtr.slot 0 j != fromSpace then
            (.ok scanned : Except Empty (List RootInfo))
          else .ok (scanned ++ (page.entries.getD j default).rootset)) =
          fun scanned j => .ok (scanned ++
            if (page.entries.getD j default).noTrace && HeapPtr.slot 0 j != fromSpace then []
            else (page.entries.getD j default).rootset) := by
        funext scanned j
        split
        · rw [List.append_nil]
        · rfl
      refine ⟨_, by rw [traceAllRoots, walk, hloop, hbody, foldlM_ok]; rfl, ?_⟩
      intro id r hid hr hnoTrace ri hri
      have hentry := heapAt_onePage hpage (by omega) hr
      rw [foldl_append, List.nil_append, List.mem_flatMap]
      refine ⟨id, List.mem_range.mpr hid, ?_⟩
      rw [hentry, hnoTrace, Bool.false_and]
      exact hri

/-- The walk visits only slots below its bound. -/
theorem visited_lt (visit : List Event → HeapPtr → HeapRec → Except Empty (List Event))
    (link : List Event → HeapPtr → List Event)
    (hvisit : ∀ log h r, visit log h r = .ok (log ++ [.visit h]))
    (hlink : ∀ log h, link log h = log ++ [.link h]) (hpp : 0 < reg.heapEntriesPp) :
    ∀ (todo i : Nat) (h : HeapPtr) (log log' : List Event),
      reg.loop visit link todo i h log = .ended log' →
      (visited log').length ≤ (visited log).length + todo ∧
        (i ≤ reg.heapEntriesPp → reg.heapEntriesPp < i + todo →
          (visited log').length < (visited log).length + todo) := by
  intro todo
  induction todo with
  | zero =>
    rintro i h log log' hend
    cases hend
    exact ⟨Nat.le_refl _, by omega⟩
  | succ todo ih =>
    rintro i h log log' hend
    have hgrow : ∀ e : Event, (visited (log ++ [e])).length =
        (visited log).length + (visited [e]).length := fun e => by
      rw [visited, List.filterMap_append, List.length_append]
      rfl
    rw [loop] at hend
    split at hend
    next hboundary =>
      split at hend
      · cases hend
      · rw [hlink] at hend
        obtain ⟨hle, -⟩ := ih _ _ _ _ hend
        rw [hgrow (.link h)] at hle
        have hnone : (visited [.link h]).length = 0 := rfl
        exact ⟨by omega, by omega⟩
    next hinside =>
      split at hend
      · cases hend
      · rw [hvisit] at hend
        obtain ⟨hle, hlt⟩ := ih _ _ _ _ hend
        rw [hgrow (.visit h)] at hle hlt
        have hnone : (visited [.visit h]).length = 1 := rfl
        refine ⟨by omega, fun hi hpast => ?_⟩
        have hne : i ≠ reg.heapEntriesPp := by
          rintro rfl
          exact hinside ⟨by omega, Nat.mod_self _⟩
        have := hlt (by omega) (by omega)
        omega

/-- A registry whose walks are right has all its heaps on one page. -/
theorem Sound.onePage (h : reg.Sound) (hpp : 0 < reg.heapEntriesPp) :
    reg.nextHeapIndex ≤ reg.heapEntriesPp := by
  obtain ⟨log, hlog, hperm, -⟩ := h.once
  by_contra hmany
  have hlt := (visited_lt _ _ (fun _ _ _ => rfl) (fun _ _ => rfl) hpp _ _ _ _ _ hlog).2
    (Nat.zero_le _) (by omega)
  have hlen := hperm.length_eq
  rw [List.length_map, List.length_range] at hlen
  have hnil : (visited []).length = 0 := rfl
  omega

/-- **The walks over the registry are sound if and only if its records fit one page**, however the
heaps were created and deleted. -/
theorem sound_iff_onePage {pageBytes recordBytes : Nat} (hrecord : 0 < recordBytes)
    (hpage : 2 * recordBytes ≤ pageBytes)
    (h : Reached (entriesPerPage pageBytes recordBytes) reg) :
    reg.Sound ↔ reg.nextHeapIndex ≤ entriesPerPage pageBytes recordBytes := by
  have hpp : 0 < entriesPerPage pageBytes recordBytes := by
    have htwo := (Nat.le_div_iff_mul_le hrecord).mpr hpage
    unfold entriesPerPage
    omega
  have heq := h.heapEntriesPp
  rw [← heq] at hpp ⊢
  exact ⟨fun hsound => hsound.onePage hpp, (h.wellFormed (heq ▸ hpp)).sound⟩

/-- A process that has made `n` heaps without arenas. -/
def createHeaps (pp : Nat) : Nat → Option Registry
  | 0 => some ⟨pp, [], 0⟩
  | n + 1 => (createHeaps pp n).bind fun reg => reg.newHeap []

/-- Creating heaps reaches a registry. -/
theorem reached_createHeaps {n : Nat} (h : createHeaps pp n = some reg) : Reached pp reg := by
  induction n generalizing reg with
  | zero =>
    cases h
    exact .start
  | succ n ih =>
    obtain ⟨before, hbefore, hnew⟩ := Option.bind_eq_some_iff.mp h
    exact .newHeap (ih hbefore) hnew

/-- The three heaps of `n00b_create_first_heaps`, in pages of 4096 bytes. -/
theorem sound_firstHeaps : ∃ reg, createHeaps 35 3 = some reg ∧ reg.Sound := by
  have hcount : (createHeaps 35 3).map Registry.nextHeapIndex = some 3 := by decide
  obtain ⟨reg, hreg, hindex⟩ := Option.map_eq_some_iff.mp hcount
  refine ⟨reg, hreg, (sound_iff_onePage (show 0 < 112 by decide) (show 2 * 112 ≤ 4096 by decide)
    (reached_createHeaps hreg)).mpr ?_⟩
  rw [hindex]
  decide

/-- The 36th heap is the first of the second page, and no walk sees it. -/
theorem not_sound_secondPage :
    ¬ ∀ reg, Reached (entriesPerPage 4096 112) reg → reg.Sound := by
  intro hall
  have hcount : (createHeaps 35 36).map (fun reg => (reg.nextHeapIndex, reg.heapEntriesPp)) =
      some (36, 35) := by decide
  obtain ⟨reg, hreg, hindex⟩ := Option.map_eq_some_iff.mp hcount
  obtain ⟨hmany, hpp⟩ := Prod.mk.inj hindex
  have hle := (hall reg (reached_createHeaps hreg)).onePage (by omega)
  omega

end Registry

end N00b.Gc
