import N00b.Lib.Intern

/-!
# The table of static constants

`store_static_item` appends a word to the table of constants of a compilation and makes the table
grow by pages. `n00b_add_static_object`, `n00b_add_static_string` and `n00b_add_value_const` keep
maps from what was stored to its index, so that a constant is stored once.

## Main results

* `run_ok`, `run_overrun`: a sequence of calls interns tokens. Objects, styled strings and values are
  their own tokens, an unstyled string gets a new token with every call.
-/

namespace N00b.StaticPool

open N00b.Lib

abbrev Word := UInt64

/-- What the functions read of the objects they are given by address: whether the type is the
string type and, for a string, its text and the `num_styles` of its `styling` (none for `NULL`). -/
structure Heap where
  isString : Word → Bool
  contents : Word → String
  styling : Word → Option Nat

/-- `s->styling && s->styling->num_styles != 0` -/
def Heap.styled (heap : Heap) (s : Word) : Bool :=
  match heap.styling s with
  | none => false
  | some numStyles => numStyles != 0

/-- The value of `getpagesize()`, an `int`. -/
structure Page where
  bytes : Nat
  lt : bytes < 2 ^ 31

/-- The slots of the first allocation. -/
def Page.slots (page : Page) : Nat := page.bytes / 8 / 8

/-- `n00b_static_memory`; `items` holds the slots of the current allocation. -/
structure StaticMemory where
  items : List Word
  numItems : Nat
  allocLen : Nat

/-- The part of `n00b_compile_ctx` that the table needs. -/
structure CompileCtx where
  memoryLayout : StaticMemory
  objConsts : Word → Option Nat
  strConsts : String → Option Nat
  valueConsts : Word → Option Nat

/-- A store to `items[index]` where only `slots` of them are allocated. -/
inductive Fault where
  | overrun (index slots : Nat)
  deriving DecidableEq, Repr

def CompileCtx.empty : CompileCtx where
  memoryLayout := ⟨[], 0, 0⟩
  objConsts := fun _ => none
  strConsts := fun _ => none
  valueConsts := fun _ => none

variable (page : Page) (heap : Heap)

/-- The new allocation, with the old items copied into it. `n00b_gc_array_alloc_mapped` puts no
parentheses around the number of items, so that only `num_items` is multiplied by their size. -/
def StaticMemory.growItems (mem : StaticMemory) : StaticMemory :=
  let items := List.replicate ((8 * mem.numItems + page.bytes / 8) / 8) 0
  let copied := mem.numItems * 8 % 2 ^ 32 / 8
  { mem with
    items := mem.items.take copied ++ items.drop copied
    allocLen := (mem.allocLen + page.bytes) % 2 ^ 32 }

def storeStaticItem (mem : StaticMemory) (value : Word) : Except Fault (Nat × StaticMemory) :=
  let mem := if mem.numItems = mem.allocLen then mem.growItems page else mem
  let result := mem.numItems
  if result < mem.items.length then
    .ok (result, { mem with
      items := mem.items.set result value
      numItems := (mem.numItems + 1) % 2 ^ 32 })
  else
    .error (.overrun result mem.items.length)

/-- `store_static_item`, then `hatrack_dict_put(ctx->obj_consts, obj, res)`. -/
def storeObject (obj : Word) (ctx : CompileCtx) : Except Fault (Nat × CompileCtx) := do
  let (res, mem) ← storeStaticItem page ctx.memoryLayout obj
  .ok (res, { ctx with
    memoryLayout := mem
    objConsts := Function.update ctx.objConsts obj (some res) })

def addStaticString (s : Word) (ctx : CompileCtx) : Except Fault (Nat × CompileCtx) :=
  if heap.styled s then
    match ctx.objConsts s with
    | some res => .ok (res, ctx)
    | none => storeObject page s ctx
  else
    match ctx.strConsts (heap.contents s) with
    | some res => .ok (res, ctx)
    -- The source puts the index into `obj_consts` here, not into `str_consts`.
    | none => storeObject page s ctx

def addStaticObject (obj : Word) (ctx : CompileCtx) : Except Fault (Nat × CompileCtx) :=
  if heap.isString obj then
    addStaticString page heap obj ctx
  else
    match ctx.objConsts obj with
    | some res => .ok (res, ctx)
    | none => storeObject page obj ctx

def addValueConst (val : Word) (ctx : CompileCtx) : Except Fault (Nat × CompileCtx) :=
  match ctx.valueConsts val with
  | some res => .ok (res, ctx)
  | none => do
    let (res, mem) ← storeStaticItem page ctx.memoryLayout val
    .ok (res, { ctx with
      memoryLayout := mem
      valueConsts := Function.update ctx.valueConsts val (some res) })

/-! ## Sequences of calls -/

/-- A call; `n00b_add_static_string` takes an address of a string. -/
inductive Call (heap : Heap) where
  | object (obj : Word)
  | string (s : Word) (isString : heap.isString s = true)
  | value (val : Word)

variable {heap}

def Call.exec : Call heap → CompileCtx → Except Fault (Nat × CompileCtx)
  | .object obj => addStaticObject page heap obj
  | .string s _ => addStaticString page heap s
  | .value val => addValueConst page val

/-- The returned indices and the context after the calls. -/
def run : List (Call heap) → CompileCtx → Except Fault (List Nat × CompileCtx)
  | [], ctx => .ok ([], ctx)
  | c :: cs, ctx => do
    let (res, ctx) ← c.exec page ctx
    let (rest, ctx) ← run cs ctx
    .ok (res :: rest, ctx)

/-! ## What a constant is -/

/-- Constants that must share an index: one object, one value, unstyled strings with one text. -/
inductive Key where
  | object (obj : Word)
  | text (contents : String)
  | value (val : Word)
  deriving DecidableEq

variable (heap) in
def stringKey (s : Word) : Key :=
  if heap.styled s then .object s else .text (heap.contents s)

def Call.key : Call heap → Key
  | .object obj => if heap.isString obj then stringKey heap obj else .object obj
  | .string s _ => stringKey heap s
  | .value val => .value val

variable (heap) in
/-- The word is an item for the constant. -/
def Key.HeldBy : Key → Word → Prop
  | .object obj, w => w = obj
  | .text contents, w =>
    heap.isString w = true ∧ heap.styled w = false ∧ heap.contents w = contents
  | .value val, w => w = val

/-- The calls run without a store outside of the table, each returned index holds an item for its
call, and calls for one constant return one index. -/
def Stored (calls : List (Call heap)) : Prop :=
  ∃ rs ctx, run page calls CompileCtx.empty = .ok (rs, ctx) ∧
    (∀ (i : Nat) (c : Call heap), calls[i]? = some c → ∃ r w, rs[i]? = some r ∧ r < ctx.memoryLayout.numItems ∧
      ctx.memoryLayout.items[r]? = some w ∧ c.key.HeldBy heap w) ∧
    ∀ (i j : Nat) (c c' : Call heap), calls[i]? = some c → calls[j]? = some c' → c.key = c'.key →
      rs[i]? = rs[j]?

/-- The table is sound and canonical at every point of the sequence. -/
def Sound (calls : List (Call heap)) : Prop :=
  ∀ past, past <+: calls → Stored page past

/-- Both are calls for unstyled strings with one text. -/
def SameText (c c' : Call heap) : Prop :=
  ∃ contents, c.key = .text contents ∧ c'.key = .text contents

/-! ## The tokens a run interns -/

/-- What the code tells apart: an unstyled string is never found again, so each call counts. -/
inductive Token where
  | object (obj : Word)
  | value (val : Word)
  | call (n : Nat) (s : Word)
  deriving DecidableEq

def Token.word : Token → Word
  | .object obj => obj
  | .value val => val
  | .call _ s => s

def Call.word : Call heap → Word
  | .object obj => obj
  | .string s _ => s
  | .value val => val

/-- The token of the `n`-th call. -/
def Call.token (n : Nat) (c : Call heap) : Token :=
  match c.key with
  | .object obj => .object obj
  | .text _ => .call n c.word
  | .value val => .value val

/-- The tokens of calls, the first of which is the `n`-th. -/
def tokens : Nat → List (Call heap) → List Token
  | _, [] => []
  | n, c :: cs => c.token n :: tokens (n + 1) cs

/-- The index of a token that is in the pool. -/
def find (pool : List Token) (t : Token) : Option Nat :=
  if t ∈ pool then some (pool.idxOf t) else none

variable (heap) in
/-- The objects whose entry of `obj_consts` is ever read. -/
def Readable (obj : Word) : Prop :=
  heap.isString obj = true → heap.styled obj = true

theorem find_append {pool : List Token} {t : Token} (ht : t ∉ pool) :
    find (pool ++ [t]) = Function.update (find pool) t (some pool.length) := by
  funext u
  by_cases hu : u = t
  · subst hu
    simp [find, List.idxOf_append_of_notMem ht]
  · rw [Function.update_of_ne hu]
    by_cases hmem : u ∈ pool
    · simp [find, hmem, List.idxOf_append_of_mem hmem]
    · simp [find, hmem, hu]

/-! ### One store -/

/-- The table holds `k` items, and nothing was allocated after its first slots. -/
structure StaticMemory.Fits (mem : StaticMemory) (k : Nat) : Prop where
  numItems : mem.numItems = k
  le : k ≤ page.slots
  slots : k = 0 ∧ mem.allocLen = 0 ∧ mem.items = [] ∨
    0 < k ∧ mem.allocLen = page.bytes ∧ mem.items.length = page.slots

variable {page} {mem : StaticMemory} {k : Nat}

/-- Growing at a full table leaves room for one more item. -/
theorem StaticMemory.Fits.grown (h : mem.Fits page k) :
    let grown := if mem.numItems = mem.allocLen then mem.growItems page else mem
    grown.numItems = k ∧ grown.allocLen = page.bytes ∧
      grown.items.length = page.slots ∧ grown.items.take k = mem.items.take k := by
  have hpage := page.lt
  rcases h.slots with ⟨hk, halloc, hitems⟩ | ⟨hk, halloc, hitems⟩
  · have hnum : mem.numItems = 0 := h.numItems.trans hk
    have hsize' : page.bytes % 4294967296 = page.bytes := Nat.mod_eq_of_lt (by omega)
    simp [growItems, Page.slots, hnum, halloc, hk, hsize']
  · have hne : mem.numItems ≠ mem.allocLen := by
      have hle := h.le
      rw [h.numItems, halloc]
      unfold Page.slots at hle
      omega
    simp only [if_neg hne]
    exact ⟨h.numItems, halloc, hitems, trivial⟩

/-- An item is stored behind the others while the table has a slot. -/
theorem storeStaticItem_ok (h : mem.Fits page k) (hk : k < page.slots) (w : Word) :
    ∃ mem', storeStaticItem page mem w = .ok (k, mem') ∧ mem'.Fits page (k + 1) ∧
      mem'.items.take (k + 1) = mem.items.take k ++ [w] := by
  obtain ⟨hnum, halloc, hlen, htake⟩ := h.grown
  have hslots : page.slots < 2 ^ 32 := by
    have hpage := page.lt
    unfold Page.slots
    omega
  unfold storeStaticItem
  generalize (if mem.numItems = mem.allocLen then mem.growItems page else mem) = grown at *
  have hin : k < grown.items.length := by omega
  refine ⟨{ grown with items := grown.items.set k w, numItems := (k + 1) % 2 ^ 32 },
    by simp only [hnum, hin, if_true], ⟨?_, hk, Or.inr ⟨by omega, halloc, ?_⟩⟩, ?_⟩
  · exact Nat.mod_eq_of_lt (by omega)
  · simpa using hlen
  · rw [List.take_add_one, List.getElem?_set_self hin, List.take_set_of_le (Nat.le_refl k), htake]
    rfl

/-- **The item behind the last slot** is stored outside of the table. -/
theorem storeStaticItem_overrun (h : mem.Fits page k) (hk : page.slots ≤ k) (w : Word) :
    ∃ f, storeStaticItem page mem w = .error f := by
  obtain ⟨hnum, -, hlen, -⟩ := h.grown
  unfold storeStaticItem
  generalize (if mem.numItems = mem.allocLen then mem.growItems page else mem) = grown at *
  have hin : ¬ k < grown.items.length := by omega
  exact ⟨_, by simp only [hnum, hin, if_false]; rfl⟩

/-! ### One call -/

/-- The context after `n` calls holds the tokens of the pool. -/
structure Represents (heap : Heap) (page : Page) (n : Nat) (ctx : CompileCtx)
    (pool : List Token) : Prop where
  fits : ctx.memoryLayout.Fits page pool.length
  items : ctx.memoryLayout.items.take pool.length = pool.map Token.word
  objects : ∀ obj, Readable heap obj → ctx.objConsts obj = find pool (.object obj)
  values : ∀ val, ctx.valueConsts val = find pool (.value val)
  strings : ∀ contents, ctx.strConsts contents = none
  earlier : ∀ m s, .call m s ∈ pool → m < n

/-- At the start the pool is empty. -/
theorem represents_empty : Represents heap page 0 .empty [] where
  fits := ⟨rfl, Nat.zero_le _, Or.inl ⟨rfl, rfl, rfl⟩⟩
  items := rfl
  objects := fun _ _ => rfl
  values := fun _ => rfl
  strings := fun _ => rfl
  earlier := fun _ _ h => nomatch h

variable (page) in
theorem Call.exec_cases (c : Call heap) :
    (∃ obj, c.key = .object obj ∧ Readable heap obj ∧ ∀ ctx, c.exec page ctx =
      match ctx.objConsts obj with
      | some res => .ok (res, ctx)
      | none => storeObject page obj ctx) ∨
    (∃ contents, c.key = .text contents ∧ ¬ Readable heap c.word ∧
      Key.HeldBy heap (.text contents) c.word ∧ ∀ ctx, c.exec page ctx =
      match ctx.strConsts contents with
      | some res => .ok (res, ctx)
      | none => storeObject page c.word ctx) ∨
    ∃ val, c.key = .value val ∧ ∀ ctx, c.exec page ctx = addValueConst page val ctx := by
  have hstring : ∀ s, heap.isString s = true → heap.styled s = true ∨ heap.styled s = false :=
    fun s _ => by cases heap.styled s <;> simp
  cases c with
  | object obj =>
    cases hstr : heap.isString obj with
    | false =>
      refine Or.inl ⟨obj, by simp [key, hstr], fun h => by simp [hstr] at h, fun ctx => ?_⟩
      simp [exec, addStaticObject, hstr]
    | true =>
      rcases hstring obj hstr with hst | hst
      · refine Or.inl ⟨obj, by simp [key, stringKey, hstr, hst], fun _ => hst, fun ctx => ?_⟩
        simp [exec, addStaticObject, addStaticString, hstr, hst]
      · refine Or.inr (Or.inl ⟨heap.contents obj, by simp [key, stringKey, hstr, hst], ?_,
          ⟨hstr, hst, rfl⟩, fun ctx => ?_⟩)
        · intro hread
          have hstyled : heap.styled obj = true := hread hstr
          rw [hst] at hstyled
          cases hstyled
        · simp [exec, addStaticObject, addStaticString, hstr, hst, word]
  | string s hstr =>
    rcases hstring s hstr with hst | hst
    · refine Or.inl ⟨s, by simp [key, stringKey, hst], fun _ => hst, fun ctx => ?_⟩
      simp [exec, addStaticString, hst]
    · refine Or.inr (Or.inl ⟨heap.contents s, by simp [key, stringKey, hst], ?_,
        ⟨hstr, hst, rfl⟩, fun ctx => ?_⟩)
      · intro hread
        have hstyled : heap.styled s = true := hread hstr
        rw [hst] at hstyled
        cases hstyled
      · simp [exec, addStaticString, hst, word]
  | value val => exact Or.inr (Or.inr ⟨val, rfl, fun _ => rfl⟩)

variable {n : Nat} {ctx : CompileCtx} {pool : List Token}

namespace Represents

/-- Other calls leave the pool. -/
theorem later (h : Represents heap page n ctx pool) : Represents heap page (n + 1) ctx pool :=
  { h with earlier := fun m s hm => Nat.lt_succ_of_lt (h.earlier m s hm) }

/-- A token that is new is put behind the others. -/
theorem stored (h : Represents heap page n ctx pool) {t : Token} (ht : t ∉ pool)
    {mem : StaticMemory} (hfits : mem.Fits page (pool.length + 1))
    (hitems : mem.items.take (pool.length + 1) =
      ctx.memoryLayout.items.take pool.length ++ [t.word])
    {objConsts valueConsts : Word → Option Nat}
    (hobj : ∀ obj, Readable heap obj →
      objConsts obj = Function.update (find pool) t (some pool.length) (.object obj))
    (hval : ∀ val, valueConsts val = Function.update (find pool) t (some pool.length) (.value val))
    (hcall : ∀ m s, t = .call m s → m = n) :
    Represents heap page (n + 1)
      { ctx with memoryLayout := mem, objConsts := objConsts, valueConsts := valueConsts }
      (pool ++ [t]) where
  fits := by rw [List.length_append]; exact hfits
  items := by rw [List.length_append, List.map_append, ← h.items]; exact hitems
  objects := fun obj hobj' => by rw [find_append ht]; exact hobj obj hobj'
  values := fun val => by rw [find_append ht]; exact hval val
  strings := h.strings
  earlier := fun m s hm => by
    rcases List.mem_append.mp hm with hm | hm
    · exact Nat.lt_succ_of_lt (h.earlier m s hm)
    · rw [hcall m s (List.mem_singleton.mp hm).symm]
      exact Nat.lt_succ_self n

/-- A constant is stored at the next index. -/
theorem storeObject_ok (h : Represents heap page n ctx pool) {t : Token} {obj : Word}
    (ht : t ∉ pool) (hroom : pool.length < page.slots) (hword : t.word = obj)
    (hkind : t = .object obj ∨ t = .call n obj ∧ ¬ Readable heap obj) :
    ∃ ctx', storeObject page obj ctx = .ok (pool.length, ctx') ∧
      Represents heap page (n + 1) ctx' (pool ++ [t]) := by
  obtain ⟨mem, hstore, hfits, hitems⟩ := storeStaticItem_ok h.fits hroom obj
  refine ⟨_, by rw [storeObject, hstore]; rfl, h.stored ht hfits (hword ▸ hitems) ?_ ?_ ?_⟩
  · intro o ho
    rcases hkind with rfl | ⟨rfl, hnot⟩
    · by_cases hoo : o = obj
      · simp [hoo]
      · simp [hoo, h.objects o ho]
    · have hoo : o ≠ obj := fun heq => hnot (heq ▸ ho)
      simp [hoo, h.objects o ho]
  · intro val
    rcases hkind with rfl | ⟨rfl, -⟩ <;> simp [h.values val]
  · rintro m s rfl
    rcases hkind with hk | ⟨hk, -⟩
    · cases hk
    · exact (Token.call.inj hk).1

/-- In a full table it is not. -/
theorem storeObject_overrun (h : Represents heap page n ctx pool)
    (hfull : page.slots ≤ pool.length) (obj : Word) :
    ∃ f, storeObject page obj ctx = .error f := by
  obtain ⟨f, hf⟩ := storeStaticItem_overrun h.fits hfull obj
  exact ⟨f, by rw [storeObject, hf]; rfl⟩

theorem call_notMem (h : Represents heap page n ctx pool) (s : Word) : .call n s ∉ pool :=
  fun hm => Nat.lt_irrefl n (h.earlier n s hm)

/-- **A call** gives the index of its token, as long as the table has a slot for it. -/
theorem exec_ok (h : Represents heap page n ctx pool) (c : Call heap)
    (hroom : (intern pool (c.token n)).length ≤ page.slots) :
    ∃ ctx', c.exec page ctx = .ok (pool.idxOf (c.token n), ctx') ∧
      Represents heap page (n + 1) ctx' (intern pool (c.token n)) := by
  rcases c.exec_cases page with ⟨obj, hkey, hread, hexec⟩ |
    ⟨contents, hkey, hread, -, hexec⟩ | ⟨val, hkey, hexec⟩
  · have htok : c.token n = .object obj := by simp [Call.token, hkey]
    rw [hexec, h.objects obj hread, htok]
    rw [htok] at hroom
    by_cases hmem : Token.object obj ∈ pool
    · rw [intern_of_mem hmem]
      exact ⟨ctx, by simp [find, hmem], h.later⟩
    · rw [intern_of_notMem hmem] at hroom ⊢
      rw [List.idxOf_of_notMem hmem]
      simp only [find, if_neg hmem]
      refine h.storeObject_ok hmem ?_ rfl (Or.inl rfl)
      simpa [Nat.succ_le_iff] using hroom
  · have htok : c.token n = .call n c.word := by simp [Call.token, hkey]
    have hmem := h.call_notMem c.word
    rw [hexec, h.strings contents, htok, intern_of_notMem hmem, List.idxOf_of_notMem hmem]
    rw [htok, intern_of_notMem hmem] at hroom
    refine h.storeObject_ok hmem ?_ rfl (Or.inr ⟨rfl, hread⟩)
    simpa [Nat.succ_le_iff] using hroom
  · have htok : c.token n = .value val := by simp [Call.token, hkey]
    rw [hexec, addValueConst, h.values val, htok]
    rw [htok] at hroom
    by_cases hmem : Token.value val ∈ pool
    · rw [intern_of_mem hmem]
      exact ⟨ctx, by simp [find, hmem], h.later⟩
    · rw [intern_of_notMem hmem] at hroom ⊢
      rw [List.idxOf_of_notMem hmem]
      simp only [find, if_neg hmem]
      have hlt : pool.length < page.slots := by simpa [Nat.succ_le_iff] using hroom
      obtain ⟨mem, hstore, hfits, hitems⟩ := storeStaticItem_ok h.fits hlt val
      refine ⟨_, by rw [hstore]; rfl, h.stored hmem hfits hitems ?_ ?_ ?_⟩
      · intro o ho
        simp [h.objects o ho]
      · intro v
        by_cases hv : v = val
        · simp [hv]
        · simp [hv, h.values v]
      · rintro m s hms
        cases hms

/-- It does not when the table is full. -/
theorem exec_overrun (h : Represents heap page n ctx pool) (c : Call heap)
    (hfull : page.slots < (intern pool (c.token n)).length) :
    ∃ f, c.exec page ctx = .error f := by
  have hle := h.fits.le
  have hmem : c.token n ∉ pool := by
    intro hmem
    rw [intern_of_mem hmem] at hfull
    omega
  have hge : page.slots ≤ pool.length := by
    rw [intern_of_notMem hmem, List.length_append, List.length_singleton] at hfull
    omega
  rcases c.exec_cases page with ⟨obj, hkey, hread, hexec⟩ |
    ⟨contents, hkey, -, -, hexec⟩ | ⟨val, hkey, hexec⟩
  · have hnone : find pool (.object obj) = none := by simpa [Call.token, hkey, find] using hmem
    rw [hexec, h.objects obj hread, hnone]
    exact h.storeObject_overrun hge obj
  · rw [hexec, h.strings contents]
    exact h.storeObject_overrun hge c.word
  · have hnone : find pool (.value val) = none := by simpa [Call.token, hkey, find] using hmem
    obtain ⟨f, hf⟩ := storeStaticItem_overrun h.fits hge val
    exact ⟨f, by rw [hexec, addValueConst, h.values val, hnone, hf]; rfl⟩

end Represents

/-! ### Runs -/

variable {calls : List (Call heap)}

/-- All calls of a run do, as long as their tokens fit. -/
theorem run_ok (h : Represents heap page n ctx pool)
    (hroom : (grow pool (tokens n calls)).length ≤ page.slots) :
    ∃ ctx', run page calls ctx =
        .ok ((tokens n calls).map (grow pool (tokens n calls)).idxOf, ctx') ∧
      Represents heap page (n + calls.length) ctx' (grow pool (tokens n calls)) := by
  induction calls generalizing n ctx pool with
  | nil => exact ⟨ctx, rfl, h⟩
  | cons c cs ih =>
    rw [tokens, grow_cons] at hroom ⊢
    have hle : (intern pool (c.token n)).length ≤ page.slots :=
      (prefix_grow _ _).length_le.trans hroom
    obtain ⟨ctx₁, hexec, h₁⟩ := h.exec_ok c hle
    obtain ⟨ctx₂, hrun, h₂⟩ := ih h₁ hroom
    refine ⟨ctx₂, ?_, by rw [List.length_cons, Nat.add_comm cs.length, ← Nat.add_assoc]; exact h₂⟩
    have hidx : (grow (intern pool (c.token n)) (tokens (n + 1) cs)).idxOf (c.token n) =
        pool.idxOf (c.token n) := by
      rw [idxOf_grow (mem_intern.mpr (Or.inr rfl))]
      by_cases hmem : c.token n ∈ pool
      · rw [intern_of_mem hmem]
      · rw [intern_of_notMem hmem, List.idxOf_append_of_notMem hmem, List.idxOf_of_notMem hmem]
        simp
    simp only [run, hexec, bind, Except.bind, hrun, List.map_cons, hidx]

/-- They do not otherwise. -/
theorem run_overrun (h : Represents heap page n ctx pool)
    (hfull : page.slots < (grow pool (tokens n calls)).length) :
    ∃ f, run page calls ctx = .error f := by
  induction calls generalizing n ctx pool with
  | nil => exact absurd hfull (Nat.not_lt.mpr h.fits.le)
  | cons c cs ih =>
    rw [tokens, grow_cons] at hfull
    by_cases hroom : (intern pool (c.token n)).length ≤ page.slots
    · obtain ⟨ctx₁, hexec, h₁⟩ := h.exec_ok c hroom
      obtain ⟨f, hf⟩ := ih h₁ hfull
      exact ⟨f, by simp [run, hexec, bind, Except.bind, hf]⟩
    · obtain ⟨f, hf⟩ := h.exec_overrun c (Nat.not_le.mp hroom)
      exact ⟨f, by simp [run, hf, bind, Except.bind]⟩

/-! ## Tokens and constants -/

theorem length_tokens (calls : List (Call heap)) : (tokens n calls).length = calls.length := by
  induction calls generalizing n with
  | nil => rfl
  | cons c cs ih => rw [tokens, List.length_cons, ih, List.length_cons]

theorem getElem?_tokens (calls : List (Call heap)) (i : Nat) :
    (tokens n calls)[i]? = calls[i]?.map (Call.token (n + i)) := by
  induction calls generalizing n i with
  | nil => rfl
  | cons c cs ih =>
    cases i with
    | zero => rfl
    | succ i =>
      rw [tokens, List.getElem?_cons_succ, List.getElem?_cons_succ, ih, Nat.add_assoc,
        Nat.add_comm 1]

theorem getElem?_tokens_zero {i : Nat} (hi : i < calls.length) :
    (tokens 0 calls)[i]? = some (calls[i].token i) := by
  rw [getElem?_tokens, List.getElem?_eq_getElem hi, Nat.zero_add]
  rfl

variable {c c' : Call heap}

/-- Calls with one token have one key. -/
theorem key_eq_of_token_eq {i j : Nat} (h : c.token i = c'.token j)
    (hij : i = j → c = c') : c.key = c'.key := by
  rcases hk : c.key with obj | contents | val <;> rcases hk' : c'.key with obj' | contents' | val' <;>
    simp only [Call.token, hk, hk', Token.object.injEq, Token.value.injEq, Token.call.injEq,
      reduceCtorEq] at h
  · rw [h]
  · rw [← hk, ← hk', hij h.1]
  · rw [h]

/-- Calls with one key have one token, unless they are of one text that cannot be read as an object.
-/
theorem token_eq_of_key_eq (h : c.key = c'.key) (hne : ¬ SameText c c')
    (i j : Nat) : c.token i = c'.token j := by
  unfold Call.token
  rw [← h]
  rcases hk : c.key with obj | contents | val
  · rfl
  · exact absurd ⟨contents, hk, h ▸ hk⟩ hne
  · rfl

theorem token_eq_of_pairwise
    (h : calls.Pairwise fun c c' => ¬ SameText c c') {i j : Nat} (hi : i < calls.length)
    (hj : j < calls.length) (hkey : calls[i].key = calls[j].key) :
    calls[i].token i = calls[j].token j := by
  rcases Nat.lt_trichotomy i j with hlt | rfl | hlt
  · exact token_eq_of_key_eq hkey (List.pairwise_iff_getElem.mp h i j hi hj hlt) i j
  · rfl
  · exact (token_eq_of_key_eq hkey.symm (List.pairwise_iff_getElem.mp h j i hj hi hlt) j i).symm

theorem token_ne_of_sameText (h : SameText c c') {i j : Nat} (hij : i ≠ j) :
    c.token i ≠ c'.token j := by
  obtain ⟨contents, hk, hk'⟩ := h
  simp [Call.token, hk, hk', hij]

/-- What is stored for a call holds its key. -/
theorem Call.heldBy (c : Call heap) (i : Nat) : c.key.HeldBy heap (c.token i).word := by
  rcases c.exec_cases ⟨0, by decide⟩ with ⟨obj, hkey, -, -⟩ | ⟨contents, hkey, -, hheld, -⟩ |
    ⟨val, hkey, -⟩
  · simp [hkey, token, Key.HeldBy, Token.word]
  · simpa [hkey, token, Token.word] using hheld
  · simp [hkey, token, Key.HeldBy, Token.word]

/-! ## When the table is sound -/

/-- The calls name no more different constants than the first allocation has slots, and no two of
them are for unstyled strings with one text. -/
structure Fitting (page : Page) (calls : List (Call heap)) : Prop where
  room : (calls.map Call.key).toFinset.card ≤ page.slots
  texts : calls.Pairwise fun c c' => ¬ SameText c c'

/-- Fewer calls fit too. -/
theorem Fitting.of_prefix {past calls : List (Call heap)} (h : Fitting page calls)
    (hpre : past <+: calls) : Fitting page past where
  room := by
    refine (Finset.card_le_card ?_).trans h.room
    intro k hk
    rw [List.mem_toFinset] at hk ⊢
    exact (hpre.map Call.key).subset hk
  texts := h.texts.sublist hpre.sublist

/-- There are no more tokens than keys, where no text comes twice. -/
theorem card_tokens_le
    (h : calls.Pairwise fun c c' => ¬ SameText c c') :
    (tokens 0 calls).toFinset.card ≤ (calls.map Call.key).toFinset.card := by
  refine card_le_of_factors (by rw [length_tokens, List.length_map]) ?_
  intro i j hi hj heq
  rw [List.length_map] at hi hj
  have hkey : calls[i].key = calls[j].key := by simpa using heq
  have hsome : (tokens 0 calls)[i]? = (tokens 0 calls)[j]? := by
    rw [getElem?_tokens_zero hi, getElem?_tokens_zero hj, token_eq_of_pairwise h hi hj hkey]
  rw [← length_tokens (n := 0)] at hi hj
  rw [List.getElem?_eq_getElem hi, List.getElem?_eq_getElem hj] at hsome
  exact Option.some.inj hsome

theorem card_keys_le (calls : List (Call heap)) :
    (calls.map Call.key).toFinset.card ≤ (tokens 0 calls).toFinset.card := by
  refine card_le_of_factors (by rw [length_tokens, List.length_map]) ?_
  intro i j hi hj heq
  rw [length_tokens] at hi hj
  have hsome : (tokens 0 calls)[i]? = (tokens 0 calls)[j]? := by simp [heq, length_tokens, hi, hj]
  rw [getElem?_tokens_zero hi, getElem?_tokens_zero hj] at hsome
  have hkey : calls[i].key = calls[j].key := by
    refine key_eq_of_token_eq (Option.some.inj hsome) ?_
    rintro rfl
    rfl
  simpa using hkey

/-- **Calls that fit** are stored as they should be. -/
theorem Fitting.stored (h : Fitting page calls) :
    Stored page calls := by
  have hroom : (grow [] (tokens 0 calls)).length ≤ page.slots := by
    rw [length_grow_nil]
    exact (card_tokens_le h.texts).trans h.room
  obtain ⟨ctx, hrun, hctx⟩ := run_ok represents_empty hroom
  set pool := grow [] (tokens 0 calls) with hpool
  have hres : ∀ i (c : Call heap), calls[i]? = some c →
      ((tokens 0 calls).map pool.idxOf)[i]? = some (pool.idxOf (c.token i)) := by
    intro i c hc
    rw [List.getElem?_map, getElem?_tokens, hc, Nat.zero_add]
    rfl
  refine ⟨_, ctx, hrun, ?_, ?_⟩
  · intro i c hc
    have hmem : c.token i ∈ pool := by
      refine mem_grow.mpr (Or.inr (List.mem_of_getElem? (i := i) ?_))
      rw [getElem?_tokens, hc, Nat.zero_add]
      rfl
    have hlt : pool.idxOf (c.token i) < pool.length := List.idxOf_lt_length_of_mem hmem
    refine ⟨_, (c.token i).word, hres i c hc, by rw [hctx.fits.numItems]; exact hlt, ?_,
      c.heldBy i⟩
    have hitem : (pool.map Token.word)[pool.idxOf (c.token i)]? = some (c.token i).word := by
      rw [List.getElem?_map, List.getElem?_eq_getElem hlt, List.getElem_idxOf hlt]
      rfl
    rw [← hctx.items, List.getElem?_take_of_lt hlt] at hitem
    exact hitem
  · intro i j c c' hc hc' hkey
    rw [hres i c hc, hres j c' hc']
    obtain ⟨hi, rfl⟩ := List.getElem?_eq_some_iff.mp hc
    obtain ⟨hj, rfl⟩ := List.getElem?_eq_some_iff.mp hc'
    rw [token_eq_of_pairwise h.texts hi hj hkey]

/-- Calls that are stored so fit. -/
theorem Stored.fitting (h : Stored page calls) :
    Fitting page calls := by
  obtain ⟨rs, ctx, hrun, -, hcanon⟩ := h
  have hroom : (grow [] (tokens 0 calls)).length ≤ page.slots := by
    by_contra hfull
    obtain ⟨f, hf⟩ := run_overrun represents_empty (Nat.not_le.mp hfull)
    rw [hf] at hrun
    cases hrun
  obtain ⟨ctx', hrun', -⟩ := run_ok represents_empty hroom
  rw [hrun] at hrun'
  obtain ⟨rfl, -⟩ := Prod.mk.inj (Except.ok.inj hrun')
  refine ⟨(card_keys_le calls).trans (length_grow_nil (tokens 0 calls) ▸ hroom), ?_⟩
  refine List.pairwise_iff_getElem.mpr fun i j hi hj hlt hsame => ?_
  have hkey : calls[i].key = calls[j].key := by
    obtain ⟨contents, hk, hk'⟩ := hsame
    rw [hk, hk']
  have hidx := hcanon i j _ _ (List.getElem?_eq_getElem hi) (List.getElem?_eq_getElem hj) hkey
  rw [List.getElem?_map, List.getElem?_map, getElem?_tokens_zero hi, getElem?_tokens_zero hj] at hidx
  have hmem : calls[i].token i ∈ grow [] (tokens 0 calls) :=
    mem_grow.mpr (Or.inr (List.mem_of_getElem? (getElem?_tokens_zero hi)))
  exact token_ne_of_sameText hsame (Nat.ne_of_lt hlt)
    ((List.idxOf_inj hmem).mp (Option.some.inj hidx))

/-- **The table of constants is sound and canonical exactly when** the calls name no more different
constants than the first allocation has slots and no two of them are for unstyled strings with one
text. -/
theorem sound_iff (calls : List (Call heap)) : Sound page calls ↔ Fitting page calls := by
  constructor
  · intro h
    exact (h calls List.prefix_rfl).fitting
  · intro h past hpre
    exact (h.of_prefix hpre).stored

/-- A heap of unstyled strings with the text `a`. -/
def stringsA : Heap where
  isString := fun _ => true
  contents := fun _ => "a"
  styling := fun _ => none

def twoStrings : List (Call stringsA) :=
  [.string 1 rfl, .string 2 rfl]

/-- The second of two equal unstyled strings is stored again, under another index. -/
theorem not_sound_twoStrings : ¬ Sound ⟨4096, by decide⟩ twoStrings := by
  intro h
  have htexts := (h twoStrings List.prefix_rfl).fitting.texts
  exact List.pairwise_iff_getElem.mp htexts 0 1 (by decide) (by decide) (by decide)
    ⟨"a", rfl, rfl⟩

end N00b.StaticPool
