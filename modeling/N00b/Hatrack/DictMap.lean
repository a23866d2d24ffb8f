import N00b.Hatrack.Dict

/-!
# What replacing and exchanging do to a dictionary

The table of a dictionary has pointers to records. `Models` says that it is the ordered map of such
pointers, and that every pointer of it is the address of a record. What is bound to a key is the
record at the address. `hatrack_dict_replace` puts its record whether the key is there or not, and
`hatrack_dict_cas` takes the `NULL` for an absent key as the record that was to be exchanged.

## Main results

- `Models.replace_present`, `Models.replace_absent`: what a replacement does.
- `Models.cas_expected`, `Models.cas_missing`, `Models.cas_other`, `Models.cas_absent`: what an
  exchange does.
- `reports_iff`: the calls that report what they do, in every history.
-/

namespace N00b.Hatrack

open Crown (Represents)
open N00b.Lib (Run)

variable {κ : Type}

namespace HatrackDict

variable {d d' : HatrackDict κ} {M : OrderedMap} {hv : Hash} {p : ℕ}

/-! ## Records -/

/-- There is a record at the address. -/
def Allocated (d : HatrackDict κ) (p : ℕ) : Prop := p ≠ null ∧ p ≤ d.items.length

theorem Allocated.record (h : d.Allocated p) : ∃ r, d.record p = some r := by
  obtain ⟨hne, hle⟩ := h
  have hlt : p - 1 < d.items.length := by
    have hpos : 0 < p := Nat.pos_of_ne_zero hne
    omega
  exact ⟨d.items[p - 1], by rw [HatrackDict.record, if_neg hne, List.getElem?_eq_getElem hlt]⟩

@[simp] theorem items_withCrown (d : HatrackDict κ) (crown : Crown) :
    (d.withCrown crown).items = d.items := rfl

@[simp] theorem crownInstance_withCrown (d : HatrackDict κ) (crown : Crown) :
    (d.withCrown crown).crownInstance = crown := rfl

@[simp] theorem retired_withCrown (d : HatrackDict κ) (crown : Crown) :
    (d.withCrown crown).retired = d.retired := rfl

@[simp] theorem dealloc_withCrown (d : HatrackDict κ) (crown : Crown) :
    (d.withCrown crown).dealloc = d.dealloc := rfl

@[simp] theorem items_retire (d : HatrackDict κ) (p : Option Item) :
    (d.retire p).items = d.items := by
  unfold retire
  split <;> rfl

@[simp] theorem crownInstance_retire (d : HatrackDict κ) (p : Option Item) :
    (d.retire p).crownInstance = d.crownInstance := by
  unfold retire
  split <;> rfl

@[simp] theorem crownInstance_alloc (d : HatrackDict κ) (key : κ) (value : Item) :
    (d.alloc key value).crownInstance = d.crownInstance := rfl

theorem retired_retire (d : HatrackDict κ) (p : Option Item) :
    (d.retire p).retired = d.retired ++ (if d.dealloc then [p] else []) := by
  unfold retire
  split <;> simp

theorem record_congr (h : d'.items = d.items) (p : Item) : d'.record p = d.record p := by
  rw [record, record, h]

/-- What was allocated stays where it was. -/
theorem Allocated.record_alloc (h : d.Allocated p) (key : κ) (value : Item) :
    (d.alloc key value).record p = d.record p := by
  obtain ⟨hne, hle⟩ := h
  have hpos : 0 < p := Nat.pos_of_ne_zero hne
  rw [HatrackDict.record, HatrackDict.record, if_neg hne, if_neg hne, alloc,
    List.getElem?_append_left (by omega)]

/-- A new item is behind the others. -/
theorem newItem_alloc (d : HatrackDict κ) (key : κ) (value : Item) :
    (d.alloc key value).newItem = d.items.length + 1 := by
  simp [newItem, alloc]

/-- Its record is the key and the value. -/
theorem record_newItem (d : HatrackDict κ) (key : κ) (value : Item) :
    (d.alloc key value).record (d.items.length + 1) = some ⟨key, value⟩ := by
  simp [record, null, alloc]

theorem eject_of_ne (h : p ≠ null) : d.eject p = some (d.retire (some p)) := by
  simp [eject, h]

/-! ## What a dictionary binds -/

/-- The record that a hash value is bound to. -/
def contents (d : HatrackDict κ) (hv : Hash) : Option (DictItem κ) :=
  (d.crownInstance.look hv).bind fun x => d.record x.1

/-- The table of the dictionary is this map, of addresses of records. -/
structure Models (d : HatrackDict κ) (M : OrderedMap) : Prop where
  represents : ∃ k, Represents d.crownInstance M k
  allocated : ∀ hv p, M.lookup hv = some p → d.Allocated p

namespace Models

/-- What a dictionary holds for a hash is the record of the item that the table has. -/
theorem contents_eq (h : d.Models M) (hv : Hash) :
    d.contents hv = (M.lookup hv).bind d.record := by
  obtain ⟨k, hrep⟩ := h.represents
  rw [contents, hrep.models.lookup_eq]
  cases d.crownInstance.look hv <;> rfl

/-- A hash has no item, or one that is allocated. -/
theorem cases (h : d.Models M) (hv : Hash) :
    (M.lookup hv = none ∧ d.contents hv = none) ∨
      ∃ p r, M.lookup hv = some p ∧ d.Allocated p ∧ d.record p = some r ∧
        d.contents hv = some r := by
  rw [h.contents_eq]
  cases hp : M.lookup hv with
  | none => exact .inl ⟨rfl, rfl⟩
  | some p =>
    obtain ⟨r, hr⟩ := (h.allocated hv p hp).record
    exact .inr ⟨p, r, rfl, h.allocated hv p hp, hr, hr⟩

/-- The contents depend on the items and the table only. -/
theorem congr (h : d.Models M) (hcrown : ∃ k, Represents d'.crownInstance M k)
    (hitems : d'.items = d.items) : d'.Models M ∧ d'.contents = d.contents := by
  have hmodels : d'.Models M := by
    refine ⟨hcrown, fun hv p hp => ?_⟩
    rw [Allocated, hitems]
    exact h.allocated hv p hp
  refine ⟨hmodels, funext fun hv => ?_⟩
  rw [hmodels.contents_eq, h.contents_eq]
  exact congrArg _ (funext (record_congr hitems))

/-- Retiring an item leaves the contents. -/
theorem retire (h : d.Models M) (p : Option Item) :
    (d.retire p).Models M ∧ (d.retire p).contents = d.contents :=
  h.congr (by simpa using h.represents) (by simp)

theorem alloc (h : d.Models M) (key : κ) (value : Item) {crown : Crown}
    (hcrown : ∃ k, Represents crown M k) :
    ((d.alloc key value).withCrown crown).Models M ∧
      ((d.alloc key value).withCrown crown).contents = d.contents := by
  have hmodels : ((d.alloc key value).withCrown crown).Models M := by
    refine ⟨hcrown, fun hv p hp => ?_⟩
    obtain ⟨hne, hle⟩ := h.allocated hv p hp
    refine ⟨hne, hle.trans ?_⟩
    simp [HatrackDict.alloc]
  refine ⟨hmodels, funext fun hv => ?_⟩
  rw [hmodels.contents_eq, h.contents_eq]
  refine Option.bind_congr fun p hp => ?_
  rw [← (h.allocated hv p hp).record_alloc key value]
  exact record_congr rfl p

/-- **An item that is put into the table** is what the hash has then. -/
theorem insert (h : d.Models M) (key : κ) (value : Item) {crown : Crown}
    (hcrown : ∃ k, Represents crown (M.put hv (d.items.length + 1)) k) :
    ((d.alloc key value).withCrown crown).Models (M.put hv (d.items.length + 1)) ∧
      ((d.alloc key value).withCrown crown).contents =
        Function.update d.contents hv (some ⟨key, value⟩) := by
  have hmodels :
      ((d.alloc key value).withCrown crown).Models (M.put hv (d.items.length + 1)) := by
    refine ⟨hcrown, fun hv' p hp => ?_⟩
    rw [OrderedMap.lookup_put] at hp
    split at hp
    · obtain rfl := Option.some.inj hp
      exact ⟨Nat.succ_ne_zero _, by simp [HatrackDict.alloc]⟩
    · obtain ⟨hne, hle⟩ := h.allocated hv' p hp
      exact ⟨hne, hle.trans (by simp [HatrackDict.alloc])⟩
  refine ⟨hmodels, funext fun hv' => ?_⟩
  rw [hmodels.contents_eq, OrderedMap.lookup_put]
  by_cases hsame : hv' = hv
  · rw [if_pos hsame, hsame, Function.update_self]
    exact record_newItem d key value
  · rw [if_neg hsame, Function.update_of_ne hsame, h.contents_eq]
    refine Option.bind_congr fun p hp => ?_
    rw [← (h.allocated hv' p hp).record_alloc key value]
    exact record_congr rfl p

end Models

/-! ## Operations -/

/-- The table of the dictionary is some map of addresses of records. -/
def Sound (d : HatrackDict κ) : Prop := ∃ M, d.Models M

/-- Every address that is retired is one of a record. -/
def RetiresAllocated (d d' : HatrackDict κ) : Prop :=
  ∃ ps, d'.retired = d.retired ++ ps ∧ ∀ q ∈ ps, ∃ p, q = some p ∧ d'.Allocated p

theorem RetiresAllocated.of_retire {c : Crown} {key : κ} {value : Item}
    (h : ((d.alloc key value).withCrown c).Allocated p) :
    d.RetiresAllocated (((d.alloc key value).withCrown c).retire (some p)) := by
  refine ⟨if d.dealloc then [some p] else [], retired_retire _ _, fun q hq => ⟨p, ?_, ?_⟩⟩
  · split at hq
    · exact List.mem_singleton.mp hq
    · cases hq
  · rw [Allocated, items_retire]
    exact h

variable {hash : κ → Hash} {key : κ} {value : Item} {r : DictItem κ}

namespace Models

/-- **`get`** gives the value of the key, or reports that there is none. -/
theorem get_spec (h : d.Models M) (hne : hash key ≠ 0) :
    d.get hash key =
      some ((d.contents (hash key)).elim (null, false) fun r => (r.value, true)) := by
  obtain ⟨k, hrep⟩ := h.represents
  have hget := hrep.store_get hne
  rcases h.cases (hash key) with ⟨hp, hc⟩ | ⟨p, r, hp, hall, hr, hc⟩
  · simp [get, hget, hp, hc]
  · simp [get, hget, hp, hc, hall.1, hr]

/-- A put stores a new item, and gives the old one. -/
theorem storePut_spec (h : d.Models M) (hne : hash key ≠ 0) (value : Item) (n : ℕ) :
    ∃ crown found, Crown.storePut (hash key) (d.items.length + 1) (n + 2) 0 d.crownInstance =
        some (crown, (M.lookup (hash key)).getD null, found) ∧
      ((d.alloc key value).withCrown crown).Sound ∧
      ((d.alloc key value).withCrown crown).contents =
        Function.update d.contents (hash key) (some ⟨key, value⟩) := by
  obtain ⟨k, hrep⟩ := h.represents
  obtain ⟨crown, found, hput, hcrown⟩ := hrep.store_put hne (d.items.length + 1) n
  obtain ⟨hmodels, hcontents⟩ := h.insert key value hcrown
  exact ⟨crown, found, hput, ⟨_, hmodels⟩, hcontents⟩

theorem sound_retire (h : d.Sound) (p : Option Item) :
    (d.retire p).Sound ∧ (d.retire p).contents = d.contents := by
  obtain ⟨M, hM⟩ := h
  exact ⟨⟨M, (hM.retire p).1⟩, (hM.retire p).2⟩

/-- **`put`** replaces what the key had. -/
theorem put_spec (h : d.Models M) (hne : hash key ≠ 0) (value : Item) (n : ℕ) :
    ∃ d', d.put hash (n + 2) key value = some d' ∧ d'.Sound ∧
      d'.contents = Function.update d.contents (hash key) (some ⟨key, value⟩) := by
  obtain ⟨crown, found, hput, hsound, hcontents⟩ := h.storePut_spec hne value n
  rcases h.cases (hash key) with ⟨hp, _⟩ | ⟨p, r, hp, hall, _⟩
  · exact ⟨_, by simp [put, newItem_alloc, hput, hp], hsound, hcontents⟩
  · obtain ⟨hsound', hcontents'⟩ := sound_retire hsound (some p)
    refine ⟨_, ?_, hsound', by rw [hcontents', hcontents]⟩
    simp [put, newItem_alloc, hput, hp, hall.1, eject_of_ne]

/-- **`replace`** does it for a key that is there. -/
theorem replace_present (h : d.Models M) (hne : hash key ≠ 0)
    (hpres : d.contents (hash key) = some r) (value : Item) (n : ℕ) :
    ∃ d', d.replace hash (n + 2) key value = some (d', true) ∧ d'.Sound ∧
      d'.contents = Function.update d.contents (hash key) (some ⟨key, value⟩) := by
  obtain ⟨crown, found, hput, hsound, hcontents⟩ := h.storePut_spec hne value n
  rcases h.cases (hash key) with ⟨_, hc⟩ | ⟨p, r, hp, hall, _⟩
  · rw [hpres] at hc
    cases hc
  · obtain ⟨hsound', hcontents'⟩ := sound_retire hsound (some p)
    refine ⟨_, ?_, hsound', by rw [hcontents', hcontents]⟩
    simp [replace, newItem_alloc, hput, hp, hall.1, eject_of_ne]

/-- For one that is not there it does it too, and reports that it did not. -/
theorem replace_absent (h : d.Models M) (hne : hash key ≠ 0)
    (habs : d.contents (hash key) = none) (value : Item) (n : ℕ) :
    ∃ d', d.replace hash (n + 2) key value = some (d', false) ∧ d'.Sound ∧
      d'.contents = Function.update d.contents (hash key) (some ⟨key, value⟩) := by
  obtain ⟨crown, found, hput, hsound, hcontents⟩ := h.storePut_spec hne value n
  rcases h.cases (hash key) with ⟨hp, _⟩ | ⟨p, r, _, _, _, hc⟩
  · obtain ⟨hsound', hcontents'⟩ := sound_retire hsound (some (d.items.length + 1))
    refine ⟨_, ?_, hsound', by rw [hcontents', hcontents]⟩
    simp [replace, newItem_alloc, hput, hp]
  · rw [habs] at hc
    cases hc

/-- **`add`** puts a new key. -/
theorem add_absent (h : d.Models M) (hne : hash key ≠ 0) (habs : d.contents (hash key) = none)
    (value : Item) (n : ℕ) :
    ∃ d', d.add hash (n + 2) key value = some (d', true) ∧ d'.Sound ∧
      d'.contents = Function.update d.contents (hash key) (some ⟨key, value⟩) ∧
      d'.retired = d.retired := by
  obtain ⟨k, hrep⟩ := h.represents
  obtain ⟨crown, hadd, hcrown⟩ := hrep.store_add hne (d.items.length + 1) n
  rcases h.cases (hash key) with ⟨hp, _⟩ | ⟨p, r, _, _, _, hc⟩
  · simp only [hp, Option.isSome_none, Bool.false_eq_true, if_false, Option.isNone_none]
      at hcrown hadd
    obtain ⟨hmodels, hcontents⟩ := h.insert key value hcrown
    exact ⟨_, by simp [add, newItem_alloc, hadd], ⟨_, hmodels⟩, hcontents, rfl⟩
  · rw [habs] at hc
    cases hc

/-- A key that is there is left as it is. -/
theorem add_present (h : d.Models M) (hne : hash key ≠ 0)
    (hpres : d.contents (hash key) = some r) (value : Item) (n : ℕ) :
    ∃ d', d.add hash (n + 2) key value = some (d', false) ∧ d'.Sound ∧
      d'.contents = d.contents := by
  obtain ⟨k, hrep⟩ := h.represents
  obtain ⟨crown, hadd, hcrown⟩ := hrep.store_add hne (d.items.length + 1) n
  rcases h.cases (hash key) with ⟨_, hc⟩ | ⟨p, r, hp, _⟩
  · rw [hpres] at hc
    cases hc
  · simp only [hp, Option.isSome_some, if_true, Option.isNone_some] at hcrown hadd
    obtain ⟨hmodels, hcontents⟩ := h.alloc key value hcrown
    obtain ⟨hsound', hcontents'⟩ := sound_retire ⟨M, hmodels⟩ (some (d.items.length + 1))
    refine ⟨_, ?_, hsound', by rw [hcontents', hcontents]⟩
    simp [add, newItem_alloc, hadd]

/-- The exchange of the item that is there puts the new one. -/
theorem exchange_present (h : d.Models M) (hne : hash key ≠ 0) (hp : M.lookup (hash key) = some p)
    (value : Item) (n : ℕ) :
    ∃ d', d.exchange hash (n + 1) key value p = some (d', true) ∧ d'.Sound ∧
      d'.contents = Function.update d.contents (hash key) (some ⟨key, value⟩) ∧
      d.RetiresAllocated d' := by
  obtain ⟨k, hrep⟩ := h.represents
  have hall := h.allocated _ _ hp
  obtain ⟨crown, found, hcas, ⟨_, hfound, hcrown⟩ | ⟨hno, _⟩⟩ :=
    hrep.cas_spec hne (d.items.length + 1) p n
  · obtain ⟨hmodels, hcontents⟩ := h.insert key value hcrown
    obtain ⟨hsound', hcontents'⟩ := sound_retire ⟨_, hmodels⟩ (some p)
    refine ⟨_, ?_, hsound', by rw [hcontents', hcontents], .of_retire ⟨hall.1, hall.2.trans ?_⟩⟩
    · simp [exchange, newItem_alloc, hcas, hfound, hall.1, eject_of_ne]
    · simp [HatrackDict.alloc]
  · exact absurd hp hno

/-- For a key that is not there it puts the new one too, if nothing is freed. -/
theorem exchange_absent (h : d.Models M) (hne : hash key ≠ 0) (hp : M.lookup (hash key) = none)
    (value : Item) (n : ℕ) :
    (d.freeHandler = true ∧ d.exchange hash (n + 1) key value null = none) ∨
      ∃ d', d.exchange hash (n + 1) key value null = some (d', true) ∧ d'.Sound ∧
        d'.contents = d.contents := by
  obtain ⟨k, hrep⟩ := h.represents
  obtain ⟨crown, found, hcas, ⟨hsome, _⟩ | ⟨_, hfound, hcrown⟩⟩ :=
    hrep.cas_spec hne (d.items.length + 1) null n
  · rw [hp] at hsome
    cases hsome
  · have hrep' : ∃ k, Represents crown M k := ⟨k, hcrown ▸ hrep⟩
    obtain ⟨hmodels, hcontents⟩ := h.alloc key value hrep'
    cases hhandler : d.freeHandler with
    | true =>
      have hfree : ((d.alloc key value).withCrown crown).freeHandler = true := hhandler
      exact .inl ⟨rfl, by simp [exchange, newItem_alloc, hcas, hfound, eject, hfree]⟩
    | false =>
      have hfree : ((d.alloc key value).withCrown crown).freeHandler = false := hhandler
      obtain ⟨hsound', hcontents'⟩ := sound_retire ⟨_, hmodels⟩ (some null)
      refine .inr ⟨_, ?_, hsound', by rw [hcontents', hcontents]⟩
      simp [exchange, newItem_alloc, hcas, hfound, eject, hfree]

/-- **`remove`** takes a key out, and reports if it was there. -/
theorem remove_spec (h : d.Models M) (hne : hash key ≠ 0) (n : ℕ) :
    ∃ d', d.remove hash (n + 1) key = some (d', (d.contents (hash key)).isSome) ∧ d'.Sound := by
  obtain ⟨k, hrep⟩ := h.represents
  obtain ⟨crown, found, hremove, hcrown⟩ := hrep.store_remove hne n
  have hmodels : (d.withCrown crown).Models (M.remove (hash key)) := by
    refine ⟨hcrown, fun hv p hp => ?_⟩
    rw [OrderedMap.lookup_remove] at hp
    split at hp
    · cases hp
    · exact h.allocated hv p hp
  rcases h.cases (hash key) with ⟨hp, hc⟩ | ⟨p, r, hp, hall, _, hc⟩
  · exact ⟨_, by simp [remove, hremove, hp, hc], _, hmodels⟩
  · exact ⟨_, by simp [remove, hremove, hp, hc, hall.1, eject_of_ne],
      (sound_retire ⟨_, hmodels⟩ (some p)).1⟩

/-- A view leaves what the dictionary holds. -/
theorem view_spec (h : d.Models M) (sort : Bool) :
    ∃ d' rs, d.view sort = some (d', rs) ∧ d'.Models M := by
  obtain ⟨k, hrep⟩ := h.represents
  obtain ⟨rs, hrs⟩ : ∃ rs, ((d.crownInstance.view sort).mapM fun e => d.record e.1) = some rs := by
    have hall : ∀ L : List (Item × ℕ), (∀ e ∈ L, e ∈ d.crownInstance.view sort) →
        ∃ rs, (L.mapM fun e => d.record e.1) = some rs := by
      intro L
      induction L with
      | nil => exact fun _ => ⟨[], rfl⟩
      | cons e L ih =>
        intro hL
        obtain ⟨hv, hp⟩ := hrep.mem_view (hL e List.mem_cons_self)
        obtain ⟨r, hr⟩ := (h.allocated hv _ hp).record
        obtain ⟨rs, hrs⟩ := ih fun e he => hL e (List.mem_cons_of_mem _ he)
        exact ⟨r :: rs, by simp [List.mapM_cons, hr, hrs]⟩
    exact hall _ fun _ he => he
  refine ⟨_, rs, by simp [view, hrs]; rfl, ?_⟩
  split
  · obtain ⟨k', hmigrate, _⟩ := hrep.migrate
    exact ⟨⟨k', hmigrate⟩, h.allocated⟩
  · exact h

end Models

/-! ## Calls that report what they do -/

/-- A call of `hatrack_dict_cas` finds what it expects. -/
def Expected (d : HatrackDict κ) (hv : Hash) (expected : Item) (nullMeansMissing : Bool) : Prop :=
  (∃ r, d.contents hv = some r ∧ r.value = expected) ∨
    (d.contents hv = none ∧ expected = null ∧ nullMeansMissing = true)

/-- `hatrack_dict_replace` rebinds a key that is there and returns true, or returns false and
changes nothing. -/
def ReplaceReports (hash : κ → Hash) (n : ℕ) (d : HatrackDict κ) (key : κ) (value : Item) : Prop :=
  ∃ d' ok, d.replace hash n key value = some (d', ok) ∧
    (ok = true ↔ (d.contents (hash key)).isSome) ∧
    d'.contents =
      if (d.contents (hash key)).isSome then
        Function.update d.contents (hash key) (some ⟨key, value⟩)
      else d.contents

/-- `hatrack_dict_cas` binds the key and returns true when it finds what it expects. Otherwise it
returns false and changes nothing. What it retires was allocated. -/
def CasReports (hash : κ → Hash) (n : ℕ) (d : HatrackDict κ) (key : κ) (value expected : Item)
    (nullMeansMissing : Bool) : Prop :=
  ∃ d' ok, d.cas hash n key value expected nullMeansMissing = some (d', ok) ∧
    (ok = true ↔ d.Expected (hash key) expected nullMeansMissing) ∧
    (ok = true → d'.contents = Function.update d.contents (hash key) (some ⟨key, value⟩)) ∧
    (ok = false → d'.contents = d.contents) ∧ d.RetiresAllocated d'

def Reports (hash : κ → Hash) (n : ℕ) (d : HatrackDict κ) : DictOp κ → Prop
  | .replace key value => d.ReplaceReports hash n key value
  | .cas key value expected nullMeansMissing =>
    d.CasReports hash n key value expected nullMeansMissing
  | _ => True

/-- A replacement is of a key that is there. An exchange finds what it expects, or another value in
a program where nothing is retired. -/
def Meets (hash : κ → Hash) (d : HatrackDict κ) : DictOp κ → Prop
  | .replace key _ => (d.contents (hash key)).isSome
  | .cas key _ expected nullMeansMissing =>
    d.Expected (hash key) expected nullMeansMissing ∨
      ((d.contents (hash key)).isSome ∧ d.dealloc = false)
  | _ => True

/-- A history goes on with any call. Where memory is given back, the call meets the condition, since
after another one the table may have the address of a record that is gone. -/
def Goes (hash : κ → Hash) (d : HatrackDict κ) (op : DictOp κ) : Prop :=
  d.dealloc = true → Meets hash d op

namespace Models

/-- `replace` reports rightly just if the key is there. -/
theorem replace_reports_iff (h : d.Models M) (hne : hash key ≠ 0) (value : Item) (n : ℕ) :
    d.ReplaceReports hash (n + 2) key value ↔ (d.contents (hash key)).isSome := by
  rcases h.cases (hash key) with ⟨_, hc⟩ | ⟨_, r, _, _, _, hc⟩
  · obtain ⟨d', hreplace, _, hcontents⟩ := h.replace_absent hne hc value n
    simp only [hc, Option.isSome_none, Bool.false_eq_true, iff_false]
    rintro ⟨d₁, ok, hcall, _, hsame⟩
    rw [hreplace, Option.some.injEq, Prod.mk.injEq] at hcall
    rw [← hcall.1, hcontents, hc] at hsame
    have hat := congrFun hsame (hash key)
    rw [Function.update_self] at hat
    simp [hc] at hat
  · obtain ⟨d', hreplace, _, hcontents⟩ := h.replace_present hne hc value n
    simp only [hc, Option.isSome_some, iff_true]
    exact ⟨d', true, hreplace, by simp [hc], by simp [hc, hcontents]⟩

/-- **`cas`** of what is expected puts the new value. -/
theorem cas_expected (h : d.Models M) (hne : hash key ≠ 0) {expected : Item} {missing : Bool}
    (hexp : d.Expected (hash key) expected missing) (value : Item) (n : ℕ) :
    ∃ d', d.cas hash (n + 2) key value expected missing = some (d', true) ∧ d'.Sound ∧
      d'.contents = Function.update d.contents (hash key) (some ⟨key, value⟩) ∧
      d.RetiresAllocated d' := by
  obtain ⟨k, hrep⟩ := h.represents
  have hget := hrep.store_get hne
  rcases h.cases (hash key) with ⟨hp, hc⟩ | ⟨p, r, hp, hall, hr, hc⟩
  · rcases hexp with ⟨_, hsome, _⟩ | ⟨_, rfl, rfl⟩
    · rw [hc] at hsome
      cases hsome
    · obtain ⟨d', hadd, hsound, hcontents, hretired⟩ := h.add_absent hne hc value n
      exact ⟨d', by simp [cas, hget, hp, hadd], hsound, hcontents, [], by simp [hretired],
        by simp⟩
  · rcases hexp with ⟨_, hsome, rfl⟩ | ⟨hnone, _⟩
    · rw [hc, Option.some.injEq] at hsome
      subst hsome
      obtain ⟨d', hexchange, hsound, hcontents, hretired⟩ :=
        h.exchange_present hne hp value (n + 1)
      exact ⟨d', by simp [cas, hget, hp, hall.1, hr, hexchange], hsound, hcontents, hretired⟩
    · rw [hc] at hnone
      cases hnone

/-- With another value there it does nothing. -/
theorem cas_other (h : d.Models M) (hne : hash key ≠ 0) {expected : Item} (missing : Bool)
    (hpres : d.contents (hash key) = some r) (hother : r.value ≠ expected) (value : Item) (n : ℕ) :
    d.cas hash n key value expected missing = some (d.retire none, false) := by
  obtain ⟨k, hrep⟩ := h.represents
  have hget := hrep.store_get hne
  rcases h.cases (hash key) with ⟨_, hc⟩ | ⟨p, r', hp, hall, hr, hc⟩
  · rw [hpres] at hc
    cases hc
  · rw [hpres, Option.some.injEq] at hc
    subst hc
    simp [cas, hget, hp, hall.1, hr, hother]

/-- For a key that is not there it does what it should not. -/
theorem cas_absent (h : d.Models M) (hne : hash key ≠ 0) {expected : Item} {missing : Bool}
    (habs : d.contents (hash key) = none) (hexp : ¬d.Expected (hash key) expected missing)
    (value : Item) (n : ℕ) :
    (d.freeHandler = true ∧ d.cas hash (n + 1) key value expected missing = none) ∨
      ∃ d', d.cas hash (n + 1) key value expected missing = some (d', true) ∧ d'.Sound ∧
        d'.contents = d.contents := by
  obtain ⟨k, hrep⟩ := h.represents
  have hget := hrep.store_get hne
  rcases h.cases (hash key) with ⟨hp, _⟩ | ⟨_, _, _, _, _, hc⟩
  · have hguard : ¬(missing = true ∧ expected = null) :=
      fun ⟨hmissing, hnull⟩ => hexp (.inr ⟨habs, hnull, hmissing⟩)
    have hcas : d.cas hash (n + 1) key value expected missing =
        d.exchange hash (n + 1) key value null := by
      simp [cas, hget, hp, hguard]
    rw [hcas]
    exact h.exchange_absent hne hp value n
  · rw [habs] at hc
    cases hc

/-- `cas` reports rightly just if the value is expected, or one is there and nothing is freed. -/
theorem cas_reports_iff (h : d.Models M) (hne : hash key ≠ 0) (value expected : Item)
    (missing : Bool) (n : ℕ) :
    d.CasReports hash (n + 2) key value expected missing ↔
      d.Expected (hash key) expected missing ∨
        ((d.contents (hash key)).isSome ∧ d.dealloc = false) := by
  by_cases hexp : d.Expected (hash key) expected missing
  · obtain ⟨d', hcas, _, hcontents, hretired⟩ := h.cas_expected hne hexp value n
    exact iff_of_true ⟨d', true, hcas, by simp [hexp], fun _ => hcontents, by simp, hretired⟩
      (.inl hexp)
  · simp only [hexp, false_or]
    rcases h.cases (hash key) with ⟨_, hc⟩ | ⟨_, r, _, _, _, hc⟩
    · -- a success is reported, or there is no report
      simp only [hc, Option.isSome_none, Bool.false_eq_true, false_and, iff_false]
      rintro ⟨d₁, ok, hcall, hok, _⟩
      rcases h.cas_absent hne hc hexp value (n + 1) with ⟨_, hfault⟩ | ⟨d', hcas, _⟩
      · rw [hfault] at hcall
        cases hcall
      · rw [hcas, Option.some.injEq, Prod.mk.injEq] at hcall
        exact hexp (hok.mp hcall.2.symm)
    · have hother : r.value ≠ expected := fun hsame => hexp (.inl ⟨r, hc, hsame⟩)
      have hcas := h.cas_other hne missing hc hother value (n + 2)
      simp only [hc, Option.isSome_some, true_and]
      constructor
      · rintro ⟨d₁, ok, hcall, _, _, _, ps, hps, hall⟩
        rw [hcas, Option.some.injEq, Prod.mk.injEq] at hcall
        rw [← hcall.1, retired_retire, List.append_cancel_left_eq] at hps
        cases hdealloc : d.dealloc with
        | false => rfl
        | true =>
          obtain ⟨p, hp, _⟩ := hall none (by simp [← hps, hdealloc])
          cases hp
      · intro hdealloc
        exact ⟨d.retire none, false, hcas, by simp [hexp], by simp,
          fun _ => (h.retire none).2, [], by simp [retired_retire, hdealloc], by simp⟩

/-- **An operation reports rightly** just if it meets the condition. -/
theorem reports_iff (h : d.Models M) (hhash : ∀ key, hash key ≠ 0) (n : ℕ) (op : DictOp κ) :
    Reports hash (n + 2) d op ↔ Meets hash d op := by
  cases op with
  | replace key value => exact h.replace_reports_iff (hhash key) value n
  | cas key value expected missing => exact h.cas_reports_iff (hhash key) value expected missing n
  | _ => exact Iff.rfl

/-- Every operation keeps the dictionary sound. -/
theorem exec_sound (h : d.Models M) (hhash : ∀ key, hash key ≠ 0) (n : ℕ) (op : DictOp κ)
    (hexec : d.exec hash (n + 2) op = some d') : d'.Sound := by
  -- the calls that return something besides
  have hfst : ∀ {x : Option (HatrackDict κ × Bool)} {u : HatrackDict κ} {ok : Bool},
      x = some (u, ok) → u.Sound → x.map Prod.fst = some d' → d'.Sound := by
    rintro x u ok rfl hu hx
    obtain rfl := Option.some.inj hx
    exact hu
  cases op with
  | get key =>
    rw [exec, h.get_spec (hhash key)] at hexec
    obtain rfl := Option.some.inj hexec
    exact ⟨M, h⟩
  | put key value =>
    obtain ⟨u, hput, hu, _⟩ := h.put_spec (hhash key) value n
    rw [exec, hput] at hexec
    obtain rfl := Option.some.inj hexec
    exact hu
  | replace key value =>
    rcases h.cases (hash key) with ⟨_, hc⟩ | ⟨_, _, _, _, _, hc⟩
    · obtain ⟨u, hreplace, hu, _⟩ := h.replace_absent (hhash key) hc value n
      exact hfst hreplace hu hexec
    · obtain ⟨u, hreplace, hu, _⟩ := h.replace_present (hhash key) hc value n
      exact hfst hreplace hu hexec
  | cas key value expected missing =>
    by_cases hexp : d.Expected (hash key) expected missing
    · obtain ⟨u, hcas, hu, _⟩ := h.cas_expected (hhash key) hexp value n
      exact hfst hcas hu hexec
    · rcases h.cases (hash key) with ⟨_, hc⟩ | ⟨_, r, _, _, _, hc⟩
      · rcases h.cas_absent (hhash key) hc hexp value (n + 1) with ⟨_, hfault⟩ | ⟨u, hcas, hu, _⟩
        · rw [exec, hfault] at hexec
          cases hexec
        · exact hfst hcas hu hexec
      · exact hfst (h.cas_other (hhash key) missing hc (fun hsame => hexp (.inl ⟨r, hc, hsame⟩))
          value (n + 2)) ⟨M, (h.retire none).1⟩ hexec
  | add key value =>
    rcases h.cases (hash key) with ⟨_, hc⟩ | ⟨_, _, _, _, _, hc⟩
    · obtain ⟨u, hadd, hu, _⟩ := h.add_absent (hhash key) hc value n
      exact hfst hadd hu hexec
    · obtain ⟨u, hadd, hu, _⟩ := h.add_present (hhash key) hc value n
      exact hfst hadd hu hexec
  | remove key =>
    obtain ⟨u, hremove, hu⟩ := h.remove_spec (hhash key) (n + 1)
    exact hfst hremove hu hexec
  | view sort =>
    obtain ⟨u, rs, hview, hu⟩ := h.view_spec sort
    rw [exec, hview] at hexec
    obtain rfl := Option.some.inj hexec
    exact ⟨M, hu⟩
  | setFreeHandler handler | setConsistentViews value =>
    obtain rfl := Option.some.inj hexec
    exact ⟨M, h.represents, h.allocated⟩

end Models

/-- A new dictionary holds nothing. -/
theorem init_models {dealloc : Bool} {memory : ℕ} (h : init κ dealloc memory = some d) :
    d.Models [] := by
  obtain ⟨crown, hcrown, rfl⟩ := Option.map_eq_some_iff.mp h
  exact ⟨⟨_, (Crown.initSize_represents hcrown).1⟩, by simp [OrderedMap.lookup]⟩

variable {d₀ : HatrackDict κ}

/-- **In every history**, a replacement and an exchange report what they do exactly when they meet
the condition. -/
theorem run_reports_iff {dealloc : Bool} {memory : ℕ} (hinit : init κ dealloc memory = some d₀)
    (hhash : ∀ key, hash key ≠ 0) (n : ℕ)
    (hrun : Run (exec hash (n + 2)) (Goes hash) d₀ d) (op : DictOp κ) :
    Reports hash (n + 2) d op ↔ Meets hash d op := by
  obtain ⟨M, hM⟩ := hrun.invariant (I := Sound) ⟨[], init_models hinit⟩
    fun t op u ⟨M, hM⟩ _ hexec => hM.exec_sound hhash n op hexec
  exact hM.reports_iff hhash n op

def keyHash (key : ℕ) : Hash := BitVec.ofNat 128 (key % 2 ^ 64 + 1)

theorem keyHash_ne_zero (key : ℕ) : keyHash key ≠ 0 := by
  intro h
  have hnat := congrArg BitVec.toNat h
  rw [keyHash, BitVec.toNat_ofNat, Nat.mod_eq_of_lt (by omega)] at hnat
  exact absurd hnat (Nat.succ_ne_zero _)

/-- A key that is there is exchanged when its value is expected, and is left alone otherwise. -/
theorem run_reports_iff_exchanged :
    ∃ d₀ d, init ℕ false 3 = some d₀ ∧ exec keyHash 2 d₀ (.put 5 7) = some d ∧
      Reports keyHash 2 d (.cas 5 8 7 false) ∧ Reports keyHash 2 d (.cas 5 8 9 false) := by
  have hreports {d₀ d : HatrackDict ℕ} (hinit : init ℕ false 3 = some d₀)
      (hput : exec keyHash 2 d₀ (.put 5 7) = some d) (op : DictOp ℕ) :
      Reports keyHash 2 d op ↔ Meets keyHash d op :=
    run_reports_iff hinit keyHash_ne_zero 0 (.tail (e := .put 5 7) .refl (fun _ => trivial) hput) op
  refine ⟨_, _, rfl, rfl, ?_, ?_⟩
  · exact (hreports rfl rfl _).mpr (.inl (.inl ⟨⟨5, 7⟩, by decide, rfl⟩))
  · exact (hreports rfl rfl _).mpr (.inr ⟨by decide, rfl⟩)

/-- **In an empty dictionary** a replacement that returns false binds its key, and an exchange that
expects a value returns true. -/
theorem not_reports :
    ∃ d₀, init ℕ false 3 = some d₀ ∧ ¬Reports keyHash 2 d₀ (.replace 5 7) ∧
      ¬Reports keyHash 2 d₀ (.cas 5 7 9 false) := by
  refine ⟨_, rfl, ?_, ?_⟩
  · rintro ⟨d', ok, hcall, _, hsame⟩
    obtain rfl := congrArg Prod.fst (Option.some.inj hcall)
    have hat := congrFun hsame (keyHash 5)
    revert hat
    decide
  · rintro ⟨d', ok, hcall, hok, _⟩
    obtain rfl := congrArg Prod.snd (Option.some.inj hcall)
    rcases hok.mp rfl with ⟨r, hr, _⟩ | ⟨_, hnull, _⟩
    · rw [(init_models (rfl : init ℕ false 3 = some _)).contents_eq] at hr
      cases hr
    · cases hnull

end HatrackDict

end N00b.Hatrack
