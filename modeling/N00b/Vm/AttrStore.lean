import N00b.Lib.Trace

/-!
# The attribute store

Attributes are kept by name in `vm->attrs`. Every write puts a new record with the flags of the
attribute: whether it is set, whether it is locked, whether it will be locked by the next write, the
module that has locked it, and whether its value was set with override.

There is no attribute spec in use, so `populate_defaults` does nothing.

## Main results

* `attrSet_cases`, `attrLock_cases`: what the two calls can do.
* `guarded_step`: a locked or overridden attribute stays so and keeps its contents under sets without
  override, unless `n00b_vm_attr_lock` drops the override flag.
* `attrs_hold`: locks and overrides hold in all runs that do not mix them in one of two ways.
-/

namespace N00b.Attr

open N00b.Lib

variable {τ α : Type}

/-- The instruction that set an attribute, by module and index. -/
structure InstrRef where
  moduleId : Nat
  index : Int
  deriving DecidableEq, Repr

/-- `n00b_attr_contents_t`. The `type` field is never written. -/
structure AttrContents (α : Type) where
  lastset : Option InstrRef := none
  contents : Option α := none
  isSet : Bool := false
  locked : Bool := false
  lockOnWrite : Bool := false
  moduleLock : Int := 0
  override : Bool := false

/-- What the calls read of the thread: the current module, whether it runs, and `pc`. -/
structure Thread where
  moduleId : Nat
  running : Bool
  pc : Int

/-- `vm->attrs` and `vm->obj->using_attrs`. -/
structure Store (α : Type) where
  attrs : String → Option (AttrContents α)
  usingAttrs : Bool

def Store.empty : Store α := ⟨fun _ => none, false⟩

def Store.put (st : Store α) (key : String) (info : AttrContents α) : Store α :=
  { st with attrs := Function.update st.attrs key (some info) }

/-- What a call leaves, and the message it raises. -/
structure Outcome (α : Type) where
  store : Store α
  raised : Option String

variable (eq : τ → α → α → Bool)

/-- `n00b_eq` on the old contents, which may be `NULL`. -/
def sameContents (type : τ) (value : α) : Option α → Bool
  | none => false
  | some old => eq type value old

/-- `locked` of the source: by its own flag, or by another module. -/
def AttrContents.isLockedFor (info : AttrContents α) (thread : Thread) : Bool :=
  info.locked || (info.moduleLock != 0 && (info.moduleLock % 2 ^ 32).toNat != thread.moduleId)

def attrSet (thread : Thread) (key : String) (value : α) (type : τ) (lock override internal : Bool)
    (st : Store α) : Outcome α :=
  let st := { st with usingAttrs := true }
  let info : AttrContents α :=
    { contents := some value
      isSet := true
      override := override
      lastset := if thread.running then some ⟨thread.moduleId, thread.pc - 1⟩ else none }
  match st.attrs key with
  | none =>
    ⟨st.put key { info with locked := lock && !internal }, none⟩
  | some old =>
    if old.override && !override then
      ⟨st, none⟩
    else if old.isLockedFor thread && (!override && old.isSet) then
      if sameContents eq type value old.contents then ⟨st, none⟩
      else ⟨st, some ("attribute is locked: " ++ key)⟩
    else
      ⟨st.put key { info with
        moduleLock := old.moduleLock
        locked := (lock && !internal) || old.lockOnWrite }, none⟩

/-- `on_write` is not read. -/
def attrLock (key : String) (_onWrite : Bool) (st : Store α) : Outcome α :=
  match st.attrs key with
  | none => ⟨st.put key { lockOnWrite := true }, none⟩
  | some old =>
    if old.locked then
      ⟨st, some ("attribute already locked: " ++ key)⟩
    else
      ⟨st.put key { lockOnWrite := true, contents := old.contents, isSet := old.isSet }, none⟩

/-- `n00b_vm_attr_get` with `found`. -/
def attrGet (key : String) (st : Store α) : Option α :=
  match st.attrs key with
  | none => none
  | some info => if info.isSet then info.contents else none

/-! ## Runs -/

inductive Call (τ α : Type) where
  | set (thread : Thread) (key : String) (value : α) (type : τ) (locks override internal : Bool)
  | lock (key : String) (onWrite : Bool)

def Call.exec (c : Call τ α) (st : Store α) : Outcome α :=
  match c with
  | .set thread key value type locks override internal =>
    attrSet eq thread key value type locks override internal st
  | .lock key onWrite => attrLock key onWrite st

def Call.key : Call τ α → String
  | .set _ key _ _ _ _ _ => key
  | .lock key _ => key

/-- The store after the first `j` calls of a run. -/
def storeAt (calls : List (Call τ α)) (j : Nat) : Store α :=
  stateAt (fun st (c : Call τ α) => (c.exec eq st).store) .empty calls j

/-- The `j`-th call of the run is `c`, and it raises nothing. -/
def Succeeds (calls : List (Call τ α)) (j : Nat) (c : Call τ α) : Prop :=
  calls[j]? = some c ∧ (c.exec eq (storeAt eq calls j)).raised = none

/-- Locks and overrides hold over the run. -/
structure Holds (calls : List (Call τ α)) : Prop where
  /-- Once an attribute is set and locked, a set without override has no effect. -/
  locked : ∀ i j key info, i ≤ j → (storeAt eq calls i).attrs key = some info →
    info.isSet = true → info.locked = true →
    ∀ thread value type lock internal,
      calls[j]? = some (.set thread key value type lock false internal) →
      (storeAt eq calls (j + 1)).attrs = (storeAt eq calls j).attrs
  /-- Once an attribute was set with override, only sets with override change its contents. -/
  overridden : ∀ i thread key value type lock internal,
    Succeeds eq calls i (.set thread key value type lock true internal) →
    ∀ j c, i < j → calls[j]? = some c →
      attrGet key (storeAt eq calls (j + 1)) = attrGet key (storeAt eq calls j) ∨
      ∃ thread value type lock internal, c = .set thread key value type lock true internal
  /-- After `n00b_vm_attr_lock` the next set of the attribute takes effect, and after that a set
  without override to another value raises. -/
  lockOnWrite : ∀ i key onWrite, Succeeds eq calls i (.lock key onWrite) →
    ∀ j thread value type lock override internal, i < j →
      calls[j]? = some (.set thread key value type lock override internal) →
      (∀ m c, i < m → m < j → calls[m]? = some c → c.key = key → ∃ onWrite, c = .lock key onWrite) →
      (Succeeds eq calls j (.set thread key value type lock override internal) ∧
        attrGet key (storeAt eq calls (j + 1)) = some value) ∧
      ∀ k thread' value' type' lock' internal', j < k →
        calls[k]? = some (.set thread' key value' type' lock' false internal') →
        sameContents eq type' value' (attrGet key (storeAt eq calls k)) = false →
        ¬ Succeeds eq calls k (.set thread' key value' type' lock' false internal')
  /-- A call that raises leaves the store as it was. -/
  raised : ∀ j c, calls[j]? = some c → ¬ Succeeds eq calls j c →
    (storeAt eq calls (j + 1)).attrs = (storeAt eq calls j).attrs

/-- The run makes no call of two kinds: an `n00b_vm_attr_lock` of an attribute that is not locked
and whose value was set with override, and a set without override, to another value, of an attribute
that was locked by an earlier `n00b_vm_attr_lock` and has been set with override since. -/
structure Careful (calls : List (Call τ α)) : Prop where
  lock : ∀ j key onWrite info, calls[j]? = some (.lock key onWrite) →
    (storeAt eq calls j).attrs key = some info → info.override = true → info.locked = true
  set : ∀ i j key onWrite thread value type lock internal info, i < j →
    Succeeds eq calls i (.lock key onWrite) →
    calls[j]? = some (.set thread key value type lock false internal) →
    (storeAt eq calls j).attrs key = some info → info.override = true →
    sameContents eq type value info.contents = true

/-! ## One call -/

variable {eq} {st : Store α} {key : String} {value : α} {type : τ} {thread : Thread}
  {lock override internal : Bool} {out : Outcome α}

/-- What a call of `attr_set` on an attribute can do. -/
theorem attrSet_cases {old : AttrContents α} (hold : st.attrs key = some old)
    (hout : attrSet eq thread key value type lock override internal st = out) :
    (out.raised = none ∧ out.store.attrs = st.attrs ∧ old.override = true ∧ override = false) ∨
    (out.raised = none ∧ out.store.attrs = st.attrs ∧ override = false ∧
      old.isLockedFor thread = true ∧ sameContents eq type value old.contents = true) ∨
    (out.raised ≠ none ∧ out.store.attrs = st.attrs ∧ override = false ∧
      old.isLockedFor thread = true ∧ sameContents eq type value old.contents = false) ∨
    (out.raised = none ∧ (old.override = true → override = true) ∧
      (old.isSet = true → old.locked = true → override = true) ∧
      ∃ info, out.store.attrs = Function.update st.attrs key (some info) ∧
        info.contents = some value ∧ info.isSet = true ∧ info.override = override ∧
        (old.lockOnWrite = true → info.locked = true)) := by
  subst hout
  unfold attrSet
  simp only [hold]
  split
  next h =>
    simp only [Bool.and_eq_true, Bool.not_eq_true'] at h
    exact Or.inl ⟨rfl, rfl, h.1, h.2⟩
  next hover =>
    split
    next h =>
      simp only [Bool.and_eq_true, Bool.not_eq_true'] at h
      split
      next heq => exact Or.inr (Or.inl ⟨rfl, rfl, h.2.1, h.1, heq⟩)
      next heq =>
        exact Or.inr (Or.inr (Or.inl ⟨by simp, rfl, h.2.1, h.1, by simpa using heq⟩))
    next hlock =>
      refine Or.inr (Or.inr (Or.inr ⟨rfl, ?_, ?_, _, rfl, rfl, rfl, rfl, ?_⟩))
      · intro ho
        simpa [ho] using hover
      · intro hset hlocked
        simpa [AttrContents.isLockedFor, hset, hlocked] using hlock
      · intro hl
        simp [hl]

/-- A new attribute is set without an error. -/
theorem attrSet_none (hold : st.attrs key = none)
    (hout : attrSet eq thread key value type lock override internal st = out) :
    out.raised = none ∧ ∃ info, out.store.attrs = Function.update st.attrs key (some info) ∧
      info.contents = some value ∧ info.isSet = true ∧ info.override = override := by
  subst hout
  unfold attrSet
  simp only [hold]
  exact ⟨trivial, _, rfl, rfl, rfl, rfl⟩

/-- What a lock can do. -/
theorem attrLock_cases (onWrite : Bool) (st : Store α) (key : String) :
    (∃ old, st.attrs key = some old ∧ old.locked = true ∧
      (attrLock key onWrite st).raised ≠ none ∧ (attrLock key onWrite st).store = st) ∨
    ((∀ old, st.attrs key = some old → old.locked = false) ∧
      (attrLock key onWrite st).raised = none ∧
      ∃ info : AttrContents α, (attrLock key onWrite st).store.attrs =
          Function.update st.attrs key (some info) ∧
        info.lockOnWrite = true ∧ info.locked = false ∧ info.moduleLock = 0 ∧
        info.override = false) := by
  unfold attrLock
  cases hold : st.attrs key with
  | none => exact Or.inr ⟨(fun _ h => nomatch h), rfl, _, rfl, rfl, rfl, rfl, rfl⟩
  | some old =>
    cases hlocked : old.locked with
    | true =>
      refine Or.inl ⟨old, rfl, hlocked, ?_, ?_⟩
      · simp [hlocked]
      · simp [hlocked]
    | false =>
      refine Or.inr ⟨?_, ?_, { lockOnWrite := true, contents := old.contents, isSet := old.isSet },
        ?_, rfl, rfl, rfl, rfl⟩
      · rintro _ h
        rw [← Option.some.inj h]
        exact hlocked
      · simp [hlocked]
      · simp [hlocked, Store.put]

/-- A call on one attribute leaves the others. -/
theorem exec_of_ne (c : Call τ α) (hne : c.key ≠ key) :
    (c.exec eq st).store.attrs key = st.attrs key := by
  have hput : ∀ info : AttrContents α,
      Function.update st.attrs c.key (some info) key = st.attrs key :=
    fun info => Function.update_of_ne hne.symm _ _
  cases c with
  | set thread k value type lock override internal =>
    rw [Call.exec]
    generalize hout : attrSet eq thread k value type lock override internal st = out
    cases hold : st.attrs k with
    | none =>
      obtain ⟨-, info, hst, -⟩ := attrSet_none hold hout
      exact (congrFun hst key).trans (hput info)
    | some old =>
      rcases attrSet_cases hold hout with
        ⟨-, hst, -⟩ | ⟨-, hst, -⟩ | ⟨-, hst, -⟩ | ⟨-, -, -, info, hst, -⟩
      · exact congrFun hst key
      · exact congrFun hst key
      · exact congrFun hst key
      · exact (congrFun hst key).trans (hput info)
  | lock k onWrite =>
    rcases attrLock_cases onWrite st k with ⟨_, -, -, -, hst⟩ | ⟨-, -, info, hst, -⟩
    · exact congrFun (congrArg Store.attrs hst) key
    · exact (congrFun hst key).trans (hput info)

/-- What raises changes nothing. -/
theorem exec_of_raised (c : Call τ α) (h : (c.exec eq st).raised ≠ none) :
    (c.exec eq st).store.attrs = st.attrs := by
  cases c with
  | set thread k value type lock override internal =>
    cases hold : st.attrs k with
    | none => exact absurd (attrSet_none hold rfl).1 h
    | some old =>
      rcases attrSet_cases hold rfl with hc | hc | hc | hc
      · exact hc.2.1
      · exact hc.2.1
      · exact hc.2.1
      · exact absurd hc.1 h
  | lock k onWrite =>
    rcases attrLock_cases onWrite st k with ⟨_, -, -, -, hst⟩ | ⟨-, hr, -⟩
    · exact congrArg Store.attrs hst
    · exact absurd hr h

/-! ## What calls keep -/

/-- The attribute is set, and locked or overridden. -/
def Guarded (key : String) (st : Store α) : Prop :=
  ∃ info, st.attrs key = some info ∧ info.isSet = true ∧
    (info.locked = true ∨ info.override = true)

/-- The value of the attribute was set with override. -/
def Overridden (key : String) (st : Store α) : Prop :=
  ∃ info, st.attrs key = some info ∧ info.isSet = true ∧ info.override = true

/-- The next set of the attribute will lock it. -/
def Pending (key : String) (st : Store α) : Prop :=
  ∃ info, st.attrs key = some info ∧ info.lockOnWrite = true ∧ info.locked = false ∧
    info.moduleLock = 0 ∧ info.override = false

/-- The call is no lock of an unlocked attribute whose value was set with override. -/
def KeepsOverride (st : Store α) (c : Call τ α) : Prop :=
  ∀ key onWrite info, c = .lock key onWrite → st.attrs key = some info →
    info.override = true → info.locked = true

theorem Overridden.guarded (h : Overridden key st) : Guarded key st := by
  obtain ⟨info, hinfo, hset, hover⟩ := h
  exact ⟨info, hinfo, hset, Or.inr hover⟩

/-- A guarded attribute cannot be set. -/
theorem guarded_attrSet (h : Guarded key st) :
    (attrSet eq thread key value type lock false internal st).store.attrs = st.attrs := by
  obtain ⟨old, hold, hset, hguard⟩ := h
  rcases attrSet_cases hold rfl with hc | hc | hc | ⟨-, hover, hlocked, -⟩
  · exact hc.2.1
  · exact hc.2.1
  · exact hc.2.1
  · rcases hguard with hl | ho
    · exact nomatch hlocked hset hl
    · exact nomatch hover ho

variable {c : Call τ α}

/-- **It stays guarded**, unless a call overrides it. -/
theorem guarded_step (h : Guarded key st) (hc : KeepsOverride st c) :
    Guarded key (c.exec eq st).store := by
  by_cases hkey : c.key = key
  case neg =>
    obtain ⟨info, hinfo, hrest⟩ := h
    exact ⟨info, (exec_of_ne c hkey).trans hinfo, hrest⟩
  case pos =>
    obtain ⟨old, hold, hset, hguard⟩ := h
    cases c with
    | set thread k value type lock override internal =>
      obtain rfl : k = key := hkey
      rw [Call.exec]
      rcases attrSet_cases hold rfl with hst | hst | hst | ⟨-, hover, hlocked, info, hst, -, hs, ho, -⟩
      · exact ⟨old, by rw [hst.2.1]; exact hold, hset, hguard⟩
      · exact ⟨old, by rw [hst.2.1]; exact hold, hset, hguard⟩
      · exact ⟨old, by rw [hst.2.1]; exact hold, hset, hguard⟩
      · refine ⟨info, by rw [hst]; exact Function.update_self k _ _, hs, Or.inr (ho.trans ?_)⟩
        exact hguard.elim (hlocked hset) hover
    | lock k onWrite =>
      obtain rfl : k = key := hkey
      rcases attrLock_cases onWrite st k with ⟨_, -, -, -, hst⟩ | ⟨hfree, -⟩
      · exact ⟨old, (congrFun (congrArg Store.attrs hst) k).trans hold, hset, hguard⟩
      · have hfree' : old.locked = false := hfree old hold
        rcases hguard with hl | ho
        · exact nomatch hl.symm.trans hfree'
        · exact nomatch (hc k onWrite old rfl hold ho).symm.trans hfree'

/-- An overridden attribute stays overridden. -/
theorem overridden_step (h : Overridden key st) (hc : KeepsOverride st c) :
    Overridden key (c.exec eq st).store := by
  by_cases hkey : c.key = key
  case neg =>
    obtain ⟨info, hinfo, hrest⟩ := h
    exact ⟨info, (exec_of_ne c hkey).trans hinfo, hrest⟩
  case pos =>
    obtain ⟨old, hold, hset, hover⟩ := h
    cases c with
    | set thread k value type lock override internal =>
      obtain rfl : k = key := hkey
      rw [Call.exec]
      rcases attrSet_cases hold rfl with hst | hst | hst | ⟨-, hkeep, -, info, hst, -, hs, ho, -⟩
      · exact ⟨old, by rw [hst.2.1]; exact hold, hset, hover⟩
      · exact ⟨old, by rw [hst.2.1]; exact hold, hset, hover⟩
      · exact ⟨old, by rw [hst.2.1]; exact hold, hset, hover⟩
      · exact ⟨info, by rw [hst]; exact Function.update_self k _ _, hs, ho.trans (hkeep hover)⟩
    | lock k onWrite =>
      obtain rfl : k = key := hkey
      rcases attrLock_cases onWrite st k with ⟨_, -, -, -, hst⟩ | ⟨hfree, -⟩
      · exact ⟨old, (congrFun (congrArg Store.attrs hst) k).trans hold, hset, hover⟩
      · exact nomatch (hc k onWrite old rfl hold hover).symm.trans (hfree old hold)

/-- Its value is kept, unless it is overridden again. -/
theorem overridden_attrGet (h : Overridden key st) (hc : KeepsOverride st c) :
    attrGet key (c.exec eq st).store = attrGet key st ∨
      ∃ thread value type lock internal, c = .set thread key value type lock true internal := by
  have hget : ∀ st' : Store α, st'.attrs key = st.attrs key → attrGet key st' = attrGet key st := by
    intro st' hst'
    rw [attrGet, attrGet, hst']
  by_cases hkey : c.key = key
  case neg => exact Or.inl (hget _ (exec_of_ne c hkey))
  case pos =>
    cases c with
    | set thread k value type lock override internal =>
      obtain rfl : k = key := hkey
      cases override with
      | true => exact Or.inr ⟨thread, value, type, lock, internal, rfl⟩
      | false => exact Or.inl (hget _ (congrFun (guarded_attrSet h.guarded) k))
    | lock k onWrite =>
      obtain rfl : k = key := hkey
      rcases attrLock_cases onWrite st k with ⟨_, -, -, -, hst⟩ | ⟨hfree, -⟩
      · exact Or.inl (hget _ (congrFun (congrArg Store.attrs hst) k))
      · obtain ⟨old, hold, -, hover⟩ := h
        exact nomatch (hc k onWrite old rfl hold hover).symm.trans (hfree old hold)

theorem attrLock_pending (onWrite : Bool)
    (h : (attrLock key onWrite st).raised = none) : Pending key (attrLock key onWrite st).store := by
  rcases attrLock_cases onWrite st key with ⟨_, -, -, hr, -⟩ | ⟨-, -, info, hst, hrest⟩
  · exact absurd h hr
  · exact ⟨info, by rw [hst]; exact Function.update_self key _ _, hrest⟩

/-- A lock on the next write waits for it. -/
theorem pending_step (h : Pending key st)
    (hc : c.key = key → ∃ onWrite, c = .lock key onWrite) : Pending key (c.exec eq st).store := by
  by_cases hkey : c.key = key
  case neg =>
    obtain ⟨info, hinfo, hrest⟩ := h
    exact ⟨info, (exec_of_ne c hkey).trans hinfo, hrest⟩
  case pos =>
    obtain ⟨onWrite, rfl⟩ := hc hkey
    show Pending key (attrLock key onWrite st).store
    refine attrLock_pending onWrite ?_
    obtain ⟨old, hold, -, hlocked, -⟩ := h
    rcases attrLock_cases onWrite st key with ⟨old', hold', hl, -⟩ | ⟨-, hr, -⟩
    · rw [hold] at hold'
      rw [Option.some.inj hold'] at hlocked
      exact nomatch hl.symm.trans hlocked
    · exact hr

/-- **The next write** succeeds, and guards the attribute. -/
theorem pending_attrSet (h : Pending key st)
    (hout : attrSet eq thread key value type lock override internal st = out) :
    out.raised = none ∧ attrGet key out.store = some value ∧ Guarded key out.store := by
  obtain ⟨old, hold, hwrite, hlocked, hmodule, hover⟩ := h
  have hfree : old.isLockedFor thread = false := by
    simp [AttrContents.isLockedFor, hlocked, hmodule]
  rcases attrSet_cases hold hout with hc | hc | hc | ⟨hr, -, -, info, hst, hcont, hs, -, hl⟩
  · exact nomatch hc.2.2.1.symm.trans hover
  · exact nomatch hc.2.2.2.1.symm.trans hfree
  · exact nomatch hc.2.2.2.1.symm.trans hfree
  · have hinfo : out.store.attrs key = some info := by rw [hst]; exact Function.update_self key _ _
    refine ⟨hr, ?_, info, hinfo, hs, Or.inl (hl hwrite)⟩
    rw [attrGet, hinfo]
    simp [hs, hcont]

/-- Setting a guarded attribute to something else raises. -/
theorem guarded_raises (h : Guarded key st)
    (hover : ∀ info, st.attrs key = some info → info.override = false)
    (hne : sameContents eq type value (attrGet key st) = false)
    (hout : attrSet eq thread key value type lock false internal st = out) :
    out.raised ≠ none := by
  obtain ⟨old, hold, hset, hguard⟩ := h
  have hlocked : old.locked = true := by
    rcases hguard with hl | ho
    · exact hl
    · exact nomatch ho.symm.trans (hover old hold)
  have hget : attrGet key st = old.contents := by simp [attrGet, hold, hset]
  rcases attrSet_cases hold hout with hc | hc | hc | ⟨-, -, hkeep, -⟩
  · exact nomatch hc.2.2.1.symm.trans (hover old hold)
  · rw [hget] at hne
    exact nomatch hc.2.2.2.2.symm.trans hne
  · exact hc.1
  · exact nomatch hkeep hset hlocked

/-! ## Whole runs -/

variable {calls : List (Call τ α)}

theorem storeAt_succ {j : Nat} (h : calls[j]? = some c) :
    storeAt eq calls (j + 1) = (c.exec eq (storeAt eq calls j)).store :=
  stateAt_succ _ _ h

theorem Careful.keepsOverride (h : Careful eq calls) {j : Nat}
    (hc : calls[j]? = some c) : KeepsOverride (storeAt eq calls j) c := by
  rintro key onWrite info rfl
  exact h.lock j key onWrite info hc

variable {i j : Nat}

/-- What careful calls keep holds from one call to another. -/
theorem Careful.holds_from (h : Careful eq calls) {I : Store α → Prop} (hij : i ≤ j)
    (hj : j ≤ calls.length) (hi : I (storeAt eq calls i))
    (hstep : ∀ st (c : Call τ α), I st → KeepsOverride st c → I (c.exec eq st).store) :
    I (storeAt eq calls j) := by
  refine Lib.holds_from hij hj hi fun m c _ _ hc hm => ?_
  exact hstep _ c hm (h.keepsOverride hc)

theorem le_length_of_getElem? {j : Nat} (h : calls[j]? = some c) :
    j + 1 ≤ calls.length :=
  (List.getElem?_eq_some_iff.mp h).1

/-- A guarded attribute stays so along a run. -/
theorem Careful.guarded (h : Careful eq calls) {key : String} (hij : i ≤ j)
    (hj : j ≤ calls.length) (hi : Guarded key (storeAt eq calls i)) :
    Guarded key (storeAt eq calls j) :=
  h.holds_from hij hj hi fun _ _ => guarded_step

/-- So does an overridden one. -/
theorem Careful.overridden (h : Careful eq calls) {key : String} (hij : i ≤ j)
    (hj : j ≤ calls.length) (hi : Overridden key (storeAt eq calls i)) :
    Overridden key (storeAt eq calls j) :=
  h.holds_from hij hj hi fun _ _ => overridden_step

/-- An override leaves the attribute overridden. -/
theorem attrSet_overridden (hout : attrSet eq thread key value type lock true internal st = out) :
    Overridden key out.store := by
  cases hold : st.attrs key with
  | none =>
    obtain ⟨-, info, hst, -, hs, ho⟩ := attrSet_none hold hout
    exact ⟨info, by rw [hst]; exact Function.update_self key _ _, hs, ho⟩
  | some old =>
    rcases attrSet_cases hold hout with hc | hc | hc | ⟨-, -, -, info, hst, -, hs, ho, -⟩
    · exact nomatch hc.2.2.2
    · exact nomatch hc.2.2.1
    · exact nomatch hc.2.2.1
    · exact ⟨info, by rw [hst]; exact Function.update_self key _ _, hs, ho⟩

/-- A lock waits until the next write. -/
theorem pending_until {onWrite : Bool} (hi : Succeeds eq calls i (.lock key onWrite))
    (hij : i < j) (hj : j ≤ calls.length)
    (hbetween : ∀ m c, i < m → m < j → calls[m]? = some c → c.key = key →
      ∃ onWrite, c = .lock key onWrite) :
    Pending key (storeAt eq calls j) := by
  have hstart : Pending key (storeAt eq calls (i + 1)) := by
    rw [storeAt_succ hi.1]
    exact attrLock_pending onWrite hi.2
  refine Lib.holds_from hij hj hstart fun m c hm hmj hc hpend => ?_
  exact pending_step hpend (hbetween m c hm hmj hc)

/-- **Attributes keep what was promised** in every run of careful calls: locks, overrides and
failures. -/
theorem attrs_hold (h : Careful eq calls) : Holds eq calls where
  locked := by
    intro i j key info hij hinfo hset hlocked thread value type lock internal hj
    have hguard : Guarded key (storeAt eq calls j) :=
      h.guarded hij (Nat.le_of_lt (le_length_of_getElem? hj))
        ⟨info, hinfo, hset, Or.inl hlocked⟩
    rw [storeAt_succ hj]
    exact guarded_attrSet hguard
  overridden := by
    intro i thread key value type lock internal hi j c hij hj
    have hstart : Overridden key (storeAt eq calls (i + 1)) := by
      rw [storeAt_succ hi.1]
      exact attrSet_overridden rfl
    have hover := h.overridden hij (Nat.le_of_lt (le_length_of_getElem? hj)) hstart
    rw [storeAt_succ hj]
    exact overridden_attrGet hover (h.keepsOverride hj)
  lockOnWrite := by
    intro i key onWrite hi j thread value type lock override internal hij hj hbetween
    have hpend := pending_until hi hij (Nat.le_of_lt (le_length_of_getElem? hj)) hbetween
    have hsucc : storeAt eq calls (j + 1) =
        (attrSet eq thread key value type lock override internal (storeAt eq calls j)).store :=
      storeAt_succ hj
    obtain ⟨hr, hget, hguard⟩ : _ ∧ attrGet key (storeAt eq calls (j + 1)) = some value ∧
        Guarded key (storeAt eq calls (j + 1)) := hsucc ▸ pending_attrSet hpend rfl
    refine ⟨⟨⟨hj, hr⟩, hget⟩, ?_⟩
    intro k thread' value' type' lock' internal' hjk hk hne hsucceeds
    have hguard' := h.guarded hjk (Nat.le_of_lt (le_length_of_getElem? hk)) hguard
    refine guarded_raises hguard' ?_ hne rfl hsucceeds.2
    -- Were the attribute overridden, the value would be the same.
    intro info hinfo
    by_contra hover
    have hover' : info.override = true := by simpa using hover
    have hsame := h.set i k key onWrite thread' value' type' lock' internal' info
      (Nat.lt_trans hij hjk) hi hk hinfo hover'
    obtain ⟨old, hold, hset, -⟩ := hguard'
    obtain rfl := Option.some.inj (hinfo.symm.trans hold)
    simp only [attrGet, hold, hset, if_true] at hne
    exact nomatch hsame.symm.trans hne
  raised := by
    intro j c hj hfail
    rw [storeAt_succ hj]
    exact exec_of_raised c fun hr => hfail ⟨hj, hr⟩

/-! ## Two runs -/

def eqNat : Unit → Nat → Nat → Bool := fun _ a b => a == b

def mainThread : Thread := ⟨0, false, 0⟩

/-- A lock, the set it waits for, and a set to another value, which raises. -/
def lockedRun : List (Call Unit Nat) :=
  [.lock "a" true, .set mainThread "a" 1 () false false false,
    .set mainThread "a" 2 () false false false]

theorem holds_lockedRun : Holds eqNat lockedRun := by
  refine attrs_hold ⟨?_, ?_⟩
  · rintro (_ | _ | _ | j) key onWrite info hj hinfo hover
    · exact nomatch hinfo
    · exact nomatch hj
    · exact nomatch hj
    · exact nomatch hj
  · rintro i (_ | _ | _ | j) key onWrite thread value type lock internal info hij - hj hinfo hover
    · exact nomatch hj
    · cases hj
      cases hinfo
      exact nomatch hover
    · cases hj
      cases hinfo
      exact nomatch hover
    · exact nomatch hj

/-- A set with override, a lock, and a set without override. -/
def overriddenRun : List (Call Unit Nat) :=
  [.set mainThread "a" 1 () false true false, .lock "a" true,
    .set mainThread "a" 2 () false false false]

/-- The lock forgets that the value was set with override, and the next set replaces it. -/
theorem not_holds_overriddenRun : ¬ Holds eqNat overriddenRun := by
  intro h
  rcases h.overridden 0 mainThread "a" 1 () false false ⟨rfl, rfl⟩ 2 _ (by decide) rfl with
    hget | ⟨_, _, _, _, _, hc⟩
  · have hone : attrGet "a" (storeAt eqNat overriddenRun 2) = some 1 := by decide
    have htwo : attrGet "a" (storeAt eqNat overriddenRun 3) = some 2 := by decide
    rw [hone, htwo] at hget
    simp at hget
  · simp at hc

end N00b.Attr
