import N00b.Hatrack.Common

/-!
# A map that remembers the order of insertion

What `refhat.c` and `crown.c` are for: a finite map whose entries are kept in the order in which they
became present. A table has no such list. It numbers the insertions, and the entries sorted by
their numbers are the list. `Models` says that the entries of a table, with their numbers, are those
of a map, and there is a lemma about it for each way in which an entry changes.

## Main results

- `Models.insert`, `Models.overwrite`, `Models.remove`: what happens to one entry.
- `Models.sorted_view`: the entries sorted by their numbers are the entries of the map, in order.
-/

namespace N00b.Hatrack

inductive TableOp where
  | get (hv : Hash)
  | put (hv : Hash) (item : Item)
  | replace (hv : Hash) (item : Item)
  | add (hv : Hash) (item : Item)
  | remove (hv : Hash)
  | len
  | view (sort : Bool)
  deriving DecidableEq, Repr

/-- What it gets. -/
inductive TableReply where
  | item (ret : Item) (found : Bool)
  | added (ok : Bool)
  | len (n : ℕ)
  | view (items : List Item)
  deriving DecidableEq, Repr

/-- The hash value of an operation, if it has one, is not the value of an unreserved bucket. -/
def TableOp.HashNonzero : TableOp → Prop
  | .get hv | .put hv _ | .replace hv _ | .add hv _ | .remove hv => hv ≠ 0
  | _ => True

/-- Two replies are the same. The items of a view that is not sorted may be in any order. -/
def TableReply.Same (op : TableOp) (r r' : TableReply) : Prop :=
  r = r' ∨ op = .view false ∧ ∃ items items', r = .view items ∧ r' = .view items' ∧
    items.Perm items'

def itemReply (x : Option Item) : TableReply := .item (x.getD null) x.isSome

/-! ## The map -/

abbrev OrderedMap := List (Hash × Item)

namespace OrderedMap

def lookup (M : OrderedMap) (hv : Hash) : Option Item :=
  (M.find? fun e => decide (e.1 = hv)).map Prod.snd

/-- An entry that is present keeps its place. -/
def put (M : OrderedMap) (hv : Hash) (item : Item) : OrderedMap :=
  if (M.lookup hv).isSome then M.map fun e => if e.1 = hv then (hv, item) else e
  else M ++ [(hv, item)]

def remove (M : OrderedMap) (hv : Hash) : OrderedMap := M.filter fun e => decide (e.1 ≠ hv)

def exec (M : OrderedMap) : TableOp → OrderedMap × TableReply
  | .get hv => (M, itemReply (M.lookup hv))
  | .put hv item => (M.put hv item, itemReply (M.lookup hv))
  | .replace hv item =>
    (if (M.lookup hv).isSome then M.put hv item else M, itemReply (M.lookup hv))
  | .add hv item =>
    (if (M.lookup hv).isSome then M else M.put hv item, .added (M.lookup hv).isNone)
  | .remove hv => (M.remove hv, itemReply (M.lookup hv))
  | .len => (M, .len M.length)
  | .view _ => (M, .view (M.map Prod.snd))

theorem lookup_cons (e : Hash × Item) (M : OrderedMap) (hv : Hash) :
    lookup (e :: M) hv = if e.1 = hv then some e.2 else M.lookup hv := by
  by_cases h : e.1 = hv <;> simp [lookup, h]

/-- An entry at the end is found where no earlier one is. -/
theorem lookup_append (M : OrderedMap) (hv hv' : Hash) (item : Item) :
    lookup (M ++ [(hv, item)]) hv' =
      (M.lookup hv').or (if hv = hv' then some item else none) := by
  induction M with
  | nil => simp [lookup]
  | cons e M ih =>
    rw [List.cons_append, lookup_cons, lookup_cons, ih]
    split <;> simp

/-- Overwriting an entry changes what its key gives and nothing else. -/
theorem lookup_overwrite (M : OrderedMap) (hv hv' : Hash) (item : Item) :
    lookup (M.map fun e => if e.1 = hv then (hv, item) else e) hv' =
      if hv' = hv then (M.lookup hv).map fun _ => item else M.lookup hv' := by
  induction M with
  | nil => simp [lookup]
  | cons e M ih =>
    rw [List.map_cons, lookup_cons, lookup_cons, lookup_cons, ih]
    by_cases he : e.1 = hv
    · by_cases hsame : hv' = hv
      · simp [he, hsame]
      · simp [he, hsame, Ne.symm hsame]
    · by_cases hsame : hv' = hv
      · simp [he, hsame]
      · simp [he, hsame]

/-- After a put its key gives the item and the others what they gave. -/
theorem lookup_put (M : OrderedMap) (hv hv' : Hash) (item : Item) :
    (M.put hv item).lookup hv' = if hv' = hv then some item else M.lookup hv' := by
  unfold put
  split
  · rename_i hpres
    obtain ⟨x, hx⟩ := Option.isSome_iff_exists.mp hpres
    rw [lookup_overwrite, hx]
    rfl
  · rename_i habs
    rw [Bool.not_eq_true, Option.isSome_eq_false_iff, Option.isNone_iff_eq_none] at habs
    rw [lookup_append]
    by_cases hsame : hv' = hv
    · simp [hsame, habs]
    · simp [hsame, Ne.symm hsame]

theorem remove_cons (e : Hash × Item) (M : OrderedMap) (hv : Hash) :
    remove (e :: M) hv = if e.1 = hv then M.remove hv else e :: M.remove hv := by
  by_cases he : e.1 = hv <;> simp [remove, he]

/-- After a removal its key gives nothing and the others what they gave. -/
theorem lookup_remove (M : OrderedMap) (hv hv' : Hash) :
    (M.remove hv).lookup hv' = if hv' = hv then none else M.lookup hv' := by
  induction M with
  | nil => simp [remove, lookup]
  | cons e M ih =>
    rw [remove_cons, lookup_cons]
    by_cases hsame : hv' = hv
    · subst hsame
      by_cases he : e.1 = hv'
      · simpa [he] using ih
      · simpa [he, lookup_cons] using ih
    · by_cases he : e.1 = hv
      · simp [he, ih, hsame, Ne.symm hsame]
      · simp [he, lookup_cons, ih, hsame]

def replies : OrderedMap → List TableOp → List TableReply
  | _, [] => []
  | M, op :: ops => (M.exec op).2 :: replies (M.exec op).1 ops

end OrderedMap

/-! ## Numbered entries -/

/-- The item of a bucket with its number, unless the number is zero. -/
def liveEntry (item : Item) (epoch : ℕ) : Option (Item × ℕ) :=
  if epoch = 0 then none else some (item, epoch)

@[simp] theorem liveEntry_zero (item : Item) : liveEntry item 0 = none := rfl

theorem liveEntry_of_ne {item : Item} {epoch : ℕ} (h : epoch ≠ 0) :
    liveEntry item epoch = some (item, epoch) := if_neg h

/-- An entry is dead iff its epoch is zero. -/
theorem liveEntry_eq_none {item : Item} {epoch : ℕ} : liveEntry item epoch = none ↔ epoch = 0 := by
  simp [liveEntry]

/-- An entry of a table: its hash value, its item and the number of its insertion. -/
abbrev Numbered := Hash × Item × ℕ

/-- The entries without their numbers. -/
def forget (J : List Numbered) : OrderedMap := J.map fun e => (e.1, e.2.1)

/-- The entries of a table in the order of their numbers, which are below `next`. -/
structure Journal (look : Hash → Option (Item × ℕ)) (next : ℕ) (J : List Numbered) : Prop where
  sorted : J.Pairwise fun x y => x.2.2 < y.2.2
  recent : ∀ e ∈ J, e.2.2 < next
  mem : ∀ hv x, look hv = some x ↔ (hv, x) ∈ J

/-- The entries of a table, which it counts and numbers, are those of a map. -/
def Models (look : Hash → Option (Item × ℕ)) (next count : ℕ) (M : OrderedMap) : Prop :=
  ∃ J, Journal look next J ∧ M = forget J ∧ count = J.length

variable {look : Hash → Option (Item × ℕ)} {next count : ℕ} {J : List Numbered} {M : OrderedMap}
  {hv : Hash} {item : Item}

/-- A table without entries models the empty map. -/
theorem models_empty (next : ℕ) : Models (fun _ => none) next 0 [] :=
  ⟨[], ⟨List.Pairwise.nil, by simp, by simp⟩, rfl, rfl⟩

/-- A journal has one entry for each key. -/
theorem Journal.nodup_keys (hJ : Journal look next J) : (J.map Prod.fst).Nodup := by
  rw [List.Nodup, List.pairwise_map]
  refine hJ.sorted.imp_of_mem fun {x y} hx hy hxy hsame => ?_
  have hlook := (hJ.mem x.1 x.2).mpr hx
  rw [hsame, (hJ.mem y.1 y.2).mpr hy, Option.some.injEq] at hlook
  rw [hlook] at hxy
  exact lt_irrefl _ hxy

/-- The entries of a journal are distinct. -/
theorem Journal.nodup (hJ : Journal look next J) : J.Nodup :=
  List.Nodup.of_map _ hJ.nodup_keys

/-- A journal gives for each key what the table does. -/
theorem Journal.lookup_eq (hJ : Journal look next J) (hv : Hash) :
    (forget J).lookup hv = (look hv).map Prod.fst := by
  have hfind : J.find? (fun e => decide (e.1 = hv)) = (look hv).map fun x => (hv, x) := by
    cases hlook : look hv with
    | none =>
      simp only [Option.map_none, List.find?_eq_none, decide_eq_true_eq]
      rintro e he rfl
      rw [(hJ.mem e.1 e.2).mpr he] at hlook
      cases hlook
    | some x =>
      cases hf : J.find? fun e => decide (e.1 = hv) with
      | none =>
        have hno := List.find?_eq_none.mp hf (hv, x) ((hJ.mem hv x).mp hlook)
        simp at hno
      | some e =>
        have hev : e.1 = hv := by simpa using List.find?_some hf
        have he := (hJ.mem e.1 e.2).mpr (List.mem_of_find?_eq_some hf)
        rw [hev, hlook, Option.some.injEq] at he
        rw [Option.map_some, he, ← hev]
  rw [OrderedMap.lookup, forget, List.find?_map]
  show ((J.find? fun e => decide (e.1 = hv)).map _).map _ = _
  rw [hfind, Option.map_map, Option.map_map]
  rfl

/-- The map gives for each key what the table does. -/
theorem Models.lookup_eq (hM : Models look next count M) (hv : Hash) :
    M.lookup hv = (look hv).map Prod.fst := by
  obtain ⟨J, hJ, rfl, _⟩ := hM
  exact hJ.lookup_eq hv

/-- The count of the table is the number of entries of the map. -/
theorem Models.count_eq (hM : Models look next count M) : count = M.length := by
  obtain ⟨J, _, rfl, hcount⟩ := hM
  rw [hcount, forget, List.length_map]

/-- Storing an item under a new key puts it at the end of the map. -/
theorem Models.insert (hM : Models look next count M) (habs : look hv = none) (item : Item) :
    Models (Function.update look hv (some (item, next))) (next + 1) (count + 1) (M.put hv item) := by
  have hlookup : M.lookup hv = none := by rw [hM.lookup_eq, habs]; rfl
  obtain ⟨J, hJ, rfl, hcount⟩ := hM
  refine ⟨J ++ [(hv, item, next)], ⟨?_, ?_, ?_⟩, ?_, by simp [hcount]⟩
  · rw [List.pairwise_append]
    refine ⟨hJ.sorted, List.pairwise_singleton _ _, fun x hx y hy => ?_⟩
    rw [List.mem_singleton.mp hy]
    exact hJ.recent x hx
  · intro e he
    rcases List.mem_append.mp he with he | he
    · exact Nat.lt_succ_of_lt (hJ.recent e he)
    · rw [List.mem_singleton.mp he]
      exact Nat.lt_succ_self next
  · intro hv' x
    rw [List.mem_append, List.mem_singleton]
    by_cases hsame : hv' = hv
    · subst hsame
      have hno : (hv', x) ∉ J := fun h => by
        rw [(hJ.mem hv' x).mpr h] at habs
        cases habs
      simp [hno, eq_comm]
    · rw [Function.update_of_ne hsame, hJ.mem]
      simp [hsame]
  · rw [OrderedMap.put, hlookup]
    simp [forget]

/-- Storing an item under a present key replaces its entry in place. -/
theorem Models.overwrite (hM : Models look next count M) {old : Item} {e : ℕ}
    (hold : look hv = some (old, e)) (item : Item) :
    Models (Function.update look hv (some (item, e))) next count (M.put hv item) := by
  have hlookup : M.lookup hv = some old := by rw [hM.lookup_eq, hold]; rfl
  obtain ⟨J, hJ, rfl, hcount⟩ := hM
  let change (x : Numbered) : Numbered := if x.1 = hv then (hv, item, x.2.2) else x
  have hnumber : ∀ x, (change x).2.2 = x.2.2 := by
    intro x
    simp only [change]
    split <;> rfl
  refine ⟨J.map change, ⟨?_, ?_, ?_⟩, ?_, by rw [hcount, List.length_map]⟩
  · rw [List.pairwise_map]
    refine hJ.sorted.imp fun {x y} hxy => ?_
    rwa [hnumber, hnumber]
  · intro x hx
    obtain ⟨y, hy, rfl⟩ := List.mem_map.mp hx
    rw [hnumber]
    exact hJ.recent y hy
  · intro hv' x
    rw [List.mem_map]
    by_cases hsame : hv' = hv
    · subst hsame
      rw [Function.update_self, Option.some.injEq]
      constructor
      · rintro rfl
        exact ⟨(hv', old, e), (hJ.mem _ _).mp hold, by simp [change]⟩
      · rintro ⟨y, hy, hyx⟩
        simp only [change] at hyx
        split at hyx
        · rename_i hyv
          have hy' := (hJ.mem y.1 y.2).mpr hy
          rw [hyv, hold, Option.some.injEq] at hy'
          rw [← hy'] at hyx
          exact (Prod.mk.inj hyx).2
        · rename_i hyv
          exact absurd (congrArg Prod.fst hyx) hyv
    · rw [Function.update_of_ne hsame, hJ.mem]
      constructor
      · intro hx
        exact ⟨(hv', x), hx, by simp [change, hsame]⟩
      · rintro ⟨y, hy, hyx⟩
        simp only [change] at hyx
        split at hyx
        · exact absurd (congrArg Prod.fst hyx).symm hsame
        · rwa [← hyx]
  · rw [OrderedMap.put, hlookup, Option.isSome_some, if_pos rfl, forget, forget, List.map_map,
      List.map_map]
    refine List.map_congr_left fun x _ => ?_
    simp only [Function.comp_apply, change]
    split <;> rfl

/-- Clearing an entry removes it from the map. -/
theorem Models.remove (hM : Models look next count M) {x : Item × ℕ} (hold : look hv = some x) :
    Models (Function.update look hv none) next (count - 1) (M.remove hv) := by
  obtain ⟨J, hJ, rfl, hcount⟩ := hM
  refine ⟨J.filter fun e => decide (e.1 ≠ hv), ⟨hJ.sorted.filter _, ?_, ?_⟩, ?_, ?_⟩
  · intro e he
    exact hJ.recent e (List.mem_filter.mp he).1
  · intro hv' y
    rw [List.mem_filter]
    by_cases hsame : hv' = hv
    · simp [hsame]
    · rw [Function.update_of_ne hsame, hJ.mem]
      simp [hsame]
  · rw [OrderedMap.remove, forget, forget, List.filter_map]
    rfl
  · have hone : J.countP (fun e => decide (e.1 = hv)) = 1 := by
      have hcount : (J.map Prod.fst).count hv = 1 :=
        List.count_eq_one_of_mem hJ.nodup_keys (List.mem_map.mpr ⟨_, (hJ.mem hv x).mp hold, rfl⟩)
      rw [List.count, List.countP_map] at hcount
      rw [← hcount]
      exact List.countP_congr fun e _ => by simp
    have hsplit := List.length_eq_countP_add_countP (fun e : Numbered => decide (e.1 = hv)) (l := J)
    rw [hone] at hsplit
    rw [hcount, ← List.countP_eq_length_filter, hsplit]
    simp

/-- Removing an absent key changes nothing. -/
theorem Models.remove_absent (hM : Models look next count M) (habs : look hv = none) :
    M.remove hv = M := by
  obtain ⟨J, hJ, rfl, _⟩ := hM
  refine List.filter_eq_self.mpr fun e he => ?_
  obtain ⟨y, hy, rfl⟩ := List.mem_map.mp he
  simp only [decide_eq_true_eq]
  rintro rfl
  rw [(hJ.mem y.1 y.2).mpr hy] at habs
  cases habs

/-- A view of the live entries sorted by epoch is the map in its order. -/
theorem Models.view (hM : Models look next count M) (hsmall : next ≤ 2 ^ 31) {E : List Numbered}
    (hnodup : (E.map Prod.fst).Nodup) (hmem : ∀ hv x, (hv, x) ∈ E ↔ look hv = some x)
    (sort : Bool) :
    TableReply.Same (.view sort) (.view ((viewSort sort (E.map Prod.snd)).map Prod.fst))
      (.view (M.map Prod.snd)) := by
  obtain ⟨J, hJ, rfl, _⟩ := hM
  have hperm : E.Perm J := by
    rw [List.perm_ext_iff_of_nodup (List.Nodup.of_map _ hnodup) hJ.nodup]
    rintro ⟨hv, x⟩
    rw [hmem, hJ.mem]
  have hitems : (forget J).map Prod.snd = (J.map Prod.snd).map Prod.fst := by
    simp [forget]
  rw [hitems]
  cases sort with
  | false =>
    refine .inr ⟨rfl, _, _, rfl, rfl, ?_⟩
    exact ((viewSort_perm false _).trans (hperm.map _)).map _
  | true =>
    left
    rw [viewSort_eq (hperm.map Prod.snd)]
    · rw [List.pairwise_map]
      exact hJ.sorted
    · intro x hx
      obtain ⟨e, he, rfl⟩ := List.mem_map.mp hx
      exact (hJ.recent e he).trans_le hsmall

/-! ## Runs -/

/-- The operations one after another, and the replies. -/
def runTable {τ : Type} (exec : τ → TableOp → Option (τ × TableReply)) :
    τ → List TableOp → Option (τ × List TableReply)
  | t, [] => some (t, [])
  | t, op :: ops =>
    match exec t op with
    | none => none
    | some (t', r) =>
      match runTable exec t' ops with
      | none => none
      | some (t'', rs) => some (t'', r :: rs)

def SameReplies : List TableOp → List TableReply → List TableReply → Prop
  | op :: ops, r :: rs, r' :: rs' => r.Same op r' ∧ SameReplies ops rs rs'
  | [], [], [] => True
  | _, _, _ => False

/-- A table whose operations each follow the map follows it over every run within its limit. -/
theorem runTable_same {τ : Type} {exec : τ → TableOp → Option (τ × TableReply)}
    {R : ℕ → τ → OrderedMap → Prop} (limit : ℕ)
    (hstep : ∀ c t M op, R c t M → c < limit → op.HashNonzero → ∃ t' r,
      exec t op = some (t', r) ∧ R (c + 1) t' (M.exec op).1 ∧ r.Same op (M.exec op).2)
    (ops : List TableOp) {c : ℕ} {t : τ} {M : OrderedMap} (hR : R c t M)
    (hlimit : c + ops.length ≤ limit) (hops : ∀ op ∈ ops, op.HashNonzero) :
    ∃ t' rs, runTable exec t ops = some (t', rs) ∧ SameReplies ops rs (M.replies ops) := by
  induction ops generalizing c t M with
  | nil => exact ⟨t, [], rfl, trivial⟩
  | cons op ops ih =>
    rw [List.length_cons] at hlimit
    obtain ⟨t₁, r, hexec, hR₁, hsame⟩ := hstep c t M op hR (by omega) (hops op List.mem_cons_self)
    obtain ⟨t₂, rs, hrun, hsames⟩ :=
      ih hR₁ (by omega) fun op' hop' => hops op' (List.mem_cons_of_mem _ hop')
    exact ⟨t₂, r :: rs, by simp [runTable, hexec, hrun], hsame, hsames⟩

/-- Two tables whose replies agree with the map's agree with each other. -/
theorem TableReply.Same.trans {op : TableOp} {r r' x : TableReply} (h : r.Same op x)
    (h' : r'.Same op x) : r.Same op r' := by
  rcases h with rfl | ⟨rfl, items, found, rfl, rfl, hperm⟩
  · rcases h' with rfl | ⟨rfl, items', found, rfl, rfl, hperm⟩
    · exact .inl rfl
    · exact .inr ⟨rfl, _, _, rfl, rfl, hperm.symm⟩
  · rcases h' with rfl | ⟨_, items', _, rfl, hfound, hperm'⟩
    · exact .inr ⟨rfl, _, _, rfl, rfl, hperm⟩
    · obtain rfl := TableReply.view.inj hfound
      exact .inr ⟨rfl, _, _, rfl, rfl, hperm.trans hperm'.symm⟩

theorem SameReplies.trans {ops : List TableOp} {rs rs' xs : List TableReply}
    (h : SameReplies ops rs xs) (h' : SameReplies ops rs' xs) : SameReplies ops rs rs' := by
  induction ops generalizing rs rs' xs with
  | nil =>
    match rs, xs, h with
    | [], [], _ =>
      match rs', h' with
      | [], _ => trivial
  | cons op ops ih =>
    match rs, xs, h with
    | r :: rs, x :: xs, h =>
      match rs', h' with
      | r' :: rs', h' => exact ⟨h.1.trans h'.1, ih h.2 h'.2⟩

end N00b.Hatrack
