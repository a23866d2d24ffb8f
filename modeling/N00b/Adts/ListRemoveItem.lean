import N00b.Adts.ListCapacity

/-!
# Removing an item from a list

`n00b_list_remove_item`, and `n00b_private_list_remove_item`, which is the same without a lock. The
loop goes on behind the place that the next item has moved to, and on to the places that are `NULL`
by then.
-/

namespace N00b.Adts

open N00b.Lib

namespace ListObj

/-! ## The loop -/

def removePass (item : Item) (i : ℕ) (s : ListObj × Bool) : Option (ListObj × Bool) :=
  (Block.load s.1.data i).bind fun x =>
    if item = x then (s.1.removeBase i).map fun l => (l, true) else some s

/-- `n00b_list_remove_item`. -/
def removeItem (l : ListObj) (item : Item) : Option (ListObj × Bool) :=
  Block.loop (removePass item) l.appendIx.toNat (l, false)

def contents (l : ListObj) : List Item := l.data.take l.appendIx.toNat

/-- **Where the loop removes what it should**: no occurrence is next to another one, the null item
is nowhere but at the end, and no removal moves too much. -/
structure Removable (l : ListObj) (item : Item) : Prop where
  apart : l.contents.IsChain fun x y => ¬(x = item ∧ y = item)
  null_last : item = null → item ∉ l.contents.dropLast
  movable : ∀ i : ℕ, l.contents[i]? = some item → l.Movable i

/-! ## One removal -/

variable {l : ListObj}

/-- **Removing at an index** moves what is behind it down by one. -/
theorem removeBase_eq {done rest tail : List Item} {x : Item} {i : ℕ}
    (hdata : l.data = done ++ x :: rest ++ tail) (hix : l.appendIx = done.length + rest.length + 1)
    (hi : i = done.length) (hsmall : l.appendIx < 2 ^ 29) (hmove : l.Movable i) :
    l.removeBase i = some { l with
      data := done ++ rest ++ null :: tail, appendIx := (done.length + rest.length : ℕ) } := by
  subst hi
  rw [Movable] at hmove
  have hint : int30 (l.appendIx - 1) = (done.length + rest.length : ℕ) := by
    rw [int30_of_lt (by omega) (by omega)]
    omega
  have hlen : l.data.length = done.length + (rest.length + 1) + tail.length := by
    simp only [hdata, List.length_append, List.length_cons]
  cases rest with
  | nil =>
    have hstore := Block.store_of_lt (b := l.data) (i := done.length) (by omega) (by omega) null
    rw [removeBase, if_pos (by simpa using hix.symm), hstore, hint]
    simp [hdata]
  | cons y rest =>
    obtain ⟨n, hn⟩ : ∃ n, n = rest.length + 1 := ⟨_, rfl⟩
    rw [List.length_cons] at hix hlen hint
    have hbytes : l.bytelen done.length / 8 = n := by
      rw [bytelen, show l.appendIx - (done.length + 1) = n by omega, Int.bmod_eq_of_le]
      all_goals omega
    have hcopy := Block.copy_of_le l.data l.data done.length (done.length + 1) n (by omega)
      (by omega)
    have hcells : (l.data.drop (done.length + 1)).take n = y :: rest := by
      have hsplit : l.data = (done ++ [x]) ++ ((y :: rest) ++ tail) := by simp [hdata]
      rw [hsplit, List.drop_left' (by simp), List.take_left' (by simp [hn])]
    obtain ⟨z, hz⟩ : ∃ z, l.data.drop (done.length + n) = z :: tail := by
      have hlt : done.length + n < l.data.length := by omega
      have hsplit : l.data = (done ++ x :: y :: rest) ++ tail := by simp [hdata]
      refine ⟨l.data[done.length + n], ?_⟩
      rw [List.drop_eq_getElem_cons hlt]
      congr 1
      rw [hsplit, List.drop_left' (by simp [hn, Nat.add_assoc])]
    have hsplice : Block.splice l.data done.length (y :: rest) =
        (done ++ y :: rest) ++ z :: tail := by
      have htake : l.data.take done.length = done := by
        rw [hdata, List.append_assoc, List.take_left]
      rw [Block.splice, List.length_cons, ← hn, hz, htake]
    have hstore : Block.store (done ++ y :: rest ++ z :: tail) (done.length + (rest.length + 1) : ℕ)
        null = some (done ++ y :: rest ++ null :: tail) := by
      rw [Block.store_of_lt (by omega) (by simp), Int.toNat_natCast,
        List.set_append_right _ _ (by simp)]
      simp
    rw [hcells, hsplice] at hcopy
    rw [removeBase, if_neg (by omega), hbytes, ← Nat.cast_succ, hcopy, hint]
    simp only [hstore, Option.bind_eq_bind, Option.bind_some, List.length_cons]

/-- It writes past the end when the list is too full for that. -/
theorem removeBase_eq_none {i : ℕ} (hsmall : l.appendIx < 2 ^ 29) (hmove : ¬ l.Movable i) :
    l.removeBase i = none := by
  rw [Movable] at hmove
  have hbytes : l.bytelen i / 8 < 0 := by
    rw [bytelen, Int.bmod_eq_emod]
    split <;> omega
  rw [removeBase, if_neg (by omega), Block.copy, if_neg (by omega), if_neg (by omega)]
  rfl

/-- Behind the items there is nothing to remove. -/
theorem removeBase_behind {i : ℕ} (hle : l.appendIx ≤ i) (hnear : i ≤ l.appendIx + 1) :
    l.removeBase i = none := by
  have hbytes : l.bytelen i / 8 < 0 := by
    rw [bytelen, Int.bmod_eq_of_le]
    all_goals omega
  rw [removeBase, if_neg (by omega), Block.copy, if_neg (by omega), if_neg (by omega)]
  rfl

/-! ## All passes -/

/-- The items that the loop leaves. It does not look at the item behind one that it removes. -/
def kept (item : Item) : List Item → List Item
  | [] => []
  | x :: rest =>
    if x = item then
      match rest with
      | [] => []
      | y :: rest => y :: kept item rest
    else x :: kept item rest

theorem kept_of_ne {item x : Item} (hx : item ≠ x) (rest : List Item) :
    kept item (x :: rest) = x :: kept item rest := by
  rw [kept.eq_def]
  simp [hx.symm]

/-- Behind an item that is removed the next one is passed. -/
@[simp]
theorem kept_next (item y : Item) (rest : List Item) :
    kept item (item :: y :: rest) = y :: kept item rest := by simp [kept]

/-- Before a pass: the items that are done, those to come, and the places that are free. -/
structure Passing (l : ListObj) (item : Item) (i : ℕ) (s : ListObj × Bool) (done rest : List Item)
    (free : ℕ) : Prop where
  state : s.1 = { l with
    data := done ++ rest ++ (List.replicate free null ++ l.data.drop l.appendIx.toNat)
    appendIx := (done.length + rest.length : ℕ) }
  count : done.length + rest.length + free = l.appendIx.toNat
  here : rest ≠ [] → done.length = i
  behind : done.length ≤ i
  kept_eq : done ++ kept item rest = kept item l.contents
  found : s.2 = true ∨ item ∈ rest ↔ item ∈ l.contents
  suffix : rest <:+ l.contents
  null_near : item = null → i ≤ done.length + 1
  untouched : free = 0 → done ++ rest = l.contents ∧ item ∉ done

variable {item : Item} {i free : ℕ} {s s' : ListObj × Bool} {done rest : List Item}

theorem Passing.appendIx (h : Passing l item i s done rest free) :
    s.1.appendIx = (done.length + rest.length : ℕ) := by
  rw [h.state]

theorem Passing.data (h : Passing l item i s done rest free) :
    s.1.data = done ++ rest ++ (List.replicate free null ++ l.data.drop l.appendIx.toNat) := by
  rw [h.state]

theorem Passing.load_nil (h : Passing l item i s done [] free) (hi : i < l.appendIx.toNat) :
    Block.load s.1.data i = some null := by
  have hcount := h.count
  have hbehind := h.behind
  rw [List.length_nil] at hcount
  rw [Block.load_ofNat, h.data, List.append_nil, List.getElem?_append_right hbehind,
    List.getElem?_append_left (by rw [List.length_replicate]; omega),
    List.getElem?_replicate_of_lt (by omega)]

/-- The loop loads the next item. -/
theorem Passing.load_cons {x : Item} (h : Passing l item i s done (x :: rest) free) :
    Block.load s.1.data i = some x := by
  obtain rfl := h.here (List.cons_ne_nil _ _)
  rw [Block.load_ofNat, h.data, List.append_assoc, List.getElem?_append_right le_rfl, Nat.sub_self]
  rfl

/-- It keeps one that is another. -/
theorem Passing.keep {x : Item} (h : Passing l item i s done (x :: rest) free) (hx : item ≠ x) :
    Passing l item (i + 1) s (done ++ [x]) rest free := by
  have hi := h.here (List.cons_ne_nil _ _)
  have hcount := h.count
  have hkept := h.kept_eq
  have hfound := h.found
  rw [kept_of_ne hx] at hkept
  rw [List.mem_cons, or_iff_right hx] at hfound
  refine ⟨?_, ?_, fun _ => ?_, ?_, ?_, hfound, ?_, fun _ => ?_, fun hzero => ?_⟩
  · rw [h.state]
    simp [Nat.add_assoc, Nat.add_comm 1]
  · simp only [List.length_append, List.length_cons, List.length_nil] at hcount ⊢
    omega
  · simp [hi]
  · simp [hi]
  · simpa using hkept
  · exact (List.suffix_cons x rest).trans h.suffix
  · simp [hi]
  · obtain ⟨hall, hdone⟩ := h.untouched hzero
    exact ⟨by simpa using hall, by simp [hdone, hx]⟩

/-- **It removes the item**, and passes the one behind it. -/
theorem Passing.remove (hl : l.Inv) (h : Passing l item i s done (item :: rest) free)
    (hpass : removePass item i s = some s') :
    ∃ done' rest', Passing l item (i + 1) s' done' rest' (free + 1) := by
  have hi := h.here (List.cons_ne_nil _ _)
  have hcount := h.count
  have hkept := h.kept_eq
  have hfound := h.found
  have hnonneg := hl.nonneg
  have hsmall := hl.small
  have hle := hl.le_length
  have hix := h.appendIx
  rw [List.length_cons] at hcount hix
  have hmove : s.1.Movable i := by
    by_contra hmove
    rw [removePass, h.load_cons, Option.bind_some, if_pos rfl,
      removeBase_eq_none (by omega) hmove] at hpass
    cases hpass
  have hdata : s.1.data = done ++ item :: rest ++
      (List.replicate free null ++ l.data.drop l.appendIx.toNat) := h.data
  rw [removePass, h.load_cons, Option.bind_some, if_pos rfl,
    removeBase_eq hdata (by omega) hi.symm (by omega) hmove] at hpass
  cases hpass
  have hmem : item ∈ l.contents := h.suffix.subset (List.mem_cons_self)
  have hfree : null :: (List.replicate free null ++ l.data.drop l.appendIx.toNat) =
      List.replicate (free + 1) null ++ l.data.drop l.appendIx.toNat := by
    rw [List.replicate_succ, List.cons_append]
  rw [hfree, h.state]
  cases rest with
  | nil =>
    refine ⟨done, [], rfl, ?_, nofun, by omega, ?_, by simp [hmem], List.nil_suffix, fun _ => ?_,
      nofun⟩
    · simp only [List.length_nil] at hcount ⊢
      omega
    · simpa [kept] using hkept
    · omega
  | cons y rest =>
    refine ⟨done ++ [y], rest, ?_, ?_, fun _ => ?_, ?_, ?_, by simp [hmem], ?_, fun _ => ?_, nofun⟩
    · simp [Nat.add_assoc, Nat.add_comm 1]
    · simp only [List.length_append, List.length_cons, List.length_nil] at hcount ⊢
      omega
    · simp [hi]
    · simp [hi]
    · simpa using hkept
    · exact ((List.suffix_cons y rest).trans (List.suffix_cons item _)).trans h.suffix
    · simp [hi]

/-- A null behind the items is taken for the item to remove. -/
theorem Passing.null_behind (h : Passing l item i s done [] free) (hlt : i < l.appendIx.toNat)
    (hnull : item = null) : removePass item i s = none := by
  have hix := h.appendIx
  have hbehind := h.behind
  have hnear := h.null_near hnull
  rw [List.length_nil] at hix
  rw [removePass, h.load_nil hlt, Option.bind_some, if_pos hnull,
    removeBase_behind (by omega) (by omega)]
  rfl

/-- Every pass goes on in the list. -/
theorem Passing.pass (hl : l.Inv) (h : Passing l item i s done rest free)
    (hlt : i < l.appendIx.toNat) (hpass : removePass item i s = some s') :
    ∃ done' rest' free', Passing l item (i + 1) s' done' rest' free' := by
  cases rest with
  | nil =>
    by_cases hnull : item = null
    · rw [h.null_behind hlt hnull] at hpass
      cases hpass
    · rw [removePass, h.load_nil hlt, Option.bind_some, if_neg hnull] at hpass
      cases hpass
      exact ⟨done, [], free, h.state, h.count, nofun, h.behind.trans (Nat.le_succ i), h.kept_eq,
        h.found, h.suffix, fun hn => absurd hn hnull, h.untouched⟩
  | cons x rest =>
    by_cases hx : item = x
    · subst hx
      obtain ⟨done', rest', h'⟩ := h.remove hl hpass
      exact ⟨done', rest', free + 1, h'⟩
    · rw [removePass, h.load_cons, Option.bind_some, if_neg hx] at hpass
      cases hpass
      exact ⟨done ++ [x], rest, free, h.keep hx⟩

/-- At the start no item was passed. -/
theorem Passing.init (hl : l.Inv) : Passing l item 0 (l, false) [] l.contents 0 := by
  have hnonneg := hl.nonneg
  have hle := hl.le_length
  have hslots := hl.le_slots
  have hlen : l.contents.length = l.appendIx.toNat := by
    rw [contents, List.length_take]
    omega
  refine ⟨?_, by simp [hlen], fun _ => rfl, le_rfl, rfl, by simp, List.suffix_rfl, fun _ => by simp,
    fun _ => ⟨List.nil_append _, List.not_mem_nil⟩⟩
  have hdata : l.contents ++ l.data.drop l.appendIx.toNat = l.data := List.take_append_drop _ _
  have hix : ((l.contents.length : ℕ) : ℤ) = l.appendIx := by omega
  simp [hdata, hix]

theorem length_contents (hl : l.Inv) : l.contents.length = l.appendIx.toNat := by
  have hnonneg := hl.nonneg
  have hle := hl.le_length
  have hslots := hl.le_slots
  rw [contents, List.length_take]
  omega

/-- **The loop** passes all items. -/
theorem loop_passing (hl : l.Inv) {n : ℕ} (hn : n ≤ l.appendIx.toNat)
    (h : Block.loop (removePass item) n (l, false) = some s) :
    ∃ done rest free, Passing l item n s done rest free :=
  Block.loop_partial (fun i s => ∃ done rest free, Passing l item i s done rest free)
    ⟨_, _, _, Passing.init hl⟩
    (fun _ hi _ _ ⟨_, _, _, hpassing⟩ hpass => hpassing.pass hl (hi.trans_le hn) hpass) h

/-- What is left, when it ends. -/
theorem removeItem_kept (hl : l.Inv) {l' : ListObj} {b : Bool}
    (h : l.removeItem item = some (l', b)) :
    l'.contents = kept item l.contents ∧ (b = true ↔ item ∈ l.contents) := by
  obtain ⟨done, rest, free, hend⟩ := loop_passing hl le_rfl h
  have hcount := hend.count
  obtain rfl : rest = [] := by
    by_contra hne
    have hpos := List.length_pos_iff.mpr hne
    have hhere := hend.here hne
    omega
  have hkept := hend.kept_eq
  have hfound := hend.found
  have hdata := hend.data
  have hix := hend.appendIx
  rw [kept, List.append_nil] at hkept
  simp only [List.not_mem_nil, or_false] at hfound
  refine ⟨?_, hfound⟩
  rw [contents, hix, hdata, ← hkept]
  simp

/-! ## Where it comes to its end -/

theorem load_contents {x : Item} (hi : l.contents[i]? = some x) : Block.load l.data i = some x := by
  rw [contents, List.getElem?_take] at hi
  split at hi
  · rwa [Block.load_ofNat]
  · cases hi

/-- Before the first occurrence nothing changes. -/
theorem loop_before (hl : l.Inv) {n : ℕ} (hn : n ≤ l.appendIx.toNat)
    (hnone : ∀ j < n, l.contents[j]? ≠ some item) :
    Block.loop (removePass item) n (l, false) = some (l, false) := by
  induction n with
  | zero => rfl
  | succ n ih =>
    have hlen := length_contents hl
    have hlt : n < l.contents.length := by omega
    have hload := load_contents (List.getElem?_eq_getElem hlt)
    have hne : item ≠ l.contents[n] := by
      intro heq
      exact hnone n (Nat.lt_succ_self n) (by rw [List.getElem?_eq_getElem hlt, heq])
    rw [Block.loop, ih (by omega) fun j hj => hnone j (by omega), Option.bind_some, removePass,
      hload, Option.bind_some, if_neg hne]

/-- A removal that ends could move what was behind. -/
theorem movable_of_some (hl : l.Inv) {r : ListObj × Bool} (h : l.removeItem item = some r) (i : ℕ)
    (hi : l.contents[i]? = some item) : l.Movable i := by
  have hex : ∃ i, l.contents[i]? = some item := ⟨i, hi⟩
  have hle : Nat.find hex ≤ i := Nat.find_min' hex hi
  have hlen := length_contents hl
  have hlt : Nat.find hex < l.contents.length := List.getElem?_eq_some_iff.mp (Nat.find_spec hex) |>.1
  obtain ⟨t, t', ht, hpass⟩ := Block.loop_pass (hlen ▸ hlt) h
  rw [loop_before hl (by omega) fun j hj => Nat.find_min hex hj] at ht
  cases ht
  have hmove : l.Movable (Nat.find hex) := by
    by_contra hmove
    have hle' := hl.le_length
    have hsmall := hl.small
    rw [removePass, load_contents (Nat.find_spec hex), Option.bind_some, if_pos rfl,
      removeBase_eq_none (by omega) hmove] at hpass
    cases hpass
  rw [Movable] at hmove ⊢
  omega

/-- When it ends there was no null in front of the last item. -/
theorem null_last_of_some (hl : l.Inv) {r : ListObj × Bool} (h : l.removeItem item = some r)
    (hnull : item = null) : item ∉ l.contents.dropLast := by
  intro hmem
  have hlen := length_contents hl
  have hpos : 0 < l.contents.length :=
    List.length_pos_of_mem ((List.dropLast_sublist _).subset hmem)
  have hlt : l.contents.length - 1 < l.appendIx.toNat := by omega
  obtain ⟨t, t', ht, hpass⟩ := Block.loop_pass hlt h
  obtain ⟨done, rest, free, hpassing⟩ := loop_passing hl hlt.le ht
  cases rest with
  | nil =>
    rw [hpassing.null_behind hlt hnull] at hpass
    cases hpass
  | cons x rest =>
    have hhere := hpassing.here (List.cons_ne_nil _ _)
    have hcount := hpassing.count
    rw [List.length_cons] at hcount
    obtain ⟨hall, hdone⟩ := hpassing.untouched (by omega)
    obtain rfl : rest = [] := List.eq_nil_of_length_eq_zero (by omega)
    rw [← hall, List.dropLast_concat] at hmem
    exact hdone hmem

/-- **It ends** when every occurrence can be moved over. -/
theorem some_of_movable (hl : l.Inv) (hne : item ≠ null)
    (hmove : ∀ i : ℕ, l.contents[i]? = some item → l.Movable i) :
    ∃ r, l.removeItem item = some r := by
  have hlen := length_contents hl
  have hnonneg := hl.nonneg
  have hstep : ∀ i < l.appendIx.toNat, ∀ s, (∃ done rest free, Passing l item i s done rest free) →
      ∃ s', removePass item i s = some s' := by
    rintro i hi s ⟨done, rest, free, h⟩
    cases rest with
    | nil => exact ⟨s, by rw [removePass, h.load_nil hi, Option.bind_some, if_neg hne]⟩
    | cons x rest =>
      by_cases hx : item = x
      · subst hx
        obtain ⟨pre, hpre⟩ := h.suffix
        have hplace := hmove pre.length (by simp [← hpre])
        have hcount := h.count
        have hhere := h.here (List.cons_ne_nil _ _)
        have hix := h.appendIx
        have hpre := congrArg List.length hpre
        have hle := hl.le_length
        have hsmall := hl.small
        rw [List.length_append, List.length_cons] at hpre
        rw [List.length_cons] at hcount hix
        have hmovable : s.1.Movable i := by
          rw [Movable] at hplace ⊢
          omega
        have hdata : s.1.data = done ++ item :: rest ++
            (List.replicate free null ++ l.data.drop l.appendIx.toNat) := h.data
        exact ⟨_, by rw [removePass, h.load_cons, Option.bind_some, if_pos rfl,
          removeBase_eq hdata (by omega) hhere.symm (by omega) hmovable, Option.map_some]⟩
      · exact ⟨s, by rw [removePass, h.load_cons, Option.bind_some, if_neg hx]⟩
  obtain ⟨r, hr, -⟩ := Block.loop_spec
    (fun i s => ∃ done rest free, Passing l item i s done rest free) ⟨_, _, _, Passing.init hl⟩
    fun i hi s hs => by
      obtain ⟨s', hs'⟩ := hstep i hi s hs
      obtain ⟨_, _, _, h⟩ := hs
      exact ⟨s', hs', h.pass hl hi hs'⟩
  exact ⟨r, hr⟩

/-- It ends when only the last item is one. -/
theorem some_of_last (hl : l.Inv) (hlast : item ∉ l.contents.dropLast) :
    ∃ r, l.removeItem item = some r := by
  have hlen := length_contents hl
  have hslots := hl.le_slots
  have hle := hl.le_length
  rw [removeItem]
  cases hn : l.appendIx.toNat with
  | zero => exact ⟨_, rfl⟩
  | succ m =>
    have hbefore : ∀ j < m, l.contents[j]? ≠ some item := by
      intro j hj hitem
      have hdrop : l.contents.dropLast[j]? = some item := by
        rwa [List.getElem?_dropLast, if_pos (by omega)]
      exact hlast (List.mem_of_getElem? hdrop)
    have hload := load_contents (List.getElem?_eq_getElem (show m < l.contents.length by omega))
    rw [Block.loop, loop_before hl (by omega) hbefore, Option.bind_some, removePass, hload,
      Option.bind_some]
    split
    · have hstore := Block.store_of_lt (b := l.data) (i := m) (by omega) (by omega) null
      exact ⟨_, by rw [removeBase, if_pos (show (m : ℤ) + 1 = l.appendIx by omega), hstore,
        Option.map_some, Option.map_some]⟩
    · exact ⟨_, rfl⟩

/-! ## What it leaves -/

theorem isChain_cons_of_ne {y : Item} (hy : y ≠ item) (rest : List Item) :
    (y :: rest).IsChain (fun x y => ¬(x = item ∧ y = item)) ↔
      rest.IsChain fun x y => ¬(x = item ∧ y = item) := by
  cases rest <;> simp [hy]

/-- What is kept is all others just if no two occurrences are neighbours. -/
theorem kept_eq_filter_iff (item : Item) (xs : List Item) :
    kept item xs = xs.filter (· ≠ item) ↔ xs.IsChain fun x y => ¬(x = item ∧ y = item) := by
  fun_induction kept item xs with
  | case1 => simp
  | case2 => simp
  | case3 y rest ih =>
    rw [List.isChain_cons_cons, List.filter_cons_of_neg (by simp)]
    by_cases hy : y = item
    · subst hy
      have hno : y :: kept y rest ≠ (y :: rest).filter (· ≠ y) := by
        intro heq
        have hmem := List.mem_filter.mp (heq ▸ List.mem_cons_self)
        simp at hmem
      simpa using hno
    · rw [isChain_cons_of_ne hy, List.filter_cons_of_pos (by simpa using hy), List.cons_inj_right,
        ih]
      simp [hy]
  | case4 x rest hx ih =>
    rw [isChain_cons_of_ne hx, List.filter_cons_of_pos (by simpa using hx), List.cons_inj_right, ih]

/-- **All occurrences are removed, and nothing else**, just if the list is so. -/
theorem removeItem_iff (hl : l.Inv) (item : Item) :
    (∃ l' b, l.removeItem item = some (l', b) ∧ l'.contents = l.contents.filter (· ≠ item) ∧
      (b = true ↔ item ∈ l.contents)) ↔ l.Removable item := by
  constructor
  · rintro ⟨l', b, hsome, hcontents, -⟩
    have hkept := (removeItem_kept hl hsome).1
    exact ⟨(kept_eq_filter_iff item _).mp (hkept.symm.trans hcontents),
      null_last_of_some hl hsome, movable_of_some hl hsome⟩
  · intro h
    obtain ⟨⟨l', b⟩, hsome⟩ : ∃ r, l.removeItem item = some r := by
      by_cases hnull : item = null
      · exact some_of_last hl (h.null_last hnull)
      · exact some_of_movable hl hnull h.movable
    obtain ⟨hkept, hfound⟩ := removeItem_kept hl hsome
    exact ⟨l', b, hsome, hkept.trans ((kept_eq_filter_iff item _).mpr h.apart), hfound⟩

def itemList (items : List Item) : ListObj where
  data := items ++ List.replicate 16 null
  appendIx := items.length
  length := 16

theorem removeItem_iff_apart :
    (∃ l' b, (itemList [7, 8, 7]).removeItem 7 = some (l', b) ∧
      l'.contents = (itemList [7, 8, 7]).contents.filter (· ≠ 7) ∧
      (b = true ↔ 7 ∈ (itemList [7, 8, 7]).contents)) ↔ (itemList [7, 8, 7]).Removable 7 := by
  refine removeItem_iff ⟨⟨?_, ?_, ?_⟩, ?_, ?_⟩ 7
  all_goals decide

/-- **The second of two neighbours stays.** -/
theorem not_removeItem :
    ¬ ∀ (l : ListObj) (item : Item), l.Inv → ∃ l' b, l.removeItem item = some (l', b) ∧
      l'.contents = l.contents.filter (· ≠ item) ∧ (b = true ↔ item ∈ l.contents) := by
  intro hall
  have hinv : (itemList [7, 7]).Inv := by
    refine ⟨⟨?_, ?_, ?_⟩, ?_, ?_⟩
    all_goals decide
  obtain ⟨l', b, hsome, hcontents, -⟩ := hall _ 7 hinv
  have hrun : (itemList [7, 7]).removeItem 7 =
      some (⟨7 :: List.replicate 17 null, 1, 16⟩, true) := by decide
  rw [hrun] at hsome
  cases hsome
  exact absurd hcontents (by decide)

end ListObj

end N00b.Adts
