import N00b.Adts.ListSlots

/-!
# The capacity of a list

A list has as many slots as it says, or more, and uses no others, as long as three things do not
happen: an index is set that is at least twice the length, a slice is replaced by one that leaves
another number of items than there are slots, or a list is added to itself. What is left are sizes
that do not fit in a bit field, or whose number of bytes does not fit in an `int`.

## Main results

- `Inv.step`: an operation that meets the condition stays inside of the slots.
- `slots_suffice`: in every run of such operations every list has the slots it says.
-/

namespace N00b.Adts

open N00b.Lib

/-- What the fields of a list should say about its slots. -/
structure ListObj.Valid (l : ListObj) : Prop where
  nonneg : 0 ≤ l.appendIx
  le_length : l.appendIx ≤ l.length
  le_slots : l.length ≤ l.data.length

namespace ListObj

/-! ## When the slots suffice -/

/-- What is asked of an operation: that a list is not made smaller. -/
def InDomain (l : ListObj) : ListOp → Prop
  | .resize len => l.length ≤ len
  | _ => True

/-- A removal moves fewer than `2 ^ 31` bytes. -/
def Movable (l : ListObj) (index : ℤ) : Prop := l.appendIx - index ≤ 2 ^ 28

/-- The condition under which an operation stays inside of the slots. -/
def Fits (l : ListObj) : ListOp → Prop
  | .append _ => l.appendIx < l.length ∨ l.length * 2 < 2 ^ 29
  | .set ix _ => l.fromEnd ix < l.length ∨ l.fromEnd ix < l.length * 2 ∧ l.length * 2 < 2 ^ 29
  | .dequeue => l.Movable 0
  | .remove index => l.Movable (l.fromEnd index)
  | .plusEq items => l.appendIx + items.length < 2 ^ 29
  | .plusEqSelf => l.appendIx = 0
  | .setSlice start stop items =>
    ∀ r, sliceRange l.appendIx start stop = some r →
      l.appendIx + items.length - (r.2 - r.1) ≤ l.length ∧
        l.length ≤ arraySlots (l.appendIx + items.length - (r.2 - r.1)).toNat
  | .resize len => l.length ≤ len ∧ len < 2 ^ 29
  | .pop | .reverse => True

/-! ## The invariant -/

/-- What the operations keep. -/
structure Inv (l : ListObj) : Prop extends l.Valid where
  pos : 0 < l.length
  small : l.length < 2 ^ 29

variable {l : ListObj}

/-- A length below 2^29 fits its bit field. -/
theorem int30_of_lt {x : ℤ} (h₀ : 0 ≤ x) (h : x < 2 ^ 29) : int30 x = x := by
  rw [int30, Int.bmod_eq_of_le]
  all_goals omega

theorem length_arrayAlloc (n : ℕ) : (arrayAlloc n).length = arraySlots n := List.length_replicate

/-- A new list meets the invariant. -/
theorem init_inv (length : ℤ) (h : length < 2 ^ 29) : Inv (init length) := by
  have hlen : int30 (max length 16) = max length 16 := int30_of_lt (by omega) (by omega)
  have hslots := le_arraySlots (max length 16).toNat
  refine ⟨⟨le_rfl, ?_, ?_⟩, ?_, ?_⟩
  · show 0 ≤ int30 (max length 16)
    omega
  · show int30 (max length 16) ≤ ((arrayAlloc (int30 (max length 16)).toNat).length : ℤ)
    rw [hlen, length_arrayAlloc]
    omega
  · show 0 < int30 (max length 16)
    omega
  · show int30 (max length 16) < 2 ^ 29
    omega

/-- Resizing to a larger length keeps the items and the invariant. -/
theorem Inv.resize (hl : Inv l) (len : ℕ) (hle : l.length ≤ len) (hlen : len < 2 ^ 29) :
    ∃ l', l.resize len = some l' ∧ Inv l' ∧ l'.appendIx = l.appendIx ∧ l'.length = len := by
  have hslots := le_arraySlots len
  have hlength := hl.le_slots
  have hnonneg := hl.nonneg
  have happend := hl.le_length
  have hpos := hl.pos
  have hint : int30 len = len := int30_of_lt (by omega) (by omega)
  have hdata : (Block.splice (arrayAlloc len) 0 (l.data.take l.length.toNat)).length =
      arraySlots len := by
    rw [Block.length_splice (by rw [List.length_take, length_arrayAlloc]; omega), length_arrayAlloc]
  have hcopy := Block.fill_load (arrayAlloc len) l.data 0 l.length.toNat
    (by rw [length_arrayAlloc]; omega) (by omega)
  have hres : l.resize len = some { l with
      data := Block.splice (arrayAlloc len) 0 (l.data.take l.length.toNat)
      length := int30 len } := by
    rw [ListObj.resize, ← Nat.cast_zero, hcopy, Option.map_some]
  rw [hint] at hres
  refine ⟨_, hres, ⟨⟨hnonneg, happend.trans hle, ?_⟩, hpos.trans_le hle, ?_⟩, rfl, rfl⟩
  · show (len : ℤ) ≤ (Block.splice (arrayAlloc len) 0 (l.data.take l.length.toNat)).length
    rw [hdata]
    omega
  · show (len : ℤ) < 2 ^ 29
    omega

/-- Resizing where needed keeps the items and the invariant. -/
theorem Inv.resizeIf (hl : Inv l) (needed : Prop) [Decidable needed] (len : ℤ)
    (h : needed → l.length ≤ len ∧ len < 2 ^ 29) :
    ∃ l', l.resizeIf needed len = some l' ∧ Inv l' ∧ l'.appendIx = l.appendIx ∧
      (needed → l'.length = len) ∧ (¬ needed → l' = l) := by
  by_cases hn : needed
  · have hpos := hl.pos
    obtain ⟨hle, hlt⟩ := h hn
    obtain ⟨l', hres, hinv, happend, hlen⟩ := hl.resize len.toNat (by omega) (by omega)
    exact ⟨l', by rw [ListObj.resizeIf, if_pos hn, hres], hinv, happend, fun _ => by omega,
      fun h => absurd hn h⟩
  · exact ⟨l, by rw [ListObj.resizeIf, if_neg hn], hl, rfl, fun h => absurd h hn, fun _ => rfl⟩

/-- Replacing the items within the slots keeps the invariant. -/
theorem Inv.withItems (hl : Inv l) {data : List Item} (hdata : data.length = l.data.length) {n : ℤ}
    (h₀ : 0 ≤ n) (hn : n ≤ l.length) : Inv { l with data := data, appendIx := n } := by
  have hslots := hl.le_slots
  exact ⟨⟨h₀, hn, by rw [hdata]; exact hslots⟩, hl.pos, hl.small⟩

/-- Pushing into a free slot keeps the invariant. -/
theorem Inv.push (hl : Inv l) (hlt : l.appendIx < l.length) (item : Item) :
    ∃ l', l.push item = some l' ∧ Inv l' ∧ l'.appendIx = l.appendIx + 1 ∧ l'.length = l.length := by
  have hslots := hl.le_slots
  have hnonneg := hl.nonneg
  have hsmall := hl.small
  have hint : int30 (l.appendIx + 1) = l.appendIx + 1 := int30_of_lt (by omega) (by omega)
  have hstore := Block.store_of_lt (b := l.data) hnonneg (by omega) item
  exact ⟨{ l with data := l.data.set l.appendIx.toNat item, appendIx := int30 (l.appendIx + 1) },
    by rw [ListObj.push, hstore, Option.map_some],
    hl.withItems (by rw [List.length_set]) (by omega) (by omega), hint, rfl⟩

/-- Appending grows a full list first and keeps the invariant. -/
theorem Inv.append (hl : Inv l) (item : Item) (h : l.Fits (.append item)) :
    ∃ l', l.append item = some l' ∧ Inv l' := by
  have hle := hl.le_length
  have hpos := hl.pos
  rw [Fits] at h
  obtain ⟨l₁, hl₁, hinv, happend, hgrown, hsame⟩ :=
    hl.resizeIf (l.length ≤ l.appendIx) (l.length * 2) fun hn => by omega
  have hlt : l₁.appendIx < l₁.length := by
    by_cases hn : l.length ≤ l.appendIx
    · rw [hgrown hn]
      omega
    · rw [hsame hn]
      omega
  obtain ⟨l₂, hl₂, hinv₂, _⟩ := hinv.push hlt item
  exact ⟨l₂, by simp [ListObj.append, hl₁, hl₂], hinv₂⟩

/-- Setting an item within twice the length keeps the invariant. -/
theorem Inv.set (hl : Inv l) (ix : ℤ) (item : Item) (h : l.Fits (.set ix item)) :
    ∃ l' r, l.set ix item = some (l', r) ∧ Inv l' := by
  rw [Fits] at h
  by_cases hneg : l.fromEnd ix < 0
  · exact ⟨l, false, by rw [ListObj.set, if_pos hneg], hl⟩
  · have hnonneg := hl.nonneg
    have hle := hl.le_length
    obtain ⟨l₁, hl₁, hinv, happend, hgrown, hsame⟩ :=
      hl.resizeIf (l.length ≤ l.fromEnd ix) (max (l.fromEnd ix) (l.length * 2)) fun hn => by omega
    have hlt : l.fromEnd ix < l₁.length := by
      by_cases hn : l.length ≤ l.fromEnd ix
      · rw [hgrown hn]
        omega
      · rw [hsame hn]
        omega
    have hslots := hinv.le_slots
    have hsmall := hinv.small
    have hstore := Block.store_of_lt (b := l₁.data) (not_lt.mp hneg) (by omega) item
    have hset : l.set ix item = some ({ l₁ with
        data := l₁.data.set (l.fromEnd ix).toNat item
        appendIx := if l.appendIx ≤ l.fromEnd ix then int30 (l.fromEnd ix + 1) else l.appendIx },
        true) := by
      simp only [ListObj.set, if_neg hneg, hl₁, hstore, Option.bind_eq_bind, Option.bind_some]
    refine ⟨_, true, hset, hinv.withItems (by rw [List.length_set]) ?_ ?_⟩
    · split
      · rw [int30_of_lt (by omega) (by omega)]
        omega
      · exact hnonneg
    · split
      · rw [int30_of_lt (by omega) (by omega)]
        omega
      · rw [← happend]
        exact hinv.le_length

/-- Reading an index stays within the slots. -/
theorem Inv.getBase (hl : Inv l) (ix : ℤ) : ∃ item, l.getBase ix = some item := by
  rw [ListObj.getBase]
  split
  · exact ⟨null, rfl⟩
  · rename_i hin
    have hle := hl.le_length
    have hslots := hl.le_slots
    obtain ⟨item, hitem, _⟩ := Block.load_of_lt (b := l.data) (i := ix) (by omega) (by omega)
    exact ⟨item, hitem⟩

/-- Popping keeps the invariant. -/
theorem Inv.pop (hl : Inv l) : ∃ l' r, l.pop = some (l', r) ∧ Inv l' := by
  by_cases hzero : l.appendIx = 0
  · exact ⟨l, null, by rw [ListObj.pop, if_pos hzero], hl⟩
  · have hnonneg := hl.nonneg
    have hle := hl.le_length
    have hsmall := hl.small
    obtain ⟨item, hitem⟩ := hl.getBase (l.appendIx - 1)
    have hint : int30 (l.appendIx - 1) = l.appendIx - 1 := int30_of_lt (by omega) (by omega)
    exact ⟨_, item, by rw [ListObj.pop, if_neg hzero, hitem]; rfl,
      hl.withItems rfl (by rw [hint]; omega) (by rw [hint]; omega)⟩

/-- Removing an item within the list moves the ones behind it and keeps the invariant. -/
theorem Inv.removeBase (hl : Inv l) {index : ℤ} (h₀ : 0 ≤ index) (hlt : index < l.appendIx)
    (hmove : l.Movable index) : ∃ l', l.removeBase index = some l' ∧ Inv l' := by
  rw [Movable] at hmove
  have hle := hl.le_length
  have hslots := hl.le_slots
  have hsmall := hl.small
  have hint : int30 (l.appendIx - 1) = l.appendIx - 1 := int30_of_lt (by omega) (by omega)
  by_cases hlast : index + 1 = l.appendIx
  · have hstore := Block.store_of_lt (b := l.data) h₀ (by omega) null
    exact ⟨_, by rw [ListObj.removeBase, if_pos hlast, hstore, Option.map_some],
      hl.withItems (by rw [List.length_set]) (by rw [hint]; omega) (by rw [hint]; omega)⟩
  · obtain ⟨i, rfl⟩ := Int.eq_ofNat_of_zero_le h₀
    obtain ⟨n, hn⟩ := Int.eq_ofNat_of_zero_le (show 0 ≤ l.appendIx - (i + 1) by omega)
    have hbytes : l.bytelen i / 8 = n := by
      rw [bytelen, hn, Int.bmod_eq_of_le]
      all_goals omega
    have hcopy := Block.copy_of_le l.data l.data i (i + 1) n (by omega) (by omega)
    have hlen := Block.length_copy hcopy
    have hstore := Block.store_of_lt (b := Block.splice l.data i ((l.data.drop (i + 1)).take n))
      (i := l.appendIx - 1) (by omega) (by rw [hlen]; omega) null
    rw [Nat.cast_succ] at hcopy
    have hres : l.removeBase i = some { l with
        data := (Block.splice l.data i ((l.data.drop (i + 1)).take n)).set
          (l.appendIx - 1).toNat null
        appendIx := l.appendIx - 1 } := by
      simp only [ListObj.removeBase, if_neg hlast, hbytes, hcopy, hint, hstore,
        Option.bind_eq_bind, Option.bind_some]
    exact ⟨_, hres, hl.withItems (by rw [List.length_set, hlen]) (by omega) (by omega)⟩

/-- Removing at any index keeps the invariant. -/
theorem Inv.remove (hl : Inv l) (index : ℤ) (h : l.Fits (.remove index)) :
    ∃ l' r, l.remove index = some (l', r) ∧ Inv l' := by
  by_cases hout : l.appendIx ≤ index ∨ l.fromEnd index < 0
  · exact ⟨l, false, by rw [ListObj.remove, if_pos hout], hl⟩
  · have hlt : l.fromEnd index < l.appendIx := by
      rw [fromEnd] at hout ⊢
      split at hout <;> omega
    obtain ⟨l', hl', hinv⟩ := hl.removeBase (by omega) hlt h
    exact ⟨l', true, by rw [ListObj.remove, if_neg hout, hl', Option.map_some], hinv⟩

/-- Taking the first item keeps the invariant. -/
theorem Inv.dequeue (hl : Inv l) (h : l.Fits .dequeue) :
    ∃ l' r, l.dequeue = some (l', r) ∧ Inv l' := by
  by_cases hzero : l.appendIx = 0
  · exact ⟨l, null, by rw [ListObj.dequeue, if_pos hzero], hl⟩
  · have hnonneg := hl.nonneg
    obtain ⟨item, hitem⟩ := hl.getBase 0
    obtain ⟨l', hl', hinv⟩ := hl.removeBase le_rfl (by omega) h
    exact ⟨l', item, by rw [ListObj.dequeue, if_neg hzero, hitem, Option.bind_eq_bind,
      Option.bind_some, hl']; rfl, hinv⟩

/-- Appending a list makes room first and keeps the invariant. -/
theorem Inv.plusEq (hl : Inv l) (items : List Item) (h : l.Fits (.plusEq items)) :
    ∃ l', l.plusEq items = some l' ∧ Inv l' := by
  rw [Fits] at h
  obtain ⟨l₁, hl₁, hinv, happend, hgrown, hsame⟩ :=
    hl.resizeIf (l.length < l.appendIx + items.length) (l.appendIx + items.length)
      fun hn => by omega
  have hroom : l₁.appendIx + items.length ≤ l₁.length := by
    by_cases hn : l.length < l.appendIx + items.length
    · rw [hgrown hn, happend]
    · rw [hsame hn]
      omega
  obtain ⟨l₂, hl₂, hinv₂, _⟩ : ∃ l₂,
      Block.loop (fun i l => (Block.load items i).bind l.push) items.length l₁ = some l₂ ∧
        (Inv l₂ ∧ l₂.appendIx = l₁.appendIx + items.length ∧ l₂.length = l₁.length) :=
    Block.loop_spec (fun i l => Inv l ∧ l.appendIx = l₁.appendIx + i ∧ l.length = l₁.length)
    ⟨hinv, by omega, rfl⟩ (by
      rintro i hi t ⟨ht, happend, hlen⟩
      obtain ⟨item, hitem, _⟩ := Block.load_of_lt (b := items) (i := i) (by omega) (by omega)
      obtain ⟨t', ht', hinv', happend', hlen'⟩ := ht.push (by omega) item
      exact ⟨t', by rw [hitem, Option.bind_some, ht'], hinv', by push_cast; omega, by omega⟩)
  exact ⟨l₂, by rw [ListObj.plusEq, hl₁, Option.bind_eq_bind, Option.bind_some, hl₂], hinv₂⟩

/-- Appending a list to itself changes nothing. -/
theorem Inv.plusEqSelf (hl : Inv l) (h : l.Fits .plusEqSelf) : l.plusEqSelf = some l := by
  rw [Fits] at h
  have hle := hl.le_length
  rw [ListObj.plusEqSelf, ListObj.resizeIf, if_neg (by omega), Option.bind_eq_bind, Option.bind_some,
    plusEqSelfLoop, if_neg (by omega)]

/-- A non-empty slice lies within the list. -/
theorem sliceRange_bounds {len start stop : ℤ} {r : ℤ × ℤ}
    (h : sliceRange len start stop = some r) : 0 ≤ r.1 ∧ r.1 < r.2 ∧ r.2 ≤ len := by
  rw [sliceRange] at h
  obtain ⟨_, hr⟩ := Option.ite_none_left_eq_some.mp h
  rw [← Option.some.inj hr]
  refine ⟨?_, ?_, ?_⟩
  · omega
  · omega
  · show (if stop < 0 then stop + len else min stop len) ≤ len
    split <;> omega

/-- Replacing a slice keeps the invariant where its slots suffice. -/
theorem Inv.setSlice (hl : Inv l) (start stop : ℤ) (items : List Item)
    (h : l.Fits (.setSlice start stop items)) :
    ∃ l' r, l.setSlice start stop items = some (l', r) ∧ Inv l' := by
  rcases hr : sliceRange l.appendIx start stop with _ | ⟨first, last⟩
  · exact ⟨l, false, by rw [ListObj.setSlice, hr], hl⟩
  · obtain ⟨hfirst, hlt, hlast⟩ := sliceRange_bounds hr
    obtain ⟨hle, hslots⟩ := h (first, last) hr
    simp only at hfirst hlt hlast hle hslots
    have hsmall := hl.small
    have hroom := le_arraySlots (l.appendIx + items.length - (last - first)).toNat
    -- the items before the slice, those that replace it, and those behind it
    obtain ⟨d₁, hd₁, hlen₁⟩ := Block.fill_of_le (fun i => l.getBase i) 0 first.toNat
      (arrayAlloc (l.appendIx + items.length - (last - first)).toNat) le_rfl
      (by rw [length_arrayAlloc]; omega) fun i _ => hl.getBase i
    rw [length_arrayAlloc] at hlen₁
    obtain ⟨d₂, hd₂, hlen₂⟩ := Block.fill_of_le (fun i => Block.load items i) first
      items.length d₁ hfirst (by omega) fun i hi => by
        obtain ⟨item, hitem, _⟩ := Block.load_of_lt (b := items) (i := i) (by omega) (by omega)
        exact ⟨item, hitem⟩
    obtain ⟨d₃, hd₃, hlen₃⟩ := Block.fill_of_le (fun i => l.getBase (last + i))
      (first + items.length) (l.appendIx - last).toNat d₂ (by omega) (by omega)
      fun i _ => hl.getBase _
    have hint : int30 (first + items.length + (l.appendIx - last)) =
        first + items.length + (l.appendIx - last) := int30_of_lt (by omega) (by omega)
    have hres : l.setSlice start stop items = some ({ l with
        data := d₃
        appendIx := first + items.length + (l.appendIx - last) }, true) := by
      simp only [ListObj.setSlice, hr, hd₁, hd₂, hd₃, hint, Option.bind_eq_bind, Option.bind_some]
    refine ⟨_, true, hres, ⟨⟨?_, ?_, ?_⟩, hl.pos, hl.small⟩⟩
    · show 0 ≤ first + items.length + (l.appendIx - last)
      omega
    · show first + items.length + (l.appendIx - last) ≤ l.length
      omega
    · show l.length ≤ (d₃.length : ℤ)
      rw [hlen₃, hlen₂, hlen₁]
      exact hslots

/-- Swapping two items stays within the slots. -/
theorem Inv.swap (hl : Inv l) {i : ℕ} (hi : i < (l.appendIx / 2).toNat) {data : List Item}
    (hdata : data.length = l.data.length) :
    ∃ data', l.swap i data = some data' ∧ data'.length = l.data.length := by
  have hle := hl.le_length
  have hslots := hl.le_slots
  obtain ⟨first, hfirst, _⟩ := Block.load_of_lt (b := data) (i := i) (by omega) (by omega)
  obtain ⟨last, hlast, _⟩ := Block.load_of_lt (b := data) (i := l.appendIx - 1 - i) (by omega)
    (by omega)
  have hstore := Block.store_of_lt (b := data) (i := l.appendIx - 1 - i) (by omega) (by omega) first
  have hstore' := Block.store_of_lt (b := data.set (l.appendIx - 1 - i).toNat first) (i := i)
    (by omega) (by rw [List.length_set]; omega) last
  have hres : l.swap i data = some ((data.set (l.appendIx - 1 - i).toNat first).set i last) := by
    simp only [ListObj.swap, hfirst, hlast, hstore, hstore', Option.bind_eq_bind, Option.bind_some,
      Int.toNat_natCast]
  exact ⟨_, hres, by rw [List.length_set, List.length_set, hdata]⟩

/-- Reversing keeps the invariant. -/
theorem Inv.reverse (hl : Inv l) : ∃ l', l.reverse = some l' ∧ Inv l' := by
  obtain ⟨data, hdata, hlen⟩ : ∃ data,
      Block.loop l.swap (l.appendIx / 2).toNat l.data = some data ∧
        data.length = l.data.length :=
    Block.loop_spec (fun _ (data : List Item) => data.length = l.data.length) rfl
      fun i hi data hdata => hl.swap hi hdata
  exact ⟨_, by rw [ListObj.reverse, hdata, Option.map_some],
    hl.withItems hlen hl.nonneg hl.le_length⟩

/-! ## Runs -/

/-- Every operation that fits ends and keeps the invariant. -/
theorem Inv.step (hl : Inv l) (op : ListOp) (h : l.Fits op) :
    ∃ l', l.step op = some l' ∧ Inv l' := by
  cases op with
  | append item => exact hl.append item h
  | set ix item =>
    obtain ⟨l', r, hl', hinv⟩ := hl.set ix item h
    exact ⟨l', by rw [ListObj.step, hl', Option.map_some], hinv⟩
  | pop =>
    obtain ⟨l', r, hl', hinv⟩ := hl.pop
    exact ⟨l', by rw [ListObj.step, hl', Option.map_some], hinv⟩
  | dequeue =>
    obtain ⟨l', r, hl', hinv⟩ := hl.dequeue h
    exact ⟨l', by rw [ListObj.step, hl', Option.map_some], hinv⟩
  | remove index =>
    obtain ⟨l', r, hl', hinv⟩ := hl.remove index h
    exact ⟨l', by rw [ListObj.step, hl', Option.map_some], hinv⟩
  | plusEq items => exact hl.plusEq items h
  | plusEqSelf => exact ⟨l, hl.plusEqSelf h, hl⟩
  | setSlice start stop items =>
    obtain ⟨l', r, hl', hinv⟩ := hl.setSlice start stop items h
    exact ⟨l', by rw [ListObj.step, hl', Option.map_some], hinv⟩
  | resize len =>
    obtain ⟨l', hl', hinv, _⟩ := hl.resize len h.1 h.2
    exact ⟨l', hl', hinv⟩
  | reverse => exact hl.reverse

/-- **The slots suffice.** In every run of operations that meet the condition, every list has the
slots it says, and the next operation stays inside of them. -/
theorem slots_suffice (length : ℤ) (hlength : length < 2 ^ 29) (l : ListObj)
    (hrun : Run ListObj.step Fits (init length) l) :
    l.Valid ∧ ∀ op, l.Fits op → ∃ l', l.step op = some l' := by
  have hinv : Inv l := hrun.invariant (init_inv length hlength) fun t op u ht hok hstep => by
    obtain ⟨u', hu', hinv⟩ := ht.step op hok
    rw [hstep] at hu'
    rwa [Option.some.inj hu']
  refine ⟨hinv.toValid, fun op hop => ?_⟩
  obtain ⟨l', hl', _⟩ := hinv.step op hop
  exact ⟨l', hl'⟩

/-- A list of 16 slots that is given 32 before index 31 is set. -/
theorem slots_suffice_set_31 : ∃ l, (init 0).step (.set 31 7) = some l ∧ l.Valid := by
  have hfits : (init 0).Fits (.set 31 7) := .inr (by decide)
  obtain ⟨l, hl, _⟩ := (init_inv 0 (by decide)).step (.set 31 7) hfits
  exact ⟨l, hl, (slots_suffice 0 (by decide) l (.tail .refl hfits hl)).1⟩

/-- Index 32 of a new list is set: the list gets 32 slots for that, and the item would be stored
behind them. -/
theorem set_at_twice_the_length :
    ¬ ∀ (length : ℤ) (l : ListObj), Run ListObj.step InDomain (init length) l →
      l.Valid ∧ ∀ op, l.InDomain op → ∃ l', l.step op = some l' := by
  intro h
  obtain ⟨l', hl'⟩ := (h 0 (init 0) .refl).2 (.set 32 7) trivial
  have hnone : (init 0).step (.set 32 7) = none := by decide
  rw [hnone] at hl'
  cases hl'

end ListObj

end N00b.Adts
