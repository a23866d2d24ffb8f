import N00b.Hatrack.Ring

/-!
# The ring buffer keeps the newest items

The abstract ring is the list of the items that are neither dequeued nor dropped. An enqueue appends
to it, and drops what is then too much at its front.

## Main results

* `InRing.enqueue`, `InRing.dequeue`: what the operations do to the items.
-/

namespace N00b.Hatrack

/-! ## The abstract ring -/

/-- The items of a ring, the ones that were dropped, and the epoch of the next enqueue. -/
structure NewestItems where
  items : List Item
  dropped : List Item
  epoch : Nat

namespace NewestItems

/-- An item is appended. At most `size` items are kept. -/
def enqueue (size : Nat) (item : Item) (q : NewestItems) : NewestItems where
  items := (q.items ++ [item]).drop (q.items.length + 1 - size)
  dropped := q.dropped ++ (q.items ++ [item]).take (q.items.length + 1 - size)
  epoch := q.epoch + 1

def dequeue (q : NewestItems) : NewestItems := { q with items := q.items.tail }

def exec (size : Nat) (q : NewestItems) : RingOp → NewestItems × RingReply
  | .enqueue item => (q.enqueue size item, .enqueued q.epoch)
  | .dequeue => (q.dequeue, .dequeued q.items.head?)

def run (size : Nat) : List RingOp → NewestItems → NewestItems × List RingReply
  | [], q => (q, [])
  | op :: ops, q =>
    let r := run size ops (q.exec size op).1
    (r.1, (q.exec size op).2 :: r.2)

end NewestItems

/-! ## Epochs -/

section

variable {read write size : Nat}

/-- The write epoch is the upper half of the epochs word. -/
theorem hatringEnqueueEpoch_eq (hread : read < 2 ^ 32) (hwrite : write < 2 ^ 32) :
    hatringEnqueueEpoch (write * 2 ^ 32 + read) = write := by
  unfold hatringEnqueueEpoch
  omega

/-- The read epoch is the lower half of the epochs word. -/
theorem hatringDequeueEpoch_eq (hread : read < 2 ^ 32) :
    hatringDequeueEpoch (write * 2 ^ 32 + read) = read := by
  unfold hatringDequeueEpoch
  omega

/-- Joining two halves by bits is their sum. -/
theorem pack_or (hread : read < 2 ^ 32) : write * 2 ^ 32 ||| read = write * 2 ^ 32 + read := by
  rw [Nat.mul_comm, Nat.two_pow_add_eq_or_of_lt hread]

/-- A lagging reader is moved up to the oldest item that is still there. -/
theorem hatringFixedEpoch_eq (hwrite : write < 2 ^ 32) (hsize : size ≤ write) :
    hatringFixedEpoch write size = write * 2 ^ 32 + (write - size) := by
  have hlow : (write + 2 ^ 64 - size) % 2 ^ 64 = write - size := by omega
  have hhigh : write * 2 ^ 32 % 2 ^ 64 = write * 2 ^ 32 := by omega
  unfold hatringFixedEpoch
  rw [hlow, hhigh, pack_or (by omega)]

/-- Masking the read epoch gives the cell of the ring. -/
theorem hatringDequeueIx_eq {k : Nat} (hk : 2 ^ k < 2 ^ 32) :
    hatringDequeueIx (write * 2 ^ 32 + read) (2 ^ k - 1) = read % 2 ^ k := by
  have hdvd : 2 ^ k ∣ write * 2 ^ 32 := by
    have hle : k ≤ 32 := le_of_lt ((Nat.pow_lt_pow_iff_right (by decide)).mp hk)
    exact Dvd.dvd.mul_left (pow_dvd_pow 2 hle) write
  have hlast : (2 ^ k - 1) % 2 ^ 32 = 2 ^ k - 1 := Nat.mod_eq_of_lt (by omega)
  have hslot : read % 2 ^ k < 2 ^ 32 := (Nat.mod_lt _ (Nat.two_pow_pos k)).trans hk
  unfold hatringDequeueIx
  rw [hlast, and_lastSlot, Nat.add_mod, Nat.mod_eq_zero_of_dvd hdvd, Nat.zero_add, Nat.mod_mod,
    Nat.mod_eq_of_lt hslot]

/-- Two epochs less than the ring's size apart use different cells. -/
theorem slot_ne {e : Nat} (hlt : e < write) (hclose : write < e + size) :
    e % size ≠ write % size := by
  intro heq
  have hdvd : size ∣ write - e := (Nat.modEq_iff_dvd' (Nat.le_of_lt hlt)).mp heq
  exact absurd (Nat.le_of_dvd (by omega) hdvd) (by omega)

end

/-! ## What is in the cells -/

/-- The items of a ring, the oldest first: they have the epochs up to `write`, and the last epochs
before them have been dequeued or were never used. -/
structure InRing (r : HatRing) (read write : Nat) (items : List Item) : Prop where
  epochs : r.epochs = write * 2 ^ 32 + read
  slots : ∃ k, r.size = 2 ^ k ∧ r.lastSlot = 2 ^ k - 1
  size_le : r.size ≤ write
  read_le : read ≤ write
  close : write ≤ read + r.size + 1
  length : items.length = min (write - read) r.size
  item : ∀ i x, items[i]? = some x →
    r.cells ((write - items.length + i) % r.size) = ⟨x, true, false, write - items.length + i⟩
  free : ∀ e, write ≤ e + r.size → e < write - items.length →
    (r.cells (e % r.size)).enqueued = false
  old : ∀ ix, (r.cells ix).epoch < write

section

variable {r : HatRing} {read write : Nat} {items : List Item}

namespace InRing

theorem size_pos (h : InRing r read write items) : 0 < r.size := by
  obtain ⟨k, hk, -⟩ := h.slots
  rw [hk]
  exact Nat.two_pow_pos k

theorem readEpoch (h : InRing r read write items) (hwrite : write < 2 ^ 32) :
    r.readEpoch = read := by
  rw [HatRing.readEpoch, h.epochs, hatringDequeueEpoch_eq (h.read_le.trans_lt hwrite)]

theorem writeEpoch (h : InRing r read write items) (hwrite : write < 2 ^ 32) :
    r.writeEpoch = write := by
  rw [HatRing.writeEpoch, h.epochs, hatringEnqueueEpoch_eq (h.read_le.trans_lt hwrite) hwrite]

theorem isLagging (h : InRing r read write items) (hwrite : write + r.size < 2 ^ 32) :
    hatringIsLagging r.readEpoch r.writeEpoch r.size = decide (read + r.size < write) := by
  have hread := h.read_le
  have hsmall : (read + r.size) % 2 ^ 64 = read + r.size := by omega
  rw [h.readEpoch (by omega), h.writeEpoch (by omega), hatringIsLagging, hsmall]

theorem length_le (h : InRing r read write items) : items.length ≤ r.size := by
  rw [h.length]
  exact min_le_right _ _

/-- The cell to write next holds the oldest item of a full ring and is empty otherwise. -/
theorem expected (h : InRing r read write items) :
    if items.length = r.size then
      ∃ x, items.head? = some x ∧
        r.cells (write % r.size) = ⟨x, true, false, write - r.size⟩
    else (r.cells (write % r.size)).enqueued = false := by
  have hle := h.size_le
  have hslot : (write - r.size) % r.size = write % r.size := by
    rw [← Nat.mod_eq_sub_mod hle]
  split
  · rename_i hfull
    have hpos : 0 < items.length := hfull ▸ h.size_pos
    have hitem := h.item 0 _ (List.getElem?_eq_getElem hpos)
    rw [Nat.add_zero, hfull, hslot] at hitem
    exact ⟨_, List.head?_eq_getElem? .. ▸ List.getElem?_eq_getElem hpos, hitem⟩
  · rename_i hroom
    have hlen := h.length_le
    rw [← hslot]
    exact h.free _ (by omega) (by omega)

/-- Writing an item makes it the newest of the ring and gives up the oldest of a full one. -/
theorem write_item (h : InRing r read write items) {read' : Nat} (x : Item)
    (hread : read' = if read + r.size < write then write + 1 - r.size else read) :
    InRing ({ r with epochs := (write + 1) * 2 ^ 32 + read' }.setCell (write % r.size)
      ⟨x, true, false, write⟩) read' (write + 1)
      ((items ++ [x]).drop (items.length + 1 - r.size)) := by
  have hsize := h.size_pos
  have hle := h.size_le
  have hreadle := h.read_le
  have hclose := h.close
  have hlen := h.length
  have hlenle := h.length_le
  have hkept : ((items ++ [x]).drop (items.length + 1 - r.size)).length =
      items.length + 1 - (items.length + 1 - r.size) := by
    rw [List.length_drop, List.length_append, List.length_singleton]
  refine ⟨rfl, h.slots, Nat.le_succ_of_le hle, ?_, ?_, ?_, ?_, ?_, ?_⟩
  · rw [hread]
    split <;> omega
  · show write + 1 ≤ read' + r.size + 1
    rw [hread]
    split <;> omega
  · show _ = min (write + 1 - read') r.size
    rw [hkept, hread]
    split <;> omega
  · intro i y hy
    rw [List.getElem?_drop] at hy
    -- The epochs of the items that were there do not change.
    have hepoch : write + 1 - ((items ++ [x]).drop (items.length + 1 - r.size)).length + i =
        write - items.length + (items.length + 1 - r.size + i) := by
      rw [hkept]
      omega
    rw [hepoch]
    generalize items.length + 1 - r.size + i = j at hy hepoch
    rcases Nat.lt_or_ge j items.length with hj | hj
    · rw [List.getElem?_append_left hj] at hy
      have hne : (write - items.length + j) % r.size ≠ write % r.size :=
        slot_ne (by omega) (by omega)
      exact (Function.update_of_ne hne _ _).trans (h.item j y hy)
    · rw [List.getElem?_append_right hj] at hy
      obtain ⟨hj', rfl⟩ : j - items.length = 0 ∧ x = y := by
        rcases hd : j - items.length with _ | d
        · rw [hd] at hy
          exact ⟨rfl, Option.some.inj hy⟩
        · rw [hd] at hy
          cases hy
      have hat : write - items.length + j = write := by omega
      rw [hat]
      exact Function.update_self _ _ _
  · intro e hlow hhigh
    have hlow : write + 1 ≤ e + r.size := hlow
    rw [hkept] at hhigh
    have hne : e % r.size ≠ write % r.size := slot_ne (by omega) (by omega)
    show (Function.update r.cells _ _ (e % r.size)).enqueued = false
    rw [Function.update_of_ne hne]
    exact h.free e (Nat.le_of_succ_le hlow) (by omega)
  · intro ix
    by_cases hix : ix = write % r.size
    · rw [hix]
      show (Function.update r.cells _ _ _).epoch < write + 1
      rw [Function.update_self]
      exact Nat.lt_succ_self _
    · show (Function.update r.cells _ _ _).epoch < write + 1
      rw [Function.update_of_ne hix]
      exact Nat.lt_succ_of_lt (h.old ix)

theorem dropped (h : InRing r read write items) (c : RingItem) :
    InRing (r.drop c) read write items := by
  unfold HatRing.drop
  split
  · exact ⟨h.epochs, h.slots, h.size_le, h.read_le, h.close, h.length, h.item, h.free, h.old⟩
  · exact h

/-- An enqueue ends, with the item at the back and at most one item dropped. -/
theorem enqueue (h : InRing r read write items) (hwrite : write + r.size + 1 < 2 ^ 32) (x : Item)
    (fuel : Nat) :
    ∃ r' read', hatringEnqueue x (fuel + 2) r = some (r', write) ∧
      InRing r' read' (write + 1) ((items ++ [x]).drop (items.length + 1 - r.size)) ∧
      r'.size = r.size ∧ r'.dropHandler = r.dropHandler ∧
      r'.dropped = r.dropped ++
        (if r.dropHandler then (items ++ [x]).take (items.length + 1 - r.size) else []) := by
  obtain ⟨k, hk, hlast⟩ := h.slots
  have hslot : write &&& r.lastSlot = write % r.size := by rw [hlast, hk, and_lastSlot]
  have hreadle := h.read_le
  have hreadEpoch := h.readEpoch (by omega)
  have hwriteEpoch := h.writeEpoch (by omega)
  let read' := if read + r.size < write then write + 1 - r.size else read
  let claimed : HatRing := { r with epochs := (write + 1) * 2 ^ 32 + read' }
  let filled := claimed.setCell (write % r.size) ⟨x, true, false, write⟩
  -- Both ways to get an epoch get this one.
  have hclaim : nextWriteEpoch (fuel + 1) r = some (claimed, write) := by
    have hsizele := h.size_le
    rw [nextWriteEpoch, h.isLagging (by omega), hwriteEpoch, Nat.mod_eq_of_lt (by omega),
      hatringFixedEpoch_eq (by omega) (by omega)]
    by_cases hlag : read + r.size < write
    · have hread' : read' = write + 1 - r.size := if_pos hlag
      rw [if_pos (decide_eq_true hlag)]
      simp only [claimed, hread']
    · have hread' : read' = read := if_neg hlag
      have hnext : (write * 2 ^ 32 + read + 2 ^ 32) % 2 ^ 64 = (write + 1) * 2 ^ 32 + read := by
        omega
      rw [if_neg (by simpa using hlag), claimEpoch, hreadEpoch, hwriteEpoch, if_neg (by omega),
        h.epochs, hnext]
      simp only [claimed, hread']
  have hold : (r.cells (write % r.size)).epoch < write := h.old _
  have hexec : hatringEnqueue x (fuel + 2) r =
      some (filled.drop (r.cells (write % r.size)), write) := by
    rw [hatringEnqueue, hclaim]
    show (if (r.cells (write &&& r.lastSlot)).epoch < write then _ else _) = _
    rw [hslot, if_pos hold]
  have hholds : InRing filled read' (write + 1)
      ((items ++ [x]).drop (items.length + 1 - r.size)) := h.write_item x rfl
  refine ⟨_, read', hexec, hholds.dropped _, ?_, ?_, ?_⟩
  · unfold HatRing.drop
    split <;> rfl
  · unfold HatRing.drop
    split <;> rfl
  · have hexpected := h.expected
    have hlen := h.length_le
    by_cases hfull : items.length = r.size
    · rw [if_pos hfull] at hexpected
      obtain ⟨y, hy, hcell⟩ := hexpected
      obtain ⟨ys, rfl⟩ := List.head?_eq_some_iff.mp hy
      rw [hcell, hfull, Nat.add_sub_cancel_left]
      cases hhandler : r.dropHandler <;>
        simp [HatRing.drop, filled, claimed, HatRing.setCell, hhandler]
    · rw [if_neg hfull] at hexpected
      have hroom : items.length + 1 - r.size = 0 := by omega
      simp [HatRing.drop, filled, claimed, HatRing.setCell, hexpected, hroom]

/-- A turn of a dequeue advances the read epoch and looks at the cell it left. -/
theorem dequeue_turn (h : InRing r read write items) (hwrite : write + r.size < 2 ^ 32)
    (hlt : read < write) (fuel : Nat) :
    hatringDequeue (fuel + 1) r =
      let r' := { r with epochs := write * 2 ^ 32 + (read + 1) }
      let expected := r.cells (read % r.size)
      if expected.epoch ≤ read then
        let r' := r'.setCell (read % r.size) ⟨null, false, true, read⟩
        if expected.epoch = read then some (r', some expected.item)
        else if (read + 1) % 2 ^ 32 = write then some (r'.drop expected, none)
        else hatringDequeue fuel (r'.drop expected)
      else hatringDequeue fuel r' := by
  obtain ⟨k, hk, hlast⟩ := h.slots
  have hslot : hatringDequeueIx r.epochs r.lastSlot = read % r.size := by
    rw [h.epochs, hlast, hatringDequeueIx_eq (by omega), hk]
  have hnext : (r.epochs + 1) % 2 ^ 64 = write * 2 ^ 32 + (read + 1) := by
    rw [h.epochs]
    omega
  rw [hatringDequeue, h.readEpoch (by omega), h.writeEpoch (by omega), if_neg (by omega)]
  dsimp only
  rw [hslot, hnext]

/-- A reader that does not lag takes the oldest item. -/
theorem take {y : Item} {ys : List Item} (h : InRing r read write (y :: ys))
    (hwrite : write + r.size < 2 ^ 32) (hclose : write ≤ read + r.size) (fuel : Nat) :
    ∃ r', hatringDequeue (fuel + 1) r = some (r', some y) ∧ InRing r' (read + 1) write ys ∧
      r'.size = r.size ∧ r'.dropHandler = r.dropHandler ∧ r'.dropped = r.dropped := by
  have hlen := h.length
  rw [List.length_cons] at hlen
  have hitem := h.item 0 y rfl
  have hbase : write - (y :: ys).length + 0 = read := by
    rw [List.length_cons]
    omega
  rw [hbase] at hitem
  refine ⟨{ r with epochs := write * 2 ^ 32 + (read + 1) }.setCell (read % r.size)
    ⟨null, false, true, read⟩, ?_, ?_, rfl, rfl, rfl⟩
  · rw [h.dequeue_turn hwrite (by omega)]
    dsimp only
    rw [hitem, if_pos le_rfl, if_pos rfl]
  refine ⟨rfl, h.slots, h.size_le, by omega, ?_, ?_, ?_, ?_, ?_⟩
  · show write ≤ read + 1 + r.size + 1
    omega
  · show _ = min (write - (read + 1)) r.size
    omega
  · intro i x hx
    have hi : i < ys.length := (List.getElem?_eq_some_iff.mp hx).1
    have hepoch : write - ys.length + i = write - (y :: ys).length + (i + 1) := by
      rw [List.length_cons]
      omega
    have hne : (write - ys.length + i) % r.size ≠ read % r.size :=
      (slot_ne (by omega) (by omega)).symm
    rw [hepoch] at hne ⊢
    exact (Function.update_of_ne hne _ _).trans (h.item (i + 1) x hx)
  · intro e hlow hhigh
    have hlow : write ≤ e + r.size := hlow
    show (Function.update r.cells _ _ (e % r.size)).enqueued = false
    rcases Nat.lt_or_ge e read with he | he
    · have hne : e % r.size ≠ read % r.size := slot_ne he (by omega)
      rw [Function.update_of_ne hne]
      exact h.free e hlow (by rw [List.length_cons]; omega)
    · obtain rfl : e = read := by omega
      rw [Function.update_self]
  · intro ix
    show (Function.update r.cells _ _ ix).epoch < write
    by_cases hix : ix = read % r.size
    · rw [hix, Function.update_self]
      show read < write
      omega
    · rw [Function.update_of_ne hix]
      exact h.old ix

/-- A lagging reader passes over an overwritten cell. -/
theorem catch_up (h : InRing r read write items) (hwrite : write + r.size < 2 ^ 32)
    (hlag : read + r.size < write) (fuel : Nat) :
    hatringDequeue (fuel + 1) r =
        hatringDequeue fuel { r with epochs := write * 2 ^ 32 + (read + 1) } ∧
      InRing { r with epochs := write * 2 ^ 32 + (read + 1) } (read + 1) write items := by
  have hclose := h.close
  have hlen := h.length
  have hsize := h.size_pos
  have hlast : r.size - 1 < items.length := by omega
  have hitem := h.item _ _ (List.getElem?_eq_getElem hlast)
  have hepoch : write - items.length + (r.size - 1) = read + r.size := by omega
  rw [hepoch, Nat.add_mod_right] at hitem
  refine ⟨?_, ⟨rfl, h.slots, h.size_le, by omega, ?_, ?_, h.item, h.free, h.old⟩⟩
  · rw [h.dequeue_turn hwrite (by omega)]
    dsimp only
    rw [hitem, if_neg (by dsimp only; omega)]
  · show write ≤ read + 1 + r.size + 1
    omega
  · show _ = min (write - (read + 1)) r.size
    omega

/-- A dequeue ends with the oldest item still in the ring. -/
theorem dequeue (h : InRing r read write items) (hwrite : write + r.size < 2 ^ 32)
    (fuel : Nat) :
    ∃ r' read', hatringDequeue (fuel + 2) r = some (r', items.head?) ∧
      InRing r' read' write items.tail ∧ r'.size = r.size ∧ r'.dropHandler = r.dropHandler ∧
      r'.dropped = r.dropped := by
  have hlen := h.length
  have hreadle := h.read_le
  have hsize := h.size_pos
  cases items with
  | nil =>
    rw [List.length_nil] at hlen
    refine ⟨r, read, ?_, h, rfl, rfl, rfl⟩
    rw [hatringDequeue, h.readEpoch (by omega), h.writeEpoch (by omega), if_pos (by omega)]
    rfl
  | cons y ys =>
    by_cases hlag : read + r.size < write
    · obtain ⟨hturn, h'⟩ := h.catch_up hwrite hlag (fuel + 1)
      have hclose := h.close
      obtain ⟨r', hexec, hholds, hsame⟩ := h'.take hwrite (by
        show write ≤ read + 1 + r.size
        omega) fuel
      exact ⟨r', read + 2, hturn.trans hexec, hholds, hsame⟩
    · obtain ⟨r', hexec, hholds, hsame⟩ := h.take hwrite (Nat.not_lt.mp hlag) (fuel + 1)
      exact ⟨r', read + 1, hexec, hholds, hsame⟩

end InRing

end

/-! ## Runs -/

/-- A new ring is empty. -/
theorem holds_hatringNew (n : Nat) (hn : 2 * (hatringNew n).size < 2 ^ 32) (handler : Bool) :
    InRing ((hatringNew n).setDropHandler handler) (hatringNew n).size (hatringNew n).size [] := by
  have hround : hatrackRoundUpToPowerOf2 n = 0 ∨ ∃ k, hatrackRoundUpToPowerOf2 n = 2 ^ k := by
    unfold hatrackRoundUpToPowerOf2
    split
    · rename_i hand
      rcases Nat.eq_zero_or_pos n with h0 | hpos
      · exact .inl h0
      · exact .inr ((Nat.and_sub_one_eq_zero_iff_isPowerOfTwo (by omega)).mp hand)
    · exact .inr ⟨_, rfl⟩
  have hsize : ∃ k, (hatringNew n).size = 2 ^ k := by
    unfold hatringNew
    dsimp only
    split
    · exact ⟨4, rfl⟩
    · rename_i hlarge
      rcases hround with h0 | hpow
      · rw [h0] at hlarge
        exact absurd (by decide) hlarge
      · exact hpow
  obtain ⟨k, hk⟩ := hsize
  have hpos : 0 < (hatringNew n).size := by
    rw [hk]
    exact Nat.two_pow_pos k
  refine ⟨?_, ⟨k, hk, ?_⟩, le_rfl, le_rfl, by omega, ?_, ?_, ?_, ?_⟩
  · have hepochs : (hatringNew n).epochs =
        (hatringNew n).size * 2 ^ 32 % 2 ^ 64 ||| (hatringNew n).size := rfl
    have hhigh : (hatringNew n).size * 2 ^ 32 % 2 ^ 64 = (hatringNew n).size * 2 ^ 32 := by omega
    show (hatringNew n).epochs = _
    rw [hepochs, hhigh, pack_or (by omega)]
  · show (hatringNew n).size - 1 = _
    rw [hk]
  · rw [Nat.sub_self, Nat.zero_min]
    rfl
  · exact fun _ _ hx => nomatch hx
  · exact fun _ _ _ => rfl
  · exact fun _ => hpos

section

variable {r : HatRing} {read write : Nat} {items : List Item}

def RingOp.isEnqueue : RingOp → Bool
  | enqueue _ => true
  | dequeue => false

/-- What the drop handler of a ring has been called with, when the items `ds` were dropped. -/
def droppedBy (handler : Bool) (ds : List Item) : List Item := if handler then ds else []

/-- One operation on the ring does what it does on the newest items. -/
theorem InRing.exec {q : NewestItems} (h : InRing r read write q.items) (hepoch : q.epoch = write)
    (hdropped : r.dropped = droppedBy r.dropHandler q.dropped)
    (op : RingOp) (hwrite : write + [op].countP RingOp.isEnqueue + r.size < 2 ^ 32) (fuel : Nat) :
    ∃ r' read', op.exec (fuel + 2) r = some (r', (q.exec r.size op).2) ∧
      InRing r' read' (q.exec r.size op).1.epoch (q.exec r.size op).1.items ∧
      r'.size = r.size ∧ r'.dropHandler = r.dropHandler ∧
      r'.dropped = droppedBy r.dropHandler (q.exec r.size op).1.dropped := by
  subst hepoch
  cases op with
  | enqueue x =>
    obtain ⟨r', read', hexec, hholds, hsize, hhandler, hdrop⟩ :=
      h.enqueue (by simpa [RingOp.isEnqueue, Nat.add_right_comm] using hwrite) x fuel
    refine ⟨r', read', ?_, hholds, hsize, hhandler, ?_⟩
    · rw [RingOp.exec, hexec]
      rfl
    · rw [hdrop, hdropped]
      unfold droppedBy
      split <;> rfl
  | dequeue =>
    obtain ⟨r', read', hexec, hholds, hsize, hhandler, hdrop⟩ := h.dequeue hwrite fuel
    refine ⟨r', read', ?_, hholds, hsize, hhandler, hdrop.trans hdropped⟩
    rw [RingOp.exec, hexec]
    rfl

/-- A run of operations on the ring does what it does on the newest items. -/
theorem InRing.run {q : NewestItems} (h : InRing r read write q.items) (hepoch : q.epoch = write)
    (hdropped : r.dropped = droppedBy r.dropHandler q.dropped) (ops : List RingOp)
    (hcount : write + ops.countP RingOp.isEnqueue + r.size < 2 ^ 32) (fuel : Nat) :
    ∃ r', runRing (fuel + 2) ops r = some (r', (q.run r.size ops).2) ∧
      r'.dropped = droppedBy r.dropHandler (q.run r.size ops).1.dropped := by
  induction ops generalizing r read write q with
  | nil => exact ⟨r, rfl, hdropped⟩
  | cons op ops ih =>
    have hsplit : (op :: ops).countP RingOp.isEnqueue =
        [op].countP RingOp.isEnqueue + ops.countP RingOp.isEnqueue := by
      rw [← List.countP_append]
      rfl
    obtain ⟨r₁, read₁, hexec, hholds, hsize, hhandler, hdrop⟩ :=
      h.exec hepoch hdropped op (by omega) fuel
    have hnext : (q.exec r.size op).1.epoch = write + [op].countP RingOp.isEnqueue := by
      subst hepoch
      cases op <;> rfl
    rw [← hhandler] at hdrop
    obtain ⟨r₂, hrun, hdrop₂⟩ := ih hholds rfl hdrop (by rw [hnext, hsize]; omega)
    rw [hsize] at hrun hdrop₂
    rw [hhandler] at hdrop₂
    refine ⟨r₂, ?_, hdrop₂⟩
    rw [runRing, hexec, Option.bind_eq_bind, Option.bind_some]
    dsimp only
    rw [hrun]
    rfl

end

/-- **The ring keeps the newest items in order.** Every run returns what the abstract ring returns,
and the drop handler is called for the items that it drops. -/
theorem run_newest (n : Nat) (handler : Bool) (ops : List RingOp)
    (hcount : ops.countP RingOp.isEnqueue < 2 ^ 32 - 2 * (hatringNew n).size) (fuel : Nat) :
    let spec := NewestItems.run (hatringNew n).size ops ⟨[], [], (hatringNew n).size⟩
    ∃ r, runRing (fuel + 2) ops ((hatringNew n).setDropHandler handler) = some (r, spec.2) ∧
      r.dropped = droppedBy handler spec.1.dropped := by
  have hholds := holds_hatringNew n (by omega) handler
  refine InRing.run (q := ⟨[], [], (hatringNew n).size⟩) hholds rfl ?_ ops ?_ fuel
  · unfold droppedBy
    split <;> rfl
  · show _ + _ + (hatringNew n).size < 2 ^ 32
    omega

theorem run_newest_eighteen :
    ∃ r, runRing 2 ((List.range 18).map .enqueue ++ [.dequeue])
        ((hatringNew 1).setDropHandler true) =
      some (r, (List.range 18).map (fun i => .enqueued (16 + i)) ++ [.dequeued (some 2)]) ∧
      r.dropped = [0, 1] :=
  run_newest 1 true ((List.range 18).map .enqueue ++ [.dequeue]) (by decide) 0

end N00b.Hatrack
