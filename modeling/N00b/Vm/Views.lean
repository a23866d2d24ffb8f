import N00b.Vm.Operands

/-!
# Items of a view

`ZLoadFromView` over memory made of bytes. The word on top says how big the items are; any size that
is not 1, 2, 4 or 8 stands for flags, 64 of them to a word, of which the one in question is found
with the count in `r1`.

## Representation

* Memory that is not mapped cannot be read.
* Words lie in memory with the low byte first.
-/

namespace N00b.Vm

structure Memory where
  mapped : Word → Bool
  byte : Word → BitVec 8

/-- `n` bytes as a word. -/
def readWord (byte : Word → BitVec 8) : Nat → Word → Word
  | 0, _ => 0
  | n + 1, p => readWord byte n (p + 1) <<< 8 ||| (byte p).setWidth 64

/-- A load of `n` bytes. -/
def Memory.load (m : Memory) (n : Nat) (p : Word) : Except Fault Word :=
  if (List.range n).all fun i => m.mapped (p + BitVec.ofNat 64 i) then .ok (readWord m.byte n p)
  else .error .undefined

/-- `ZLoadFromView`: what it leaves on the stack, from the top down. -/
def loadFromView (m : Memory) (kv : Bool) (count objLen p : Word) : Except Fault (List Word) :=
  -- An item of so many bytes.
  let item (n : Nat) : Except Fault (List Word) :=
    (m.load n p).map fun v => [v, objLen, p + BitVec.ofNat 64 n]
  if objLen = 1 then item 1
  else if objLen = 2 then item 2
  else if objLen = 4 then item 4
  else if objLen = 8 then
    if kv then do
      let key ← m.load 8 p
      let value ← m.load 8 (p + 8)
      return [value, key, objLen, p + 16]
    else item 8
  else do
    let bitIx := (count - 1).umod 64
    let val ← m.load 8 p
    -- `1 << bit_ix` is a shift of an `int`, and `*view_slot += 1` goes on by one byte.
    if bitIx.toNat < 31 then
      return [val &&& 1 <<< bitIx.toNat, objLen, if bitIx = 63 then p + 1 else p]
    else .error .undefined

/-- A runtime whose views lie in memory. -/
def Host.withViews {H : Type} (host : Host H) (mem : H → Memory) : Host H :=
  { host with
    call := fun op ws h =>
      match op, ws with
      | .view kv count, [objLen, p] =>
        (loadFromView (mem h) kv count objLen p).map fun r => (fun i => r.getD i 0, h)
      | op, ws => host.call op ws h }

/-! ## Views -/

/-- What the items of a view are: `2 ^ log` bytes, or flags. -/
inductive ItemKind where
  | bytes (log : Fin 4)
  | bits
  deriving DecidableEq, Repr

/-- The low bits of a pointer to the view. -/
def ItemKind.tag : ItemKind → Word
  | bytes log => BitVec.ofNat 64 log
  | bits => 7

def ItemKind.size : ItemKind → Word
  | bytes log => BitVec.ofNat 64 (2 ^ log.val)
  | bits => 128

theorem ItemKind.shl_tag (kind : ItemKind) : arithWord .shl 1 kind.tag = .ok kind.size := by
  cases kind with
  | bytes log => fin_cases log <;> rfl
  | bits => rfl

/-- How many bytes `n` items take. -/
def ItemKind.extent (kind : ItemKind) (n : Nat) : Nat :=
  match kind with
  | bytes log => 2 ^ log.val * n
  | bits => 8 * ((n + 63) / 64)

/-- The item number `k` of the view at `p`: a flag is `0` or `1`. -/
def ItemKind.item (kind : ItemKind) (byte : Word → BitVec 8) (p : Word) (k : Nat) : Word :=
  match kind with
  | bytes log => readWord byte (2 ^ log.val) (p + BitVec.ofNat 64 (2 ^ log.val * k))
  | bits => ofBool ((readWord byte 8 (p + BitVec.ofNat 64 (8 * (k / 64)))).getLsbD (k % 64))

/-- Where the view has gone to before turn `k`, among the first flags. -/
def ItemKind.place (kind : ItemKind) (p : Word) (k : Nat) : Word :=
  match kind with
  | bytes log => p + BitVec.ofNat 64 (2 ^ log.val * k)
  | bits => p

/-- What the machine loads for the item number `k`: a flag stays in its place. -/
def ItemKind.loaded (kind : ItemKind) (k : Nat) (item : Word) : Word :=
  match kind with
  | bytes _ => item
  | bits => item <<< k

/-- Memory with nothing but `len` bytes from `p` on. -/
def window (byte : Word → BitVec 8) (p : Word) (len : Nat) : Memory where
  mapped a := (a - p).toNat < len
  byte := byte

section

variable {byte : Word → BitVec 8} {p : Word} {len n : Nat}

theorem load_window {off : Nat} (h : off + n ≤ len) :
    (window byte p len).load n (p + BitVec.ofNat 64 off) =
      .ok (readWord byte n (p + BitVec.ofNat 64 off)) := by
  rw [Memory.load, if_pos]
  · rfl
  · simp only [List.all_eq_true, List.mem_range, window, decide_eq_true_eq]
    intro i hi
    have hsub : p + BitVec.ofNat 64 off + BitVec.ofNat 64 i - p = BitVec.ofNat 64 (off + i) := by
      rw [BitVec.ofNat_add]
      ring
    rw [hsub, BitVec.toNat_ofNat]
    exact lt_of_le_of_lt (Nat.mod_le _ _) (by omega)

variable {k : Nat}

theorem loadFromView_bytes {log : Fin 4} (hk : k < n) (count : Word) :
    loadFromView (window byte p ((ItemKind.bytes log).extent n)) false count
        (ItemKind.bytes log).size ((ItemKind.bytes log).place p k) =
      .ok [(ItemKind.bytes log).item byte p k, (ItemKind.bytes log).size,
        (ItemKind.bytes log).place p (k + 1)] := by
  have hfit : 2 ^ log.val * k + 2 ^ log.val ≤ (ItemKind.bytes log).extent n := by
    have := Nat.mul_le_mul_left (2 ^ log.val) hk
    exact this
  have hnext : p + BitVec.ofNat 64 (2 ^ log.val * k) + BitVec.ofNat 64 (2 ^ log.val) =
      p + BitVec.ofNat 64 (2 ^ log.val * (k + 1)) := by
    rw [BitVec.add_assoc, ← BitVec.ofNat_add, Nat.mul_succ]
  have hitem : ∀ (m : Memory) (q : Word),
      loadFromView m false count (BitVec.ofNat 64 (2 ^ log.val)) q =
        (m.load (2 ^ log.val) q).map fun v =>
          [v, BitVec.ofNat 64 (2 ^ log.val), q + BitVec.ofNat 64 (2 ^ log.val)] := by
    intro m q
    fin_cases log <;> rfl
  simp only [ItemKind.size, ItemKind.place, hitem, load_window hfit, ← hnext]
  rfl

theorem umod_count (hk : k < 64) :
    (BitVec.ofNat 64 k + 1 - 1).umod 64 = BitVec.ofNat 64 k := by
  have hsub : BitVec.ofNat 64 k + 1 - 1 = BitVec.ofNat 64 k := by ring
  rw [hsub]
  refine BitVec.eq_of_toNat_eq ?_
  show (BitVec.ofNat 64 k).toNat % 64 = _
  rw [BitVec.toNat_ofNat, Nat.mod_eq_of_lt (show k < 2 ^ 64 by omega)]
  exact Nat.mod_eq_of_lt hk

theorem load_bits (h : 0 < n) : (window byte p (ItemKind.bits.extent n)).load 8 p =
    .ok (readWord byte 8 p) := by
  have hfit : 0 + 8 ≤ ItemKind.bits.extent n := by
    show 0 + 8 ≤ 8 * ((n + 63) / 64)
    omega
  have hp : p + BitVec.ofNat 64 0 = p := BitVec.add_zero p
  have hload : (window byte p (ItemKind.bits.extent n)).load 8 (p + BitVec.ofNat 64 0) = _ :=
    load_window hfit
  rwa [hp] at hload

theorem item_bits (hk : k < 64) :
    ItemKind.bits.item byte p k = ofBool ((readWord byte 8 p).getLsbD k) := by
  have hp : p + BitVec.ofNat 64 0 = p := BitVec.add_zero p
  rw [ItemKind.item, Nat.div_eq_of_lt hk, Nat.mod_eq_of_lt hk, Nat.mul_zero, hp]

theorem and_mask (hk : k < 64) :
    readWord byte 8 p &&& 1 <<< k = ItemKind.bits.item byte p k <<< k := by
  rw [item_bits hk]
  generalize readWord byte 8 p = w
  have hmask : w &&& 1 <<< k = if w.getLsbD k then BitVec.twoPow 64 k else 0 :=
    BitVec.and_twoPow w k
  rw [hmask]
  cases w.getLsbD k with
  | false => simp [ofBool]
  | true => rfl

theorem loadFromView_bits (hk : k < n) (h31 : k < 31) :
    loadFromView (window byte p (ItemKind.bits.extent n)) false (BitVec.ofNat 64 k + 1) 128 p =
      .ok [ItemKind.bits.item byte p k <<< k, 128, p] := by
  have hix := umod_count (show k < 64 by omega)
  have hnat : (BitVec.ofNat 64 k).toNat = k := by
    rw [BitVec.toNat_ofNat, Nat.mod_eq_of_lt (by omega)]
  have hne : BitVec.ofNat 64 k ≠ 63 := by
    intro h
    have := congrArg BitVec.toNat h
    rw [hnat] at this
    have h63 : (63 : Word).toNat = 63 := rfl
    omega
  rw [← and_mask (show k < 64 by omega)]
  simp only [loadFromView, hix, load_bits (Nat.zero_lt_of_lt hk), hnat, if_pos h31, if_neg hne]
  rfl

theorem loadFromView_item (kind : ItemKind) (hk : k < n) (h31 : kind = .bits → k < 31) :
    loadFromView (window byte p (kind.extent n)) false (BitVec.ofNat 64 k + 1) kind.size
        (kind.place p k) =
      .ok [kind.loaded k (kind.item byte p k), kind.size, kind.place p (k + 1)] := by
  cases kind with
  | bytes log => exact loadFromView_bytes hk _
  | bits => exact loadFromView_bits hk (h31 rfl)

theorem loadFromView_undefined (h : 31 < n) :
    loadFromView (window byte p (ItemKind.bits.extent n)) false (BitVec.ofNat 64 31 + 1) 128 p =
      .error .undefined := by
  simp only [loadFromView, load_bits (Nat.zero_lt_of_lt h)]
  rfl

theorem loaded_eq_iff (kind : ItemKind) (h31 : kind = .bits → k < 31) :
    kind.loaded k (kind.item byte p k) = kind.item byte p k ↔
      (kind = .bits → k = 0 ∨ kind.item byte p k = 0) := by
  cases kind with
  | bytes log => exact ⟨fun _ h => (nomatch h), fun _ => rfl⟩
  | bits =>
    have hk := h31 rfl
    simp only [ItemKind.loaded, item_bits (show k < 64 by omega), true_imp_iff]
    cases (readWord byte 8 p).getLsbD k with
    | false => simp [ofBool]
    | true =>
      have hpow : (BitVec.twoPow 64 k).toNat = 2 ^ k := BitVec.toNat_twoPow_of_lt (by omega)
      constructor
      · intro h
        have hone : (BitVec.twoPow 64 k).toNat = 1 := congrArg BitVec.toNat h
        rw [hpow] at hone
        exact .inl ((Nat.pow_eq_one.mp hone).resolve_left (by decide))
      · rintro (rfl | h)
        · rfl
        · cases h

end

end N00b.Vm
