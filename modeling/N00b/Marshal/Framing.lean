import Mathlib
import N00b.Marshal.Message
import N00b.Marshal.Unpickle

/-!
# Framing

A message is its records, each with its length in its header, and the end record. The receiving side
walks from header to header, cuts the message off behind the end record and what belongs to it, and
finds the end record again from the back.

## Main results

* `scanRecords_blocks`: the walk over the records ends at the end record.
* `checkUnpickleReadiness_message`: what is cut off, and what is left.
* `findEndRecord_message`: the end record of a message without patches is found.
-/

namespace N00b.Marshal

open Lib

variable {heap : Heap} {base : Word} {lay cur : List Alloc}

/-! ## Reading -/

theorem getD_append_add (front rest : List Word) (i : Nat) :
    (front ++ rest).getD (front.length + i) 0 = rest.getD i 0 := by
  simp [List.getD_eq_getElem?_getD, List.getElem?_append_right]

/-- A filled record starts with the guard and its length, and its end mark is not set. -/
theorem Filled.reads {a : Alloc} {block : List Word}
    (h : Filled heap base lay a a.data.length block) (front rest : List Word) :
    (front ++ (block ++ rest)).getD front.length 0 = marshalRecordGuard ∧
      (front ++ (block ++ rest)).getD (front.length + 3) 0 =
        lengthWord a.allocLen recordLine false a.ptrScan a.obj := by
  obtain ⟨type, words, -, -, rfl⟩ := h
  have h0 := getD_append_add front ((newHeader a type).words ++ words ++
    List.replicate (a.data.length - a.data.length) 0 ++ rest) 0
  exact ⟨h0, getD_append_add front _ 3⟩

/-- The end record starts with the guard and has its end mark set. -/
theorem endHeader_reads (n : Nat) (front rest : List Word) :
    (front ++ ((endHeader n).words ++ rest)).getD front.length 0 = marshalRecordGuard ∧
      (front ++ ((endHeader n).words ++ rest)).getD (front.length + 3) 0 =
        lengthWord (n * 16) recordLine true (n ≠ 0) false :=
  ⟨getD_append_add front _ 0, getD_append_add front _ 3⟩

/-! ## The walk -/

/-- The scan stops at the end record and looks whether the patches are there. -/
theorem scanRecords_end {n : Nat} (hn : n * 16 < 2 ^ 32) (front rest : List Word) (fuel : Nat) :
    scanRecords (front ++ ((endHeader n).words ++ rest)) (fuel + 1) front.length =
      .ok (front.length,
        if rest.length ≥ 2 * n then some (front.length + 6 + 2 * n) else none) := by
  obtain ⟨hguard, hlen⟩ := endHeader_reads n front rest
  have hroom : ¬ front.length + 6 > (front ++ ((endHeader n).words ++ rest)).length := by
    simp
  have h16 : n * 16 / 8 = 2 * n := by omega
  rw [scanRecords, if_neg hroom, if_neg (not_not.mpr hguard)]
  simp only [hlen, marshalEndOf_lengthWord, allocLenOf_lengthWord hn, if_true, h16]
  congr 2
  simp only [List.length_append, RecordHdr.length_words, ge_iff_le]
  by_cases hrest : 2 * n ≤ rest.length
  · rw [if_pos hrest, if_pos (by omega)]
  · rw [if_neg hrest, if_neg (by omega)]

variable {blocks : List (List Word)}

/-- The scan passes over the records of a message to its end record. -/
theorem scanRecords_blocks {n : Nat} (hn : n * 16 < 2 ^ 32)
    (h : List.Forall₂ (fun a block => Filled heap base lay a a.data.length block) cur blocks) :
    ∀ (front rest : List Word) (fuel : Nat), blocks.length < fuel →
      scanRecords (front ++ (blocks.flatten ++ ((endHeader n).words ++ rest))) fuel front.length =
        .ok (front.length + blocks.flatten.length,
          if rest.length ≥ 2 * n
          then some (front.length + blocks.flatten.length + 6 + 2 * n) else none) := by
  induction h with
  | nil =>
    rintro front rest fuel hfuel
    obtain ⟨k, rfl⟩ : ∃ k, fuel = k + 1 := ⟨fuel - 1, by omega⟩
    exact scanRecords_end hn front rest k
  | @cons a block cur blocks hfilled _ ih =>
    rintro front rest fuel hfuel
    obtain ⟨k, rfl⟩ : ∃ k, fuel = k + 1 := ⟨fuel - 1, by omega⟩
    rw [List.flatten_cons, List.append_assoc]
    obtain ⟨hguard, hlen⟩ := hfilled.reads front
      (blocks.flatten ++ ((endHeader n).words ++ rest))
    have hsize := hfilled.length
    have hlt := a.allocLen_lt
    have hmin := a.headerLen_le
    have h8 : a.allocLen / 8 = block.length := by omega
    have hroom : ¬ front.length + 6 >
        (front ++ (block ++ (blocks.flatten ++ ((endHeader n).words ++ rest)))).length := by
      simp only [List.length_append, RecordHdr.length_words]
      omega
    have hnext := ih (front ++ block) rest k (by simp only [List.length_cons] at hfuel; omega)
    rw [List.append_assoc, List.length_append] at hnext
    rw [scanRecords, if_neg hroom, if_neg (not_not.mpr hguard)]
    simp only [hlen, marshalEndOf_lengthWord, allocLenOf_lengthWord (show a.allocLen < 2 ^ 32 by omega),
      h8, Bool.false_eq_true, if_false, List.length_append]
    rw [hnext, Nat.add_assoc]

/-- Every record has at least one word. -/
theorem blocks_length_le
    (h : List.Forall₂ (fun a block => Filled heap base lay a a.data.length block) cur blocks) :
    blocks.length ≤ blocks.flatten.length := by
  induction h with
  | nil => simp
  | @cons a block _ _ hfilled _ ih =>
    have hsize := hfilled.length
    have hmin := a.headerLen_le
    simp only [headerLen, List.flatten_cons, List.length_cons, List.length_append] at hmin ⊢
    omega

/-! ## Cutting a message off -/

/-- The words of a message from its first record on, `rest` being the patches and what follows. -/
def messageWords (blocks : List (List Word)) (n : Nat) (rest : List Word) : List Word :=
  blocks.flatten ++ ((endHeader n).words ++ rest)

/-- What is left in the buffer once the first `k` words of `rest` are taken. -/
def leftOver (rest : List Word) (k : Nat) : Option (List Word) :=
  if rest.length = k then none else some (rest.drop k)

theorem take_add_length (front rest : List Word) (k : Nat) :
    (front ++ rest).take (front.length + k) = front ++ rest.take k := by
  simp [List.take_append]

theorem drop_add_length (front rest : List Word) (k : Nat) :
    (front ++ rest).drop (front.length + k) = rest.drop k := by
  simp [List.drop_append]

/-- A whole message is ready to be read. -/
theorem checkUnpickleReadiness_message {n : Nat} (hn : n * 16 < 2 ^ 32)
    (h : List.Forall₂ (fun a block => Filled heap base lay a a.data.length block) cur blocks)
    {rest : List Word} (hrest : 2 * n ≤ rest.length) (ctx : UnpickleCtx)
    (hdata : ctx.partialData = some (messageWords blocks n rest)) (hcursor : ctx.partCursor = 0) :
    checkUnpickleReadiness ctx = .ok (some (messageWords blocks n (rest.take (2 * n))),
      { ctx with partialData := leftOver rest (2 * n), partCursor := 0 }) := by
  have hlen : (messageWords blocks n rest).length = blocks.flatten.length + 6 + rest.length := by
    simp only [messageWords, List.length_append, RecordHdr.length_words]
    omega
  have hfuel : blocks.length < (messageWords blocks n rest).length + 1 := by
    have := blocks_length_le h
    omega
  have hscan := scanRecords_blocks hn h [] rest _ hfuel
  simp only [List.nil_append, List.length_nil, Nat.zero_add, if_pos hrest] at hscan
  have hfront : messageWords blocks n rest = blocks.flatten ++ (endHeader n).words ++ rest :=
    (List.append_assoc ..).symm
  have hstop : blocks.flatten.length + 6 + 2 * n =
      (blocks.flatten ++ (endHeader n).words).length + 2 * n := by
    rw [List.length_append, RecordHdr.length_words]
  have htake : (messageWords blocks n rest).take (blocks.flatten.length + 6 + 2 * n) =
      messageWords blocks n (rest.take (2 * n)) := by
    rw [hfront, hstop, take_add_length, messageWords, List.append_assoc]
  have hdrop : (messageWords blocks n rest).drop (blocks.flatten.length + 6 + 2 * n) =
      rest.drop (2 * n) := by
    rw [hfront, hstop, drop_add_length]
  rw [messageWords] at hdata
  simp only [checkUnpickleReadiness, hdata, hcursor]
  rw [messageWords] at hlen htake hdrop
  rw [messageWords] at hscan
  rw [hscan]
  show Except.ok _ = _
  simp only [sliceOnePickle, hlen, leftOver]
  by_cases hall : rest.length = 2 * n
  · rw [if_pos (by omega), if_pos hall, messageWords, ← hall, List.take_length]
  · rw [if_neg (by omega), if_neg hall, htake, hdrop]

/-- The end record is found behind the records. -/
theorem findEndRecord_message (front : List Word) (n : Nat) :
    findEndRecord (front ++ (endHeader n).words) = some front.length := by
  have hp : 8 * (front ++ (endHeader n).words).length - headerLen = 8 * front.length := by
    simp only [List.length_append, RecordHdr.length_words, headerLen]
    omega
  have hload : loadBytes (front ++ (endHeader n).words) (8 * front.length) =
      marshalRecordGuard := by
    rw [loadBytes, if_pos (by omega), Nat.mul_div_cancel_left _ (by decide)]
    exact getD_append_add front _ 0
  have hscan : scanBack (front ++ (endHeader n).words) (8 * front.length) =
      some (8 * front.length) := by
    cases hk : 8 * front.length with
    | zero | succ k => rw [scanBack, if_pos (hk ▸ hload)]
  rw [findEndRecord, hp, hscan, Option.bind_some, if_pos (by omega),
    Nat.mul_div_cancel_left _ (by decide)]

end N00b.Marshal
