import Mathlib

/-!
# Blocks of memory

What lies behind a pointer from an allocator is a list of cells. A load or a store outside of the
block has no result, and neither has anything that goes on from it, so that a result is a proof that
every access was inside.

## Main results

- `loop_spec`: the invariant rule for a loop of a given number of passes.
- `fill_spec`: a loop that stores cells one by one.
- `copy_of_le`: what a copy of a range does.
-/

namespace N00b.Block

variable {α σ : Type}

/-- The cell at an index. -/
def load (b : List α) (i : ℤ) : Option α := if 0 ≤ i then b[i.toNat]? else none

def store (b : List α) (i : ℤ) (a : α) : Option (List α) :=
  if 0 ≤ i ∧ i < b.length then some (b.set i.toNat a) else none

/-- The block with these cells from `d` on. -/
def splice (b : List α) (d : ℕ) (cells : List α) : List α :=
  b.take d ++ cells ++ b.drop (d + cells.length)

/-- `memmove`: `n` cells from `s` on of one block come to another one, or the same, from `d` on. -/
def copy (dst : List α) (d : ℤ) (src : List α) (s n : ℤ) : Option (List α) :=
  if n = 0 then some dst
  else if 0 ≤ d ∧ 0 ≤ s ∧ 0 < n ∧ d + n ≤ dst.length ∧ s + n ≤ src.length then
    some (splice dst d.toNat ((src.drop s.toNat).take n.toNat))
  else none

/-- `memcpy` in one block, which is not defined for ranges that overlap. -/
def copyApart (b : List α) (d s n : ℤ) : Option (List α) :=
  if n = 0 ∨ d + n ≤ s ∨ s + n ≤ d then copy b d b s n else none

/-- The passes `0` to `n - 1` of a loop. -/
def loop (body : ℕ → σ → Option σ) : ℕ → σ → Option σ
  | 0, s => some s
  | n + 1, s => (loop body n s).bind (body n)

/-- The loop that stores `n` cells one by one, from `d` on. -/
def fill (src : ℕ → Option α) (d : ℤ) (n : ℕ) (dst : List α) : Option (List α) :=
  loop (fun i dst => (src i).bind (store dst (d + i))) n dst

/-! ## Loads and stores -/

variable {b : List α}

theorem load_of_lt {i : ℤ} (h₀ : 0 ≤ i) (h : i < b.length) :
    ∃ a, load b i = some a ∧ a ∈ b := by
  have hlt : i.toNat < b.length := by omega
  exact ⟨b[i.toNat], by simp [load, h₀, hlt], List.getElem_mem hlt⟩

theorem load_ofNat (b : List α) (i : ℕ) : load b i = b[i]? := by
  simp [load]

theorem store_of_lt {i : ℤ} (h₀ : 0 ≤ i) (h : i < b.length) (a : α) :
    store b i a = some (b.set i.toNat a) :=
  if_pos ⟨h₀, h⟩

@[simp] theorem length_splice {d : ℕ} {cells : List α}
    (h : d + cells.length ≤ b.length) : (splice b d cells).length = b.length := by
  simp only [splice, List.length_append, List.length_take, List.length_drop]
  omega

theorem take_splice (b cells : List α) {d : ℕ} (h : d ≤ b.length) :
    (splice b d cells).take (d + cells.length) = b.take d ++ cells := by
  have hlen : (b.take d ++ cells).length = d + cells.length := by
    rw [List.length_append, List.length_take, Nat.min_eq_left h]
  rw [splice, ← hlen, List.take_left]

theorem take_splice_splice {b v w : List α} {d : ℕ} (h : d + v.length ≤ b.length) :
    (splice (splice b d v) (d + v.length) w).take (d + v.length + w.length) = b.take d ++ v ++ w := by
  rw [take_splice _ _ (by rw [length_splice h]; exact h), take_splice _ _ (by omega)]

theorem drop_splice {d e : ℕ} {cells : List α} (h : d + cells.length ≤ b.length)
    (he : d + cells.length ≤ e) : (splice b d cells).drop e = b.drop e := by
  have hlen : (b.take d ++ cells).length = d + cells.length := by
    rw [List.length_append, List.length_take, Nat.min_eq_left (by omega)]
  obtain ⟨k, rfl⟩ := Nat.exists_eq_add_of_le he
  rw [splice, ← hlen, ← List.drop_drop, List.drop_left, hlen, List.drop_drop]

/-! ## Loops -/

variable {body : ℕ → σ → Option σ}

/-- **The invariant rule** for a loop, whose passes have results as long as the invariant holds. -/
theorem loop_spec {n : ℕ} {s : σ} (P : ℕ → σ → Prop) (h₀ : P 0 s)
    (hstep : ∀ i < n, ∀ s, P i s → ∃ s', body i s = some s' ∧ P (i + 1) s') :
    ∃ s', loop body n s = some s' ∧ P n s' := by
  induction n with
  | zero => exact ⟨s, rfl, h₀⟩
  | succ n ih =>
    obtain ⟨s₁, hs₁, hP₁⟩ := ih fun i hi => hstep i (Nat.lt_succ_of_lt hi)
    obtain ⟨s₂, hs₂, hP₂⟩ := hstep n (Nat.lt_succ_self n) s₁ hP₁
    exact ⟨s₂, by rw [loop, hs₁, Option.bind_some, hs₂], hP₂⟩

/-- **The invariant rule** for the passes of a loop that has a result. -/
theorem loop_partial {n : ℕ} {s s' : σ} (P : ℕ → σ → Prop) (h₀ : P 0 s)
    (hstep : ∀ i < n, ∀ t t', P i t → body i t = some t' → P (i + 1) t')
    (h : loop body n s = some s') : P n s' := by
  induction n generalizing s' with
  | zero =>
    cases h
    exact h₀
  | succ n ih =>
    obtain ⟨t, ht, hbody⟩ := Option.bind_eq_some_iff.mp h
    have hP := ih (fun i hi => hstep i (Nat.lt_succ_of_lt hi)) ht
    exact hstep n (Nat.lt_succ_self n) t s' hP hbody

theorem loop_pass {n i : ℕ} {s s' : σ} (hi : i < n)
    (h : loop body n s = some s') : ∃ t t', loop body i s = some t ∧ body i t = some t' := by
  induction n generalizing s' with
  | zero => exact absurd hi (Nat.not_lt_zero i)
  | succ n ih =>
    obtain ⟨t, ht, hbody⟩ := Option.bind_eq_some_iff.mp h
    rcases Nat.lt_succ_iff_lt_or_eq.mp hi with hlt | rfl
    · exact ih hlt ht
    · exact ⟨t, s', ht, hbody⟩

/-- **Filling cells one by one.** -/
theorem fill_spec {src : ℕ → Option α} {dst : List α} {d n : ℕ} (cells : List α)
    (hn : cells.length = n) (hd : d + n ≤ dst.length)
    (hsrc : ∀ i (hi : i < cells.length), src i = some cells[i]) :
    fill src d n dst = some (splice dst d cells) := by
  subst hn
  obtain ⟨r, hr, rfl⟩ : ∃ r, fill src d cells.length dst = some r ∧
      r = splice dst d (cells.take cells.length) := by
    refine loop_spec (fun i r => r = splice dst d (cells.take i)) (by simp [splice]) ?_
    rintro i hi r rfl
    refine ⟨(splice dst d (cells.take i)).set (d + i) cells[i], ?_, ?_⟩
    · have hlen : (splice dst d (cells.take i)).length = dst.length := by
        refine length_splice ?_
        rw [List.length_take]
        omega
      rw [hsrc i hi, Option.bind_some, store_of_lt (by omega) (by rw [hlen]; omega)]
      rfl
    · -- the cell after those that are filled
      have hdrop : dst.drop (d + i) = dst[d + i] :: dst.drop (d + i + 1) :=
        List.drop_eq_getElem_cons (by omega)
      rw [List.take_succ_eq_append_getElem hi, splice, splice, List.set_append_right _ _ (by
        simp only [List.length_append, List.length_take]; omega)]
      simp only [List.length_append, List.length_take, List.length_cons, List.length_nil,
        Nat.min_eq_left (show i ≤ cells.length by omega),
        Nat.min_eq_left (show d ≤ dst.length by omega), Nat.sub_self, hdrop, List.set_cons_zero,
        List.append_assoc, List.cons_append, List.nil_append, Nat.add_assoc]
  rw [hr, List.take_length]

theorem fill_of_le (src : ℕ → Option α) (d : ℤ) (n : ℕ) (dst : List α) (h₀ : 0 ≤ d)
    (hd : d + n ≤ dst.length) (hsrc : ∀ i < n, ∃ a, src i = some a) :
    ∃ r, fill src d n dst = some r ∧ r.length = dst.length := by
  refine loop_spec (fun _ (r : List α) => r.length = dst.length) rfl fun i hi r hr => ?_
  obtain ⟨a, ha⟩ := hsrc i hi
  have hstore := store_of_lt (b := r) (i := d + i) (by omega) (by omega) a
  exact ⟨_, by rw [ha, Option.bind_some, hstore], by rw [List.length_set, hr]⟩

theorem fill_load (dst src : List α) (d n : ℕ) (hd : d + n ≤ dst.length) (hs : n ≤ src.length) :
    fill (fun i => load src i) d n dst = some (splice dst d (src.take n)) := by
  refine fill_spec (src.take n) (by rw [List.length_take]; omega) hd fun i hi => ?_
  rw [List.length_take] at hi
  rw [load_ofNat, List.getElem_take, List.getElem?_eq_getElem (by omega)]

/-! ## Ranges -/

/-- **What a copy of a range does**, when the range is inside of both blocks. -/
theorem copy_of_le (dst src : List α) (d s n : ℕ) (hd : d + n ≤ dst.length)
    (hs : s + n ≤ src.length) :
    copy dst d src s n = some (splice dst d ((src.drop s).take n)) := by
  rw [copy]
  split
  · rename_i hzero
    obtain rfl : n = 0 := by omega
    simp [splice]
  · rw [if_pos (by omega)]
    simp

theorem length_copy {dst src r : List α} {d s n : ℤ} (h : copy dst d src s n = some r) :
    r.length = dst.length := by
  rw [copy] at h
  split at h
  · rw [Option.some.inj h]
  · split at h
    · rename_i hin
      rw [← Option.some.inj h, length_splice]
      simp only [List.length_take, List.length_drop]
      omega
    · cases h

end N00b.Block
