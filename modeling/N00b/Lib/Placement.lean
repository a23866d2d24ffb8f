import Mathlib

/-!
# Placement

Items of different sizes are laid out one after another, starting at 0, and each is looked up by its
key. The layout only grows at its end, so an item that was placed never moves.

## Rules

* `place_append`, `place_mono`: what appending does to the places.
* `exists_split`: the place of an item is the total size of the items before it.
* `total_le_of_subset`: different items of a list have together at most the size of the list.
-/

namespace N00b.Lib.Placement

variable {α κ : Type} [DecidableEq κ] (key : α → κ) (size : α → Nat)

/-- The size of a layout. -/
def total (items : List α) : Nat :=
  (items.map size).sum

/-- Where the first item with the key `k` starts. -/
def place : List α → κ → Option Nat
  | [], _ => none
  | a :: items, k => if key a = k then some 0 else (place items k).map (size a + ·)

variable {key size}

@[simp] theorem total_nil : total size [] = 0 := rfl

@[simp] theorem total_cons (a : α) (items : List α) :
    total size (a :: items) = size a + total size items := by
  simp [total]

@[simp] theorem total_append (l m : List α) :
    total size (l ++ m) = total size l + total size m := by
  simp [total]

variable {items : List α} {k : κ}

theorem place_eq_none :
    place key size items k = none ↔ ∀ a ∈ items, key a ≠ k := by
  induction items with
  | nil => simp [place]
  | cons a items ih =>
    by_cases h : key a = k
    · simp [place, h]
    · simp [place, h, ih]

theorem place_append (l m : List α) (k : κ) :
    place key size (l ++ m) k =
      (place key size l k).or ((place key size m k).map (total size l + ·)) := by
  induction l with
  | nil => cases h : place key size m k <;> simp [place, h]
  | cons a l ih =>
    by_cases h : key a = k
    · simp [place, h]
    · rw [List.cons_append, place, if_neg h, ih, place, if_neg h]
      cases place key size l k <;> cases place key size m k <;> simp [Nat.add_assoc]

variable {l : List α}

theorem place_mono {r : Nat} (h : place key size l k = some r) (m : List α) :
    place key size (l ++ m) k = some r := by
  rw [place_append, h, Option.some_or]

variable {a : α}

theorem place_concat (h : place key size l (key a) = none) :
    place key size (l ++ [a]) (key a) = some (total size l) := by
  rw [place_append, h]
  simp [place]

theorem place_concat_of_ne (h : key a ≠ k) :
    place key size (l ++ [a]) k = place key size l k := by
  rw [place_append, place, if_neg h]
  cases place key size l k <;> simp [place]

theorem exists_split {r : Nat} (h : place key size items k = some r) :
    ∃ pre a post, items = pre ++ a :: post ∧ key a = k ∧ (∀ b ∈ pre, key b ≠ k) ∧
      r = total size pre := by
  induction items generalizing r with
  | nil => simp [place] at h
  | cons a items ih =>
    by_cases hk : key a = k
    · rw [place, if_pos hk] at h
      exact ⟨[], a, items, rfl, hk, by simp, by simpa using h.symm⟩
    · rw [place, if_neg hk, Option.map_eq_some_iff] at h
      obtain ⟨r', hr', rfl⟩ := h
      obtain ⟨pre, b, post, rfl, hb, hpre, rfl⟩ := ih hr'
      refine ⟨a :: pre, b, post, rfl, hb, ?_, by simp⟩
      rintro c hc
      rcases List.mem_cons.mp hc with rfl | hc
      · exact hk
      · exact hpre c hc

theorem place_of_split {pre post : List α} (h : ∀ b ∈ pre, key b ≠ key a) :
    place key size (pre ++ a :: post) (key a) = some (total size pre) := by
  have hpre : place key size pre (key a) = none := place_eq_none.mpr h
  rw [place_append, hpre]
  simp [place]

theorem place_of_mem (h : a ∈ items) :
    ∃ r, place key size items (key a) = some r := by
  rw [← Option.ne_none_iff_exists', ne_eq, place_eq_none]
  exact fun hall => hall a h rfl

theorem total_le_of_subset {l m : List α} (hl : l.Nodup) (h : l ⊆ m) :
    total size l ≤ total size m := by
  obtain ⟨l', hperm, hsub⟩ := hl.subperm h
  calc total size l = (l'.map size).sum := ((hperm.map size).sum_eq).symm
    _ ≤ total size m := (hsub.map size).sum_le_sum (by simp)

end N00b.Lib.Placement
