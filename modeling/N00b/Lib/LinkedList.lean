import Mathlib

/-!
# Intrusive doubly linked lists

The links of a doubly linked list, kept outside of the list as two functions. A list is what comes
out when the links are followed, and an element is put in front or taken out by changing the links of
its neighbours only.

## Rules

* `Links.IsList.congr`: a list depends on the links of its elements only.
* `Links.IsList.push`: an element comes in front.
* `Links.IsList.unlink`: an element is taken out.
-/

namespace N00b.Lib

structure Links (α : Type) where
  next : α → Option α
  prev : α → Option α

namespace Links

variable {α : Type}

/-- The links from `head` on are the list, and the element before `head` is `before`. -/
def IsList (lk : Links α) : Option α → Option α → List α → Prop
  | _, head, [] => head = none
  | before, head, x :: xs =>
    head = some x ∧ lk.prev x = before ∧ lk.IsList (some x) (lk.next x) xs

variable {lk lk' : Links α} {before head : Option α} {x : α} {xs l r : List α}

theorem IsList.congr (h : lk.IsList before head xs)
    (hlk : ∀ y ∈ xs, lk'.next y = lk.next y ∧ lk'.prev y = lk.prev y) :
    lk'.IsList before head xs := by
  induction xs generalizing before head with
  | nil => exact h
  | cons y ys ih =>
    obtain ⟨hhead, hprev, hrest⟩ := h
    obtain ⟨hnext', hprev'⟩ := hlk y List.mem_cons_self
    refine ⟨hhead, hprev'.trans hprev, ?_⟩
    rw [hnext']
    exact ih hrest fun z hz => hlk z (List.mem_cons_of_mem y hz)

theorem IsList.head_eq (h : lk.IsList before head xs) : head = xs.head? := by
  cases xs with
  | nil => exact h
  | cons y ys => exact h.1

theorem IsList.neighbours (h : lk.IsList before head (l ++ x :: r)) :
    lk.next x = r.head? ∧ lk.prev x = (l.getLast?.or before) := by
  induction l generalizing before head with
  | nil =>
    obtain ⟨-, hprev, hrest⟩ := h
    exact ⟨hrest.head_eq, hprev⟩
  | cons y ys ih =>
    obtain ⟨-, -, hrest⟩ := h
    obtain ⟨hnext, hprev⟩ := ih hrest
    refine ⟨hnext, ?_⟩
    rw [hprev]
    cases ys with
    | nil => rfl
    | cons z zs =>
      rw [List.getLast?_cons_cons, List.getLast?_eq_some_getLast (List.cons_ne_nil z zs)]
      rfl

theorem IsList.neighbours_mem (h : lk.IsList none head xs) (hnodup : xs.Nodup) (hx : x ∈ xs) :
    (∀ y, lk.prev x = some y → y ∈ xs) ∧ (∀ y, lk.next x = some y → y ∈ xs) ∧
      lk.next x ≠ some x := by
  obtain ⟨l, r, rfl⟩ := List.append_of_mem hx
  obtain ⟨hnext, hprev⟩ := h.neighbours
  rw [Option.or_none] at hprev
  refine ⟨fun y hy => ?_, fun y hy => ?_, fun hself => ?_⟩
  · rw [hprev] at hy
    exact List.mem_append_left _ (List.mem_of_getLast? hy)
  · rw [hnext] at hy
    exact List.mem_append_right _ (List.mem_cons_of_mem x (List.mem_of_mem_head? hy))
  · rw [hnext] at hself
    have hnodup_r := (List.nodup_append.mp hnodup).2.1
    exact (List.nodup_cons.mp hnodup_r).1 (List.mem_of_mem_head? hself)

theorem IsList.prev_ne_next (h : lk.IsList none head xs) (hnodup : xs.Nodup) (hx : x ∈ xs) :
    lk.prev x ≠ lk.next x ∨ (lk.prev x = none ∧ lk.next x = none) := by
  obtain ⟨l, r, rfl⟩ := List.append_of_mem hx
  obtain ⟨hnext, hprev⟩ := h.neighbours
  rw [Option.or_none] at hprev
  cases hlast : l.getLast? with
  | none =>
    rw [hlast] at hprev
    cases hhead : r.head? with
    | none => exact .inr ⟨hprev, hnext.trans hhead⟩
    | some y =>
      left
      rw [hprev, hnext, hhead]
      exact fun hne => by cases hne
  | some y =>
    left
    rw [hprev, hnext, hlast]
    intro heq
    have hl := List.mem_of_getLast? hlast
    have hr := List.mem_of_mem_head? heq.symm
    exact (List.nodup_append.mp hnodup).2.2 y hl y (List.mem_cons_of_mem x hr) rfl

variable [DecidableEq α]

/-- A store to the `next` link of an element. -/
def setNext (lk : Links α) (x : α) (v : Option α) : Links α :=
  { lk with next := Function.update lk.next x v }

/-- A store to the `prev` link of an element. -/
def setPrev (lk : Links α) (x : α) (v : Option α) : Links α :=
  { lk with prev := Function.update lk.prev x v }

/-- A store to the `next` link behind a pointer that may be null. -/
def setNextOf (lk : Links α) : Option α → Option α → Links α
  | none, _ => lk
  | some x, v => lk.setNext x v

/-- A store to the `prev` link behind a pointer that may be null. -/
def setPrevOf (lk : Links α) : Option α → Option α → Links α
  | none, _ => lk
  | some x, v => lk.setPrev x v

theorem next_setNextOf (o v : Option α) (y : α) :
    (lk.setNextOf o v).next y = if o = some y then v else lk.next y := by
  cases o with
  | none => simp [setNextOf]
  | some x =>
    by_cases h : y = x
    · subst h
      simp [setNextOf, setNext]
    · simp [setNextOf, setNext, h, Ne.symm h]

theorem prev_setPrevOf (o v : Option α) (y : α) :
    (lk.setPrevOf o v).prev y = if o = some y then v else lk.prev y := by
  cases o with
  | none => simp [setPrevOf]
  | some x =>
    by_cases h : y = x
    · subst h
      simp [setPrevOf, setPrev]
    · simp [setPrevOf, setPrev, h, Ne.symm h]

@[simp] theorem prev_setNextOf (o v : Option α) : (lk.setNextOf o v).prev = lk.prev := by
  cases o with
  | none => rfl
  | some x => rfl

@[simp] theorem next_setPrevOf (o v : Option α) : (lk.setPrevOf o v).next = lk.next := by
  cases o with
  | none => rfl
  | some x => rfl

/-- **An element comes in front.** -/
theorem IsList.push (h : lk.IsList none head xs) (hx : x ∉ xs) (hprev : lk.prev x = none)
    (hnodup : xs.Nodup) :
    ((lk.setPrevOf head (some x)).setNext x head).IsList none (some x) (x :: xs) := by
  refine ⟨rfl, ?_, ?_⟩
  · show (lk.setPrevOf head (some x)).prev x = none
    rw [prev_setPrevOf, if_neg, hprev]
    rintro rfl
    cases xs with
    | nil => cases h
    | cons y ys =>
      obtain rfl := Option.some.inj h.1
      exact hx List.mem_cons_self
  · have hnext : ((lk.setPrevOf head (some x)).setNext x head).next x = head :=
      Function.update_self ..
    rw [hnext]
    cases xs with
    | nil => exact h
    | cons y ys =>
      obtain ⟨rfl, -, hrest⟩ := h
      have hne : ∀ z ∈ y :: ys, z ≠ x := fun z hz hzx => hx (hzx ▸ hz)
      have hkeep : ∀ z ∈ y :: ys,
          ((lk.setPrevOf (some y) (some x)).setNext x (some y)).next z = lk.next z := by
        intro z hz
        exact (Function.update_of_ne (hne z hz) ..).trans (by rw [next_setPrevOf])
      refine ⟨rfl, ?_, ?_⟩
      · show (lk.setPrevOf (some y) (some x)).prev y = some x
        rw [prev_setPrevOf, if_pos rfl]
      · rw [hkeep y List.mem_cons_self]
        refine hrest.congr fun z hz => ⟨hkeep z (List.mem_cons_of_mem y hz), ?_⟩
        show (lk.setPrevOf (some y) (some x)).prev z = lk.prev z
        rw [prev_setPrevOf, if_neg]
        intro hyz
        obtain rfl := Option.some.inj hyz
        exact (List.nodup_cons.mp hnodup).1 hz

theorem IsList.remove (h : lk.IsList before head (l ++ x :: r)) (hnodup : (l ++ x :: r).Nodup)
    (hbefore : ∀ y ∈ l ++ r, before ≠ some y)
    (hnext : ∀ y ∈ l ++ r, lk'.next y = if lk.prev x = some y then lk.next x else lk.next y)
    (hprev : ∀ y ∈ l ++ r, lk'.prev y = if lk.next x = some y then lk.prev x else lk.prev y) :
    lk'.IsList before (if head = some x then lk.next x else head) (l ++ r) := by
  obtain ⟨hnext_x, hprev_x⟩ := h.neighbours
  induction l generalizing before head with
  | nil =>
    obtain ⟨rfl, hprev_before, hrest⟩ := h
    rw [if_pos rfl]
    cases r with
    | nil => exact hrest
    | cons y ys =>
      obtain ⟨hhead, -, htail⟩ := hrest
      have hnodup_r := (List.nodup_cons.mp hnodup).2
      refine ⟨hhead, ?_, ?_⟩
      · rw [hprev y List.mem_cons_self, if_pos hhead, hprev_before]
      · have hkeep : ∀ z ∈ y :: ys, lk'.next z = lk.next z := by
          intro z hz
          rw [hnext z hz, if_neg]
          rw [hprev_before]
          exact hbefore z hz
        rw [hkeep y List.mem_cons_self]
        refine htail.congr fun z hz => ⟨hkeep z (List.mem_cons_of_mem y hz), ?_⟩
        rw [hprev z (List.mem_cons_of_mem y hz), if_neg]
        intro hxz
        obtain rfl := Option.some.inj (hhead.symm.trans hxz)
        exact (List.nodup_cons.mp hnodup_r).1 hz
  | cons a l ih =>
    obtain ⟨rfl, hprev_a, hrest⟩ := h
    obtain ⟨ha, hnodup'⟩ := List.nodup_cons.mp hnodup
    have hax : a ≠ x := by
      rintro rfl
      exact ha (by simp)
    have ha_next : lk.next x ≠ some a := by
      rw [hnext_x]
      intro hhead
      exact ha (by simp [List.mem_of_mem_head? hhead])
    rw [if_neg (by simpa using hax)]
    refine ⟨rfl, ?_, ?_⟩
    · rw [hprev a List.mem_cons_self, if_neg ha_next, hprev_a]
    · have hiff : lk.prev x = some a ↔ lk.next a = some x := by
        cases l with
        | nil =>
          obtain ⟨hhead, hprev_x', -⟩ := hrest
          exact ⟨fun _ => hhead, fun _ => hprev_x'⟩
        | cons c l =>
          obtain ⟨hhead, -, -⟩ := hrest
          constructor
          · intro hlast
            rw [hprev_x] at hlast
            have hmem : a ∈ c :: l := by
              rw [List.getLast?_cons_cons] at hlast
              rcases hgl : (c :: l).getLast? with _ | z
              · simp at hgl
              · rw [hgl] at hlast
                obtain rfl := Option.some.inj hlast
                exact List.mem_of_getLast? hgl
            exact absurd (List.mem_append_left _ hmem) ha
          · intro hnext_a
            rw [hhead] at hnext_a
            obtain rfl := Option.some.inj hnext_a
            exact absurd (by simp) (List.nodup_cons.mp hnodup').1
      have hstart : lk'.next a = if lk.next a = some x then lk.next x else lk.next a := by
        rw [hnext a List.mem_cons_self]
        by_cases hcase : lk.prev x = some a
        · rw [if_pos hcase, if_pos (hiff.mp hcase)]
        · rw [if_neg hcase, if_neg (mt hiff.mpr hcase)]
      rw [hstart]
      refine ih hrest hnodup' ?_ (fun y hy => hnext y (List.mem_cons_of_mem a hy))
        (fun y hy => hprev y (List.mem_cons_of_mem a hy)) hrest.neighbours.2
      rintro y hy hay
      obtain rfl := Option.some.inj hay
      exact ha (by
        rcases List.mem_append.mp hy with hy | hy
        · exact List.mem_append_left _ hy
        · exact List.mem_append_right _ (List.mem_cons_of_mem x hy))

/-- The stores that take an element out, after its neighbours were read. -/
def unlink (lk : Links α) (x : α) (prev next : Option α) : Links α :=
  let lk := if prev = next then lk else (lk.setNextOf prev next).setPrevOf next prev
  (lk.setPrev x none).setNext x none

/-- **An element is taken out.** -/
theorem IsList.unlink (h : lk.IsList none head xs) (hnodup : xs.Nodup) (hx : x ∈ xs) :
    (lk.unlink x (lk.prev x) (lk.next x)).IsList none (if head = some x then lk.next x else head)
      (xs.erase x) := by
  have hne := h.prev_ne_next hnodup hx
  obtain ⟨l, r, rfl⟩ := List.append_of_mem hx
  have hnotin : x ∉ l ++ r := by
    have hperm : (l ++ x :: r).Perm (x :: (l ++ r)) := List.perm_middle
    exact (List.nodup_cons.mp (hperm.nodup_iff.mp hnodup)).1
  have herase : (l ++ x :: r).erase x = l ++ r := by
    rw [List.erase_append_right _ fun hmem => hnotin (List.mem_append_left _ hmem),
      List.erase_cons_head]
  rw [herase]
  have hvalues : ∀ y ∈ l ++ r,
      (lk.unlink x (lk.prev x) (lk.next x)).next y =
          (if lk.prev x = some y then lk.next x else lk.next y) ∧
        (lk.unlink x (lk.prev x) (lk.next x)).prev y =
          (if lk.next x = some y then lk.prev x else lk.prev y) := by
    intro y hy
    have hyx : y ≠ x := fun heq => hnotin (heq ▸ hy)
    unfold Links.unlink
    simp only [setNext, setPrev, Function.update_of_ne hyx]
    rcases hne with hne | ⟨hprev, hnext⟩
    · rw [if_neg hne]
      constructor
      · rw [next_setPrevOf, next_setNextOf]
      · rw [prev_setPrevOf, prev_setNextOf]
    · rw [hprev, hnext]
      simp
  exact h.remove hnodup (by simp) (fun y hy => (hvalues y hy).1) fun y hy => (hvalues y hy).2

end Links

end N00b.Lib
