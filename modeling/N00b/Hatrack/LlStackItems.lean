import N00b.Hatrack.LlStackRuns

/-!
# What becomes of the items

An item that is pushed is returned once, or it is still on the stack or on its way there or back.

## Main results

* `llstack_keeps_items`: no item is lost, and none is returned twice.
-/

namespace N00b.Hatrack.LlStack

open N00b.Lib

variable {s : State} {events : List (Event ThreadId Op Reply)} {t : ThreadId}
  {e : Option (Event ThreadId Op Reply)} {a b : Atomic (List ℕ) ThreadId Op Reply}

/-- The items of the calls of `llstack_push_mmm`. -/
def pushed (events : List (Event ThreadId Op Reply)) : Multiset ℕ :=
  events.filterMap fun
    | .call _ (.push item) => some item
    | _ => none

/-- The items that calls of `llstack_pop_mmm` returned. -/
def returned (events : List (Event ThreadId Op Reply)) : Multiset ℕ :=
  events.filterMap fun
    | .ret _ (.popped item) => item
    | _ => none

/-- The item that a thread is about to push, or to return. -/
def inHand : Phase Op Reply → Multiset ℕ
  | .called (.push item) | .done (.popped (some item)) => {item}
  | _ => 0

def handsOf (a : Atomic (List ℕ) ThreadId Op Reply) (n : ℕ) : Multiset ℕ :=
  ∑ t ∈ Finset.range n, inHand (a.phase t)

/-- Each item is in its place, where there are at most `n` threads. -/
def Kept (events : List (Event ThreadId Op Reply)) (a : Atomic (List ℕ) ThreadId Op Reply) : Prop :=
  ∀ n, (∀ t, n ≤ t → a.phase t = .idle) → pushed events = returned events + ↑a.object + handsOf a n

theorem handsOf_of_le {m n : ℕ} (hmn : m ≤ n) (hidle : ∀ t, m ≤ t → a.phase t = .idle) :
    handsOf a m = handsOf a n := by
  refine Finset.sum_subset (Finset.range_subset_range.mpr hmn) fun t _ ht => ?_
  rw [hidle t (Nat.le_of_not_lt fun hlt => ht (Finset.mem_range.mpr hlt))]
  rfl

/-- What is in the hands of the other threads does not change. -/
theorem handsOf_goto {n : ℕ} (ht : t < n) (p : Phase Op Reply) (l : List ℕ) :
    handsOf (Atomic.goto ⟨l, a.phase⟩ t p) n + inHand (a.phase t) = handsOf a n + inHand p := by
  have hmem := Finset.mem_range.mpr ht
  have hphase : ∀ u, inHand ((Atomic.goto ⟨l, a.phase⟩ t p).phase u) =
      Function.update (inHand ∘ a.phase) t (inHand p) u :=
    fun u => congrFun (Function.comp_update inHand a.phase t p) u
  have hold : handsOf a n = ∑ u ∈ Finset.range n, (inHand ∘ a.phase) u := rfl
  rw [handsOf, Finset.sum_congr rfl fun u _ => hphase u, Finset.sum_update_of_mem hmem, hold,
    ← Finset.add_sum_erase _ _ hmem, Finset.sdiff_singleton_eq_erase, Function.comp_apply]
  abel

theorem pushed_append (l m : List (Event ThreadId Op Reply)) :
    pushed (l ++ m) = pushed l + pushed m := by
  rw [pushed, List.filterMap_append, ← Multiset.coe_add]
  rfl

theorem returned_append (l m : List (Event ThreadId Op Reply)) :
    returned (l ++ m) = returned l + returned m := by
  rw [returned, List.filterMap_append, ← Multiset.coe_add]
  rfl

/-- **A thread goes on**, and the items that come are those that go. -/
theorem Kept.goto (h : Kept events a) {p : Phase Op Reply} {l : List ℕ}
    (hbalance : pushed e.toList + ↑a.object + inHand (a.phase t) =
      returned e.toList + ↑l + inHand p) :
    Kept (events ++ e.toList) (Atomic.goto ⟨l, a.phase⟩ t p) := by
  intro n hidle
  -- with the thread among the first ones, its hands are counted
  have hle : n ≤ max n (t + 1) := le_max_left ..
  have ht : t < max n (t + 1) := lt_max_of_lt_right (Nat.lt_succ_self t)
  have hhands := handsOf_goto (a := a) ht p l
  rw [← handsOf_of_le hle hidle] at hhands
  have hkept := h (max n (t + 1)) fun u hu => by
    have hne : u ≠ t := ne_of_gt (Nat.lt_of_succ_le ((le_max_right ..).trans hu))
    exact (Function.update_of_ne hne ..).symm.trans (hidle u (hle.trans hu))
  rw [pushed_append, returned_append, hkept]
  refine add_right_cancel (b := inHand (a.phase t)) ?_
  calc returned events + ↑a.object + handsOf a (max n (t + 1)) + pushed e.toList +
        inHand (a.phase t)
      = returned events + handsOf a (max n (t + 1)) +
        (pushed e.toList + ↑a.object + inHand (a.phase t)) := by abel
    _ = returned events + returned e.toList + ↑l + (handsOf a (max n (t + 1)) + inHand p) := by
        rw [hbalance]
        abel
    _ = returned events + returned e.toList + ↑l + handsOf (Atomic.goto ⟨l, a.phase⟩ t p) n +
        inHand (a.phase t) := by
        rw [← hhands]
        abel

theorem Kept.step (h : Kept events a) (hstep : a.Step apply e b) : Kept (events ++ e.toList) b := by
  cases hstep with
  | @call t op hphase =>
    refine h.goto (e := some (.call t op)) ?_
    rw [hphase]
    cases op <;> simp [pushed, returned, inHand, add_comm]
  | @effect t op hphase =>
    refine h.goto (e := none) ?_
    rw [hphase]
    cases op with
    | push item =>
      simp [pushed, returned, inHand, apply, ← Multiset.cons_coe, ← Multiset.singleton_add,
        add_comm]
    | pop =>
      cases a.object <;> simp [pushed, returned, inHand, apply, ← Multiset.cons_coe,
        ← Multiset.singleton_add, add_comm]
  | @ret t r hphase =>
    refine h.goto (e := some (.ret t r)) ?_
    rw [hphase]
    rcases r with _ | _ | item <;> simp [pushed, returned, inHand, add_comm]

theorem history_kept (h : Atomic.History apply ⟨[], fun _ => .idle⟩ events b) : Kept events b := by
  induction h with
  | refl =>
    intro n _
    have hhands : handsOf ⟨[], fun _ => .idle⟩ n = 0 := Finset.sum_eq_zero fun _ _ => rfl
    rw [hhands]
    rfl
  | tail _ hstep ih => exact ih.step hstep

/-- **No item is lost, and none is returned twice**: each item that was given to a call is returned,
or it is on the stack, or a thread is about to push or to return it. -/
theorem llstack_keeps_items (h : Traced State.step State.Young State.shown .init events s) :
    ∃ nodes, Linked s.heap s.head nodes ∧
      pushed events = returned events + nodes.map (itemOf s.heap) +
        ∑ t ∈ Finset.range s.nexttid, inHand (s.thread t).pc.phase := by
  obtain ⟨nodes, owner, hinv, hhistory⟩ := traced_inv h
  refine ⟨nodes, hinv.linked, history_kept hhistory s.nexttid fun t ht => ?_⟩
  have hunborn : (s.thread t).pc = .unborn := by
    by_contra hne
    exact absurd ((hinv.threads t).born hne) (Nat.not_lt.mpr ht)
  show (s.thread t).pc.phase = .idle
  rw [hunborn]
  rfl

theorem llstack_keeps_items_push_pop : ∃ s : State, ∃ nodes, Linked s.heap s.head nodes ∧
    pushed [.call 0 (.push 7), .call 1 .pop, .ret 1 (.popped (some 7)), .ret 0 .pushed] =
      returned [.call 0 (.push 7), .call 1 .pop, .ret 1 (.popped (some 7)), .ret 0 .pushed] +
        nodes.map (itemOf s.heap) +
        ∑ t ∈ Finset.range s.nexttid, inHand (s.thread t).pc.phase :=
  let ⟨s, h⟩ := traced_push_pop
  ⟨s, llstack_keeps_items h⟩

end N00b.Hatrack.LlStack
