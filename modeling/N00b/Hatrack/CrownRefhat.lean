import N00b.Hatrack.CrownMap
import N00b.Hatrack.RefhatMap

/-!
# Both tables are the same map

The table with a cache and the reference table run side by side, from fresh tables of any sizes.
Each is the ordered map, so what they reply is the same, and no operation stays without a reply.
-/

namespace N00b.Hatrack

/-- **The two tables reply the same**, at every step, and what they reply is what an ordered map
does. -/
theorem tables_same_replies (size size' memory : ℕ) {t : Crown} {u : Refhat}
    (ht : Crown.initSize size memory = some t) (hu : Refhat.initSize size' = some u)
    (ops : List TableOp) (hlen : ops.length < 2 ^ 31) (hops : ∀ op ∈ ops, op.HashNonzero) (n : ℕ) :
    ∃ t' u' rs rs', runTable (Crown.exec (n + 2)) t ops = some (t', rs) ∧
      runTable (Refhat.exec (n + 2)) u ops = some (u', rs') ∧
      SameReplies ops rs (OrderedMap.replies [] ops) ∧
      SameReplies ops rs' (OrderedMap.replies [] ops) ∧ SameReplies ops rs rs' := by
  obtain ⟨t', rs, hrun, hsame⟩ := Crown.run_ordered ht ops hlen hops n
  obtain ⟨u', rs', hrun', hsame'⟩ := Refhat.run_same hu ops hlen hops n
  exact ⟨t', u', rs, rs', hrun, hrun', hsame, hsame', hsame.trans hsame'⟩

/-- An entry is removed and comes back, behind one of the same home. -/
theorem tables_same_replies_reinsert :
    ∃ t u, Crown.initSize 4 7 = some t ∧ Refhat.initSize 5 = some u ∧ ∃ t' u' rs rs',
      runTable (Crown.exec 2) t [.put 1 10, .add 17 20, .remove 1, .put 1 30, .view true, .len] =
        some (t', rs) ∧
      runTable (Refhat.exec 2) u [.put 1 10, .add 17 20, .remove 1, .put 1 30, .view true, .len] =
        some (u', rs') ∧
      SameReplies [.put 1 10, .add 17 20, .remove 1, .put 1 30, .view true, .len] rs
        [.item 0 false, .added true, .item 10 true, .item 0 false, .view [20, 30], .len 2] ∧
      SameReplies [.put 1 10, .add 17 20, .remove 1, .put 1 30, .view true, .len] rs'
        [.item 0 false, .added true, .item 10 true, .item 0 false, .view [20, 30], .len 2] ∧
      SameReplies [.put 1 10, .add 17 20, .remove 1, .put 1 30, .view true, .len] rs rs' :=
  ⟨_, _, rfl, rfl, tables_same_replies 4 5 7 rfl rfl
    [.put 1 10, .add 17 20, .remove 1, .put 1 30, .view true, .len] (by decide) (by
      simp only [List.forall_mem_cons, List.not_mem_nil, false_implies, implies_true, and_true]
      exact ⟨(by decide : (1 : Hash) ≠ 0), (by decide : (17 : Hash) ≠ 0),
        (by decide : (1 : Hash) ≠ 0), (by decide : (1 : Hash) ≠ 0), trivial, trivial⟩) 0⟩

end N00b.Hatrack
