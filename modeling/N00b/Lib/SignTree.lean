import Mathlib

/-!
# Binary operators with signs in front of the operands

A sequence `s₀ e₀ op₁ s₁ e₁ … opₙ sₙ eₙ`, in which every operand has a list of signs in front of
it. A sign is one of two kinds: `neg` becomes a node of the tree, `pos` leaves nothing behind. Both read
their operand at a fixed level of their own, whatever is being read around them, and an operator
reads its right operand at its own level.

What an operator or a sign gets hold of is its `extent`: up to the first operator that is looser
than every level that has been asked for on the way.

## Main results

* `SignTree.flat_injective`: the parts of a tree, each with the operators of its operand, tell the
  tree.
* `Reads.negTight_iff`: when no `neg` has an operator of its own level or a looser one in its
  operand.
* `Reads.eq_iff`: when the signs `pos` make no difference to the tree.
-/

namespace N00b.Lib

inductive Sign where
  | neg | pos
  deriving DecidableEq, Repr

/-- An operator with its right operand. -/
structure SignItem (α β : Type) where
  op : α
  signs : List Sign
  operand : β

inductive SignTree (α β : Type) where
  | leaf (operand : β)
  | neg (kid : SignTree α β)
  | bin (op : α) (left right : SignTree α β)
  deriving DecidableEq, Repr

namespace SignTree

variable {α β : Type}

/-- The binary operators, in order. -/
def ops : SignTree α β → List α
  | leaf _ => []
  | neg t => t.ops
  | bin o l r => l.ops ++ o :: r.ops

/-- A part of a tree, with the operators of its operand: the right one, for an operator. -/
inductive Part (α β : Type) where
  | leaf (operand : β)
  | neg (ops : List α)
  | op (o : α) (ops : List α)

/-- The parts of a tree, in the order of the sequence. -/
def flat : SignTree α β → List (Part α β)
  | leaf b => [.leaf b]
  | neg t => .neg t.ops :: t.flat
  | bin o l r => l.flat ++ .op o r.ops :: r.flat

/-! ## The parts tell the tree -/

def Part.op? : Part α β → Option α
  | op o _ => some o
  | _ => none

/-- The operators of a flat tree are those of the tree. -/
theorem filterMap_flat (t : SignTree α β) : t.flat.filterMap Part.op? = t.ops := by
  induction t with
  | leaf b => rfl
  | neg t ih => exact ih
  | bin o l r ihl ihr =>
    rw [flat, ops, List.filterMap_append, ihl, ← ihr]
    rfl

variable {t : SignTree α β} {os : List α}

/-- An operator has no more operators on its right than there are. -/
theorem length_ops_le {A B : List (Part α β)} {o : α}
    (h : t.flat = A ++ .op o os :: B) : os.length ≤ (B.filterMap Part.op?).length := by
  induction t generalizing A B with
  | leaf b =>
    rcases A with _ | ⟨a, A⟩
    · cases (List.cons.inj h).1
    · exact absurd (List.cons.inj h).2.symm (by simp)
  | neg t ih =>
    rcases A with _ | ⟨a, A⟩
    · cases (List.cons.inj h).1
    · exact ih (List.cons.inj h).2
  | bin o' l r ihl ihr =>
    rw [flat] at h
    rcases List.append_eq_append_iff.mp h with ⟨C, hA, hC⟩ | ⟨C, hl, hC⟩
    · rcases C with _ | ⟨c, C⟩
      · obtain ⟨hop, rfl⟩ := List.cons.inj hC
        obtain ⟨-, rfl⟩ := Part.op.inj hop
        rw [filterMap_flat]
      · exact ihr (List.cons.inj hC).2
    · rcases C with _ | ⟨c, C⟩
      · obtain ⟨hop, rfl⟩ := List.cons.inj hC
        obtain ⟨-, rfl⟩ := Part.op.inj hop
        rw [filterMap_flat]
      · obtain ⟨rfl, hB⟩ := List.cons.inj hC
        have hB : B = C ++ .op o' r.ops :: r.flat := hB
        refine (ihl hl).trans ?_
        rw [hB, List.filterMap_append, List.length_append]
        exact Nat.le_add_right _ _

theorem length_ops_le_of_neg {B : List (Part α β)}
    (h : t.flat = .neg os :: B) : os.length ≤ t.ops.length := by
  induction t generalizing B with
  | leaf b => cases (List.cons.inj h).1
  | neg t ih =>
    obtain ⟨hneg, -⟩ := List.cons.inj h
    obtain rfl := Part.neg.inj hneg
    exact le_rfl
  | bin o l r ihl ihr =>
    rw [flat] at h
    have hle : os.length ≤ l.ops.length := by
      cases hl : l.flat with
      | nil =>
        rw [hl] at h
        cases (List.cons.inj h).1
      | cons p B' =>
        rw [hl] at h
        obtain ⟨rfl, -⟩ := List.cons.inj h
        exact ihl hl
    rw [ops, List.length_append]
    omega

/-- A tree has an operand. -/
theorem flat_ne_nil (t : SignTree α β) : t.flat ≠ [] := by
  cases t <;> simp [flat]

/-- The root of a tree is no operator of its left side. -/
theorem root_not_inside {l l' r : SignTree α β} {o o' : α} {C : List (Part α β)}
    {B : List (Part α β)} (hl' : l'.flat = l.flat ++ .op o r.ops :: C)
    (hr : r.flat = C ++ .op o' os :: B) : False := by
  have hlen := length_ops_le hl'
  rw [← filterMap_flat r, hr, List.filterMap_append, List.length_append] at hlen
  simp only [List.filterMap_cons, Part.op?, List.length_cons] at hlen
  omega

/-- **The parts of a tree tell the tree.** -/
theorem flat_injective : Function.Injective (flat : SignTree α β → List (Part α β)) := by
  intro t
  induction t with
  | leaf b =>
    intro t' h
    cases t' with
    | leaf b' =>
      obtain ⟨hb, -⟩ := List.cons.inj h
      rw [Part.leaf.inj hb]
    | neg t' => cases (List.cons.inj h).1
    | bin o' l' r' =>
      have hlen := congrArg List.length h
      have hl := List.length_pos_iff.mpr l'.flat_ne_nil
      simp only [flat, List.length_append, List.length_cons, List.length_nil] at hlen
      omega
  | neg t ih =>
    intro t' h
    cases t' with
    | leaf b' => cases (List.cons.inj h).1
    | neg t' => rw [ih (List.cons.inj h).2]
    | bin o' l' r' =>
      exfalso
      have hops := congrArg (List.filterMap Part.op?) h
      rw [filterMap_flat, filterMap_flat] at hops
      cases hl : l'.flat with
      | nil => exact l'.flat_ne_nil hl
      | cons p B =>
        simp only [flat, hl, List.cons_append] at h
        obtain ⟨rfl, -⟩ := List.cons.inj h
        have hle := length_ops_le_of_neg hl
        have hlen := congrArg List.length hops
        simp only [ops, List.length_append, List.length_cons] at hlen
        omega
  | bin o l r ihl ihr =>
    intro t' h
    cases t' with
    | leaf b' =>
      have hlen := congrArg List.length h
      have hl := List.length_pos_iff.mpr l.flat_ne_nil
      simp only [flat, List.length_append, List.length_cons, List.length_nil] at hlen
      omega
    | neg t' =>
      exfalso
      have hops := congrArg (List.filterMap Part.op?) h
      rw [filterMap_flat, filterMap_flat] at hops
      cases hl : l.flat with
      | nil => exact l.flat_ne_nil hl
      | cons p B =>
        simp only [flat, hl, List.cons_append] at h
        obtain ⟨rfl, -⟩ := List.cons.inj h
        have hle := length_ops_le_of_neg hl
        have hlen := congrArg List.length hops
        simp only [ops, List.length_append, List.length_cons] at hlen
        omega
    | bin o' l' r' =>
      simp only [flat] at h
      rcases List.append_eq_append_iff.mp h with ⟨C, hl', hC⟩ | ⟨C, hl, hC⟩
      · rcases C with _ | ⟨c, C⟩
        · rw [List.append_nil] at hl'
          obtain ⟨hop, hr⟩ := List.cons.inj hC
          obtain ⟨rfl, -⟩ := Part.op.inj hop
          rw [ihl hl'.symm, ihr hr]
        · obtain ⟨rfl, hr⟩ := List.cons.inj hC
          exact (root_not_inside hl' hr).elim
      · rcases C with _ | ⟨c, C⟩
        · rw [List.append_nil] at hl
          obtain ⟨hop, hr⟩ := List.cons.inj hC
          obtain ⟨rfl, -⟩ := Part.op.inj hop
          rw [ihl hl, ihr hr.symm]
        · obtain ⟨rfl, hr⟩ := List.cons.inj hC
          exact (root_not_inside hl hr).elim

/-- No `neg` has an operator in its operand that is not tighter than `l`. -/
def NegTight [LT α] (l : α) : SignTree α β → Prop
  | leaf _ => True
  | neg t => (∀ o ∈ t.ops, l < o) ∧ t.NegTight l
  | bin _ t r => t.NegTight l ∧ r.NegTight l

/-- Signs bind tight just if they do in the flat tree. -/
theorem negTight_iff_flat [LT α] {l : α} :
    t.NegTight l ↔ ∀ os, Part.neg os ∈ t.flat → ∀ o ∈ os, l < o := by
  induction t with
  | leaf b => simp [NegTight, flat]
  | neg t ih => simp [NegTight, flat, ih]
  | bin o t r iht ihr =>
    simp only [NegTight, flat, iht, ihr, List.mem_append, List.mem_cons, reduceCtorEq, false_or]
    constructor
    · rintro ⟨ht, hr⟩ os (h | h)
      · exact ht os h
      · exact hr os h
    · intro h
      exact ⟨fun os hos => h os (.inl hos), fun os hos => h os (.inr hos)⟩

end SignTree

/-! ## What is read -/

structure SignLevels (α : Type) [LinearOrder α] where
  neg : α
  pos : α
  pos_le_neg : pos ≤ neg

namespace SignLevels

variable {α β : Type} [LinearOrder α] (L : SignLevels α)

def level : Sign → α
  | .neg => L.neg
  | .pos => L.pos

/-- The loosest level among `θ` and those of the signs. -/
def lower (θ : α) (signs : List Sign) : α := signs.foldl (fun l s => min l (L.level s)) θ

@[simp] theorem lower_nil (θ : α) : L.lower θ [] = θ := rfl

@[simp] theorem lower_cons (θ : α) (s : Sign) (signs : List Sign) :
    L.lower θ (s :: signs) = L.lower (min θ (L.level s)) signs := rfl

/-- Lowering a bound by signs lowers it to the least of their levels. -/
theorem lower_min (l θ : α) (signs : List Sign) :
    L.lower (min l θ) signs = min l (L.lower θ signs) := by
  induction signs generalizing θ with
  | nil => rfl
  | cons s signs ih => rw [lower_cons, lower_cons, min_assoc, ih]

/-- What belongs to an operand that is read at the level `θ`, and the rest. A sign inside makes the
level looser for all that follows. -/
def extent (θ : α) : List (SignItem α β) → List (SignItem α β) × List (SignItem α β)
  | [] => ([], [])
  | i :: items =>
    if i.op < θ then ([], i :: items)
    else (i :: (extent (L.lower θ i.signs) items).1, (extent (L.lower θ i.signs) items).2)

/-- What an operand with the signs in front of it gets hold of. -/
def startExtent (signs : List Sign) (items : List (SignItem α β)) :
    List (SignItem α β) × List (SignItem α β) :=
  match signs with
  | [] => ([], items)
  | s :: signs => L.extent (L.lower (L.level s) signs) items

variable {L}

variable {θ : α}

theorem extent_stop {i : SignItem α β} {items : List (SignItem α β)} (h : i.op < θ) :
    L.extent θ (i :: items) = ([], i :: items) := if_pos h

/-- An operator that binds tight enough is taken, with all that its operand takes. -/
theorem extent_take {i : SignItem α β} {items used rem : List (SignItem α β)}
    (h : θ ≤ i.op) (hext : L.extent (L.lower θ i.signs) items = (used, rem)) :
    L.extent θ (i :: items) = (i :: used, rem) := by
  rw [extent, if_neg (not_lt.mpr h), hext]

theorem lower_eq_of_forall_le (h : ∀ l, θ ≤ l) (signs : List Sign) :
    L.lower θ signs = θ := by
  induction signs with
  | nil => rfl
  | cons s signs ih => rw [lower_cons, min_eq_left (h _), ih]

/-- At the lowest bound all is taken. -/
theorem extent_of_forall_le (h : ∀ l, θ ≤ l) (items : List (SignItem α β)) :
    L.extent θ items = (items, []) := by
  induction items with
  | nil => rfl
  | cons i items ih =>
    refine extent_take (h _) ?_
    rw [lower_eq_of_forall_le h, ih]

/-- What is taken at one bound and then at another is taken at the lower one. -/
theorem extent_join {θ l : α} {items u₁ r₁ u₂ r₂ : List (SignItem α β)}
    (h₁ : L.extent θ items = (u₁, r₁)) (h₂ : L.extent l r₁ = (u₂, r₂)) :
    L.extent (min l θ) items = (u₁ ++ u₂, r₂) := by
  induction items generalizing θ u₁ with
  | nil =>
    obtain ⟨rfl, rfl⟩ := Prod.mk.inj h₁
    exact h₂
  | cons i items ih =>
    by_cases hθ : i.op < θ
    · rw [extent_stop hθ] at h₁
      obtain ⟨rfl, rfl⟩ := Prod.mk.inj h₁
      rcases lt_or_ge i.op l with hl | hl
      · rw [extent_stop hl] at h₂
        rw [extent_stop (lt_min hl hθ), h₂]
        rfl
      · rw [min_eq_left (hl.trans hθ.le), h₂]
        rfl
    · rw [extent, if_neg hθ] at h₁
      obtain ⟨rfl, hr⟩ := Prod.mk.inj h₁
      refine extent_take (min_le_of_right_le (not_lt.mp hθ)) ?_
      rw [lower_min]
      exact ih (Prod.ext rfl hr)

/-- An operand takes what its signs take and then what its operator does. -/
theorem extent_of_start {l : α} {signs : List Sign} {items u₁ r₁ u₂ r₂ : List (SignItem α β)}
    (h₁ : L.startExtent signs items = (u₁, r₁)) (h₂ : L.extent l r₁ = (u₂, r₂)) :
    L.extent (L.lower l signs) items = (u₁ ++ u₂, r₂) := by
  cases signs with
  | nil =>
    obtain ⟨rfl, rfl⟩ := Prod.mk.inj h₁
    exact h₂
  | cons s signs =>
    rw [lower_cons, lower_min]
    exact extent_join h₁ h₂

variable (L)

/-- The parts that stand for the signs of an operand in front of `items`. -/
def flatSigns : List Sign → List (SignItem α β) → List (SignTree.Part α β)
  | [], _ => []
  | .neg :: signs, items =>
    .neg ((L.extent (L.lower L.neg signs) items).1.map (·.op)) :: flatSigns signs items
  | .pos :: signs, items => flatSigns signs items

/-- The parts that stand for `used`, in front of `rem`. -/
def flatItems : List (SignItem α β) → List (SignItem α β) → List (SignTree.Part α β)
  | [], _ => []
  | i :: used, rem =>
    .op i.op ((L.extent (L.lower i.op i.signs) (used ++ rem)).1.map (·.op)) ::
      (flatSigns L i.signs (used ++ rem) ++ .leaf i.operand :: flatItems used rem)

/-- Items are flattened one list behind the other. -/
theorem flatItems_append (u₁ u₂ rem : List (SignItem α β)) :
    L.flatItems (u₁ ++ u₂) rem = L.flatItems u₁ (u₂ ++ rem) ++ L.flatItems u₂ rem := by
  induction u₁ with
  | nil => rfl
  | cons i u₁ ih => simp [flatItems, ih]

/-- The tree has an operand with signs in front of it and `used` in it, when `rem` follows. -/
structure Reads (signs : List Sign) (b : β) (used rem : List (SignItem α β))
    (t : SignTree α β) : Prop where
  ops_eq : t.ops = used.map (·.op)
  flat_eq : t.flat = L.flatSigns signs (used ++ rem) ++ .leaf b :: L.flatItems used rem

namespace Reads

variable {L} {signs : List Sign} {b : β} {used rem : List (SignItem α β)} {t : SignTree α β}

theorem leaf : L.Reads [] b [] rem (.leaf b) := ⟨rfl, rfl⟩

theorem pos (h : L.Reads signs b used rem t) : L.Reads (.pos :: signs) b used rem t :=
  ⟨h.ops_eq, h.flat_eq⟩

/-- A negation takes what its level does. -/
theorem neg (h : L.Reads signs b used rem t)
    (hext : L.extent (L.lower L.neg signs) (used ++ rem) = (used, rem)) :
    L.Reads (.neg :: signs) b used rem (.neg t) where
  ops_eq := h.ops_eq
  flat_eq := by rw [SignTree.flat, h.flat_eq, h.ops_eq, flatSigns, hext, List.cons_append]

/-- An operator has what was read before it on its left. -/
theorem bin {i : SignItem α β} {used' : List (SignItem α β)} {r : SignTree α β}
    (h : L.Reads signs b used (i :: (used' ++ rem)) t)
    (hr : L.Reads i.signs i.operand used' rem r)
    (hext : L.extent (L.lower i.op i.signs) (used' ++ rem) = (used', rem)) :
    L.Reads signs b (used ++ i :: used') rem (.bin i.op t r) where
  ops_eq := by rw [SignTree.ops, h.ops_eq, hr.ops_eq, List.map_append, List.map_cons]
  flat_eq := by
    rw [SignTree.flat, h.flat_eq, hr.flat_eq, hr.ops_eq, flatItems_append]
    simp [flatItems, hext]

end Reads

/-! ## Signs that take no operator of their own level -/

/-- `θ`, or the level of `pos` when there was one. -/
def bound (θ : α) (plus : Bool) : α := if plus then min θ L.pos else θ

/-- The signs `neg`. -/
def negs (signs : List Sign) : List Sign := signs.filter (· = .neg)

theorem bound_le (θ : α) (plus : Bool) : L.bound θ plus ≤ θ := by
  cases plus
  · exact le_rfl
  · exact min_le_left θ L.pos

/-- A sign among others lowers the bound to its own level. -/
theorem lower_bound (θ : α) (plus : Bool) (signs : List Sign) :
    L.lower (L.bound θ plus) signs =
      L.bound (L.lower θ (negs signs)) (plus || decide (Sign.pos ∈ signs)) := by
  induction signs generalizing θ plus with
  | nil => simp [negs]
  | cons s signs ih =>
    cases s with
    | neg =>
      have hb : min (L.bound θ plus) L.neg = L.bound (min θ L.neg) plus := by
        cases plus
        · rfl
        · exact min_right_comm θ L.pos L.neg
      rw [lower_cons, level, hb, ih]
      simp [negs, level]
    | pos =>
      have hb : min (L.bound θ plus) L.pos = L.bound θ true := by
        cases plus
        · rfl
        · simp [bound]
      rw [lower_cons, level, hb, ih]
      simp [negs]

theorem lower_negs_of_le {θ : α} (h : θ ≤ L.neg) (signs : List Sign) :
    L.lower θ (negs signs) = θ := by
  induction signs with
  | nil => rfl
  | cons s signs ih =>
    cases s with
    | neg =>
      show L.lower (min θ L.neg) (negs signs) = θ
      rw [min_eq_left h, ih]
    | pos => exact ih

/-- The first operator that is not tighter than `neg` is looser than it, and looser than `pos` when
there was one before. -/
def NegStops : Bool → List (SignItem α β) → Prop
  | _, [] => True
  | plus, i :: items =>
    if L.neg < i.op then NegStops (plus || decide (Sign.pos ∈ i.signs)) items
    else i.op < L.bound L.neg plus

instance decidableNegStops :
    (plus : Bool) → (items : List (SignItem α β)) → Decidable (L.NegStops plus items)
  | _, [] => inferInstanceAs (Decidable True)
  | plus, i :: items =>
    have := decidableNegStops (plus || decide (Sign.pos ∈ i.signs)) items
    inferInstanceAs (Decidable (if L.neg < i.op then
      L.NegStops (plus || decide (Sign.pos ∈ i.signs)) items else i.op < L.bound L.neg plus))

/-- A negation stops where it should just if all that it takes binds tighter. -/
theorem negStops_iff (plus : Bool) (items : List (SignItem α β)) :
    L.NegStops plus items ↔
      ∀ o ∈ (L.extent (L.bound L.neg plus) items).1.map (·.op), L.neg < o := by
  induction items generalizing plus with
  | nil => simp [NegStops, extent]
  | cons i items ih =>
    by_cases hneg : L.neg < i.op
    · rw [NegStops, if_pos hneg, ih, extent, if_neg (not_lt.mpr ((L.bound_le _ _).trans hneg.le)),
        lower_bound, lower_negs_of_le L le_rfl]
      simp [hneg]
    · rw [NegStops, if_neg hneg, extent]
      split
      next h => simp [h]
      next h => simp [h, hneg]

/-- `NegStops` for every `neg` among the signs of an operand. -/
def SignsStop : List Sign → List (SignItem α β) → Prop
  | [], _ => True
  | .neg :: signs, items => L.NegStops (decide (Sign.pos ∈ signs)) items ∧ SignsStop signs items
  | .pos :: signs, items => SignsStop signs items

/-- **After every `neg`** the first operator that is not tighter than `neg` is looser than it, and
looser than `pos` when there is one in between. -/
def AllNegStop : List Sign → List (SignItem α β) → Prop
  | signs, [] => L.SignsStop signs ([] : List (SignItem α β))
  | signs, i :: items => L.SignsStop signs (i :: items) ∧ AllNegStop i.signs items

instance decidableSignsStop :
    (signs : List Sign) → (items : List (SignItem α β)) → Decidable (L.SignsStop signs items)
  | [], _ => inferInstanceAs (Decidable True)
  | .neg :: signs, items =>
    have := decidableSignsStop signs items
    inferInstanceAs (Decidable (_ ∧ _))
  | .pos :: signs, items => decidableSignsStop signs items

instance decidableAllNegStop :
    (signs : List Sign) → (items : List (SignItem α β)) → Decidable (L.AllNegStop signs items)
  | signs, [] => decidableSignsStop L signs []
  | _, i :: items =>
    have := decidableAllNegStop i.signs items
    inferInstanceAs (Decidable (_ ∧ _))

theorem lower_neg_eq (signs : List Sign) :
    L.lower L.neg signs = L.bound L.neg (decide (Sign.pos ∈ signs)) := by
  have h := L.lower_bound L.neg false signs
  rwa [lower_negs_of_le L le_rfl, Bool.false_or] at h

/-- So for several signs. -/
theorem signsStop_iff (signs : List Sign) (items : List (SignItem α β)) :
    L.SignsStop signs items ↔
      ∀ os, SignTree.Part.neg os ∈ (L.flatSigns signs items : List (SignTree.Part α β)) →
        ∀ o ∈ os, L.neg < o := by
  induction signs with
  | nil => simp [SignsStop, flatSigns]
  | cons s signs ih =>
    cases s with
    | neg => simp [SignsStop, flatSigns, ih, negStops_iff, lower_neg_eq]
    | pos => exact ih

/-- So for a whole sequence. -/
theorem allNegStop_iff (signs : List Sign) (b : β) (items : List (SignItem α β)) :
    L.AllNegStop signs items ↔
      ∀ os, SignTree.Part.neg os ∈ L.flatSigns signs items ++ .leaf b :: L.flatItems items [] →
        ∀ o ∈ os, L.neg < o := by
  induction items generalizing signs b with
  | nil => simp [AllNegStop, signsStop_iff, flatItems]
  | cons i items ih =>
    rw [AllNegStop, signsStop_iff, ih i.signs i.operand]
    simp only [flatItems, List.mem_append, List.mem_cons, reduceCtorEq, false_or,
      List.append_nil]
    constructor
    · rintro ⟨hs, hi⟩ os (h | h)
      · exact hs os h
      · exact hi os h
    · intro h
      exact ⟨fun os hos => h os (.inl hos), fun os hos => h os (.inr hos)⟩

/-- **Negations bind tight** in the tree just if all of them stop where they should. -/
theorem Reads.negTight_iff {L : SignLevels α} {signs : List Sign} {b : β}
    {items : List (SignItem α β)} {t : SignTree α β} (h : L.Reads signs b items [] t) :
    t.NegTight L.neg ↔ L.AllNegStop signs items := by
  rw [SignTree.negTight_iff_flat, h.flat_eq, List.append_nil, L.allNegStop_iff signs b]

/-! ## Signs that leave nothing behind -/

/-- The item with its signs `neg` only. -/
def strip (i : SignItem α β) : SignItem α β := { i with signs := negs i.signs }

/-- The first operator that is looser than `θ`, or than a `neg` on the way to it, is looser than
`pos` when there was one before. -/
def PosStops : α → Bool → List (SignItem α β) → Prop
  | _, _, [] => True
  | θ, plus, i :: items =>
    if i.op < θ then plus = true → i.op < L.pos
    else PosStops (L.lower θ (negs i.signs)) (plus || decide (Sign.pos ∈ i.signs)) items

instance decidablePosStops :
    (θ : α) → (plus : Bool) → (items : List (SignItem α β)) → Decidable (L.PosStops θ plus items)
  | _, _, [] => inferInstanceAs (Decidable True)
  | θ, plus, i :: items =>
    have := decidablePosStops (L.lower θ (negs i.signs)) (plus || decide (Sign.pos ∈ i.signs)) items
    inferInstanceAs (Decidable (if i.op < θ then plus = true → i.op < L.pos else
      L.PosStops (L.lower θ (negs i.signs)) (plus || decide (Sign.pos ∈ i.signs)) items))

/-- A plus sign changes nothing just if it takes what would be taken without it. -/
theorem posStops_iff (θ : α) (plus : Bool) (items : List (SignItem α β)) :
    L.PosStops θ plus items ↔
      (L.extent (L.bound θ plus) items).1.map (·.op) =
        (L.extent θ (items.map strip)).1.map (·.op) := by
  induction items generalizing θ plus with
  | nil => simp [PosStops, extent]
  | cons i items ih =>
    have hop : (strip i).op = i.op := rfl
    have hsigns : (strip i).signs = negs i.signs := rfl
    rw [List.map_cons, PosStops, extent, extent, hop, hsigns]
    by_cases hθ : i.op < θ
    · rw [if_pos hθ, if_pos hθ]
      cases plus with
      | false => simp [bound, hθ]
      | true =>
        by_cases hpos : i.op < L.pos
        · simp [bound, hθ, hpos]
        · simp [bound, hpos]
    · have hb : ¬i.op < L.bound θ plus := fun h => hθ (h.trans_le (L.bound_le θ plus))
      rw [if_neg hθ, if_neg hθ, if_neg hb, ih, lower_bound]
      simp [hop]

/-- `PosStops` for every `neg` among the signs of an operand. -/
def SignsStopPos : List Sign → List (SignItem α β) → Prop
  | [], _ => True
  | .neg :: signs, items =>
    L.PosStops L.neg (decide (Sign.pos ∈ signs)) items ∧ SignsStopPos signs items
  | .pos :: signs, items => SignsStopPos signs items

/-- **After every operator and every `neg`** the first operator that is looser than it, or than a
`neg` in between, is looser than `pos` when there is one in between. -/
def AllPosStop : List Sign → List (SignItem α β) → Prop
  | signs, [] => L.SignsStopPos signs ([] : List (SignItem α β))
  | signs, i :: items =>
    L.SignsStopPos signs (i :: items) ∧
      L.PosStops (L.lower i.op (negs i.signs)) (decide (Sign.pos ∈ i.signs)) items ∧
        AllPosStop i.signs items

instance decidableSignsStopPos :
    (signs : List Sign) → (items : List (SignItem α β)) → Decidable (L.SignsStopPos signs items)
  | [], _ => inferInstanceAs (Decidable True)
  | .neg :: signs, items =>
    have := decidableSignsStopPos signs items
    inferInstanceAs (Decidable (_ ∧ _))
  | .pos :: signs, items => decidableSignsStopPos signs items

instance decidableAllPosStop :
    (signs : List Sign) → (items : List (SignItem α β)) → Decidable (L.AllPosStop signs items)
  | signs, [] => decidableSignsStopPos L signs []
  | _, i :: items =>
    have := decidableAllPosStop i.signs items
    inferInstanceAs (Decidable (_ ∧ _ ∧ _))

theorem length_flatSigns_negs (signs : List Sign) (items items' : List (SignItem α β)) :
    (L.flatSigns signs items).length = (L.flatSigns (negs signs) items').length := by
  induction signs with
  | nil => rfl
  | cons s signs ih =>
    cases s with
    | neg | pos => simpa [flatSigns, negs] using ih

/-- So for several signs. -/
theorem signsStopPos_iff (signs : List Sign) (items : List (SignItem α β)) :
    L.SignsStopPos signs items ↔
      L.flatSigns signs items = L.flatSigns (negs signs) (items.map strip) := by
  induction signs with
  | nil => simp [SignsStopPos, flatSigns, negs]
  | cons s signs ih =>
    cases s with
    | neg =>
      have hnegs : negs (.neg :: signs) = .neg :: negs signs := rfl
      rw [hnegs, SignsStopPos, flatSigns, flatSigns, lower_neg_eq, lower_negs_of_le L le_rfl, ih,
        posStops_iff]
      simp
    | pos => exact ih

/-- So for a whole sequence. -/
theorem allPosStop_iff (signs : List Sign) (b : β) (items : List (SignItem α β)) :
    L.AllPosStop signs items ↔
      L.flatSigns signs items ++ .leaf b :: L.flatItems items [] =
        L.flatSigns (negs signs) (items.map strip) ++
          .leaf b :: L.flatItems (items.map strip) [] := by
  induction items generalizing signs b with
  | nil => simp [AllPosStop, signsStopPos_iff, flatItems]
  | cons i items ih =>
    have hlower : L.lower i.op i.signs =
        L.bound (L.lower i.op (negs i.signs)) (decide (Sign.pos ∈ i.signs)) := by
      have h := L.lower_bound i.op false i.signs
      rwa [Bool.false_or] at h
    rw [AllPosStop, signsStopPos_iff, ih i.signs i.operand, posStops_iff, ← hlower]
    constructor
    · rintro ⟨hs, hop, hi⟩
      rw [hs]
      simpa [flatItems, strip, hop] using hi
    · intro h
      obtain ⟨hs, h⟩ := List.append_inj h (L.length_flatSigns_negs signs _ _)
      simp only [List.map_cons, flatItems, List.append_nil, List.cons.injEq,
        SignTree.Part.op.injEq, true_and] at h
      exact ⟨hs, h.1.2, h.2⟩

/-- **Plus signs change nothing** in the tree just if none takes more than would be taken without
it. -/
theorem Reads.eq_iff {L : SignLevels α} {signs : List Sign} {b : β} {items : List (SignItem α β)}
    {t t' : SignTree α β} (h : L.Reads signs b items [] t)
    (h' : L.Reads (negs signs) b (items.map strip) [] t') :
    t = t' ↔ L.AllPosStop signs items := by
  rw [← SignTree.flat_injective.eq_iff, h.flat_eq, h'.flat_eq, List.append_nil, List.append_nil,
    L.allPosStop_iff signs b]

end SignLevels

end N00b.Lib
