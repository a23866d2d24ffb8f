import Mathlib

/-!
# Trees of binary operators

A sequence `e₀ op₁ e₁ … opₙ eₙ` and the trees that read it: the leaves and the operators of the
tree, in order, are those of the sequence. The operators are linearly ordered by how tight they
bind, larger ones tighter.

## Groupings

* `Ordered`: no operator stands above a looser one.
* `RightNested`: `Ordered`, and equal operators group to the right.
* `GroupsLeft P`: no operator with `P` stands in the right operand of the same operator.

`RightNested.groupsLeft_iff` says for which sequences of operators a tree that groups equal
operators to the right groups those with `P` to the left as well: for those without a run.
-/

namespace N00b.Lib

/-- Binary trees with operators at the inner nodes. -/
inductive OpTree (α β : Type) where
  | leaf (operand : β)
  | bin (op : α) (left right : OpTree α β)
  deriving DecidableEq, Repr

namespace OpTree

variable {α β : Type}

def leaves : OpTree α β → List β
  | leaf b => [b]
  | bin _ l r => l.leaves ++ r.leaves

def ops : OpTree α β → List α
  | leaf _ => []
  | bin o l r => l.ops ++ o :: r.ops

@[simp] theorem leaves_leaf (b : β) : (leaf b : OpTree α β).leaves = [b] := rfl

@[simp] theorem leaves_bin (o : α) (l r : OpTree α β) :
    (bin o l r).leaves = l.leaves ++ r.leaves := rfl

@[simp] theorem ops_leaf (b : β) : (leaf b : OpTree α β).ops = [] := rfl

@[simp] theorem ops_bin (o : α) (l r : OpTree α β) : (bin o l r).ops = l.ops ++ o :: r.ops := rfl

section

variable [LinearOrder α]

/-- No operator stands above a looser one. -/
def Ordered : OpTree α β → Prop
  | leaf _ => True
  | bin o l r => (∀ p ∈ l.ops, o ≤ p) ∧ (∀ p ∈ r.ops, o ≤ p) ∧ l.Ordered ∧ r.Ordered

/-- `Ordered`, with equal operators in the right operand only. -/
def RightNested : OpTree α β → Prop
  | leaf _ => True
  | bin o l r => (∀ p ∈ l.ops, o < p) ∧ (∀ p ∈ r.ops, o ≤ p) ∧ l.RightNested ∧ r.RightNested

/-- The operators with `P` never stand in the right operand of themselves. -/
def GroupsLeft (P : α → Prop) : OpTree α β → Prop
  | leaf _ => True
  | bin o l r => (P o → o ∉ r.ops) ∧ l.GroupsLeft P ∧ r.GroupsLeft P

theorem RightNested.ordered : {t : OpTree α β} → t.RightNested → t.Ordered
  | leaf _, _ => trivial
  | bin _ _ _, ⟨hl, hr, hnl, hnr⟩ =>
    ⟨fun p hp => le_of_lt (hl p hp), hr, hnl.ordered, hnr.ordered⟩

end

/-! ## Runs of equal operators -/

section

variable [LinearOrder α]

/-- An operator with `P` does not come again before a looser one has come. -/
def NoEqualRun (P : α → Prop) : List α → Prop
  | [] => True
  | o :: rest => (P o → o ∉ rest.takeWhile (o ≤ ·)) ∧ NoEqualRun P rest

instance (P : α → Prop) [DecidablePred P] : (ops : List α) → Decidable (NoEqualRun P ops)
  | [] => inferInstanceAs (Decidable True)
  | o :: rest =>
    have := instDecidableNoEqualRunOfDecidablePred P rest
    inferInstanceAs (Decidable ((P o → o ∉ rest.takeWhile (o ≤ ·)) ∧ NoEqualRun P rest))

theorem noEqualRun_append {P : α → Prop} {o : α} {ys : List α} :
    ∀ {xs : List α}, (∀ x ∈ xs, o < x) →
      (NoEqualRun P (xs ++ o :: ys) ↔ NoEqualRun P xs ∧ NoEqualRun P (o :: ys))
  | [], _ => by simp [NoEqualRun]
  | x :: xs, h => by
    have hx : o < x := h x (by simp)
    have hstop : (xs ++ o :: ys).takeWhile (x ≤ ·) = xs.takeWhile (x ≤ ·) := by
      rw [List.takeWhile_append]
      split
      next hall =>
        rw [List.takeWhile_cons, if_neg (by simpa using hx), List.append_nil]
        exact ((List.takeWhile_prefix _).eq_of_length hall).symm
      next => rfl
    have ih : NoEqualRun P (xs ++ o :: ys) ↔ NoEqualRun P xs ∧ NoEqualRun P (o :: ys) :=
      noEqualRun_append fun a ha => h a (List.mem_cons_of_mem x ha)
    rw [List.cons_append]
    simp only [NoEqualRun] at ih ⊢
    rw [hstop, ih, and_assoc]

/-- **A tree that groups equal operators to the right groups those with `P` to the left exactly
when they form no run.** -/
theorem RightNested.groupsLeft_iff {P : α → Prop} :
    {t : OpTree α β} → t.RightNested → (t.GroupsLeft P ↔ NoEqualRun P t.ops)
  | leaf _, _ => Iff.rfl
  | bin o l r, ⟨hl, hr, hnl, hnr⟩ => by
    have hall : r.ops.takeWhile (o ≤ ·) = r.ops :=
      List.takeWhile_eq_self_iff.mpr (fun p hp => by simpa using hr p hp)
    rw [ops_bin, noEqualRun_append hl]
    show (P o → o ∉ r.ops) ∧ l.GroupsLeft P ∧ r.GroupsLeft P ↔
      NoEqualRun P l.ops ∧ (P o → o ∉ r.ops.takeWhile (o ≤ ·)) ∧ NoEqualRun P r.ops
    rw [hall, hnl.groupsLeft_iff, hnr.groupsLeft_iff]
    exact and_left_comm

end

end OpTree

end N00b.Lib
