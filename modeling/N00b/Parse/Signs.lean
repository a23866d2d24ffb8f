import N00b.Lib.SignTree
import N00b.Parse.Precedence

/-!
# Unary signs

Sequences `s₀ e₀ op₁ s₁ e₁ … opₙ sₙ eₙ` of operands of one token and binary operators, with any
number of unary `-` and `+` in front of every operand. `expression_start` reads the operand of `-`
with `minus_expr_rhs` and that of `+` with `lt_expr_rhs`, in the middle of whatever level is being
parsed: a sign takes all operators that follow up to one that is looser than its level.
-/

namespace N00b.Parse

open N00b.Lib

/-! ## Sequences with signs -/

def signLevels : SignLevels Level where
  neg := .minus
  pos := .lt
  pos_le_neg := by decide

def signToken : Sign → TokenKind
  | .neg => .minus
  | .pos => .plus

structure UnarySign where
  sign : Sign
  token : Token
  gap : List Token
  kind_eq : token.kind = signToken sign
  gap_blank : ∀ t ∈ gap, isBlank t.kind

/-- An operator with its right operand and the signs in front of that. -/
structure SignedItem where
  op : Level
  token : Token
  gap : List Token
  signs : List UnarySign
  operand : Operand
  kind_eq : token.kind = op.token
  gap_blank : ∀ t ∈ gap, isBlank t.kind

def SignedItem.item (i : SignedItem) : SignItem Level Token where
  op := i.op
  signs := i.signs.map (·.sign)
  operand := i.operand.token

def signTokens : List UnarySign → Operand → List Token → List Token
  | [], e, tail => e.token :: (e.gap ++ tail)
  | s :: signs, e, tail => s.token :: (s.gap ++ signTokens signs e tail)

def signedItemTokens : List SignedItem → List Token → List Token
  | [], tail => tail
  | i :: items, tail =>
    i.token :: (i.gap ++ signTokens i.signs i.operand (signedItemTokens items tail))

/-- The number of operators and of signs behind them. -/
def signedSize : List SignedItem → Nat
  | [] => 0
  | i :: items => i.signs.length + 1 + signedSize items

/-! ## Without the unary `+` -/

def minuses (signs : List UnarySign) : List UnarySign := signs.filter (·.sign = .neg)

def SignedItem.withoutPlus (i : SignedItem) : SignedItem := { i with signs := minuses i.signs }

/-- The minus signs of a chain are its negations. -/
theorem map_sign_minuses (signs : List UnarySign) :
    (minuses signs).map (·.sign) = SignLevels.negs (signs.map (·.sign)) := by
  rw [minuses, SignLevels.negs, List.filter_map]
  rfl

/-- Dropping plus signs strips the item. -/
theorem item_withoutPlus (i : SignedItem) : i.withoutPlus.item = SignLevels.strip i.item := by
  simp [SignedItem.item, SignedItem.withoutPlus, SignLevels.strip, map_sign_minuses]

/-- Dropping plus signs does not make items larger. -/
theorem signedSize_withoutPlus (items : List SignedItem) :
    signedSize (items.map SignedItem.withoutPlus) ≤ signedSize items := by
  induction items with
  | nil => exact le_rfl
  | cons i items ih =>
    have hlen : (minuses i.signs).length ≤ i.signs.length := List.length_filter_le _ _
    simp only [List.map_cons, signedSize, SignedItem.withoutPlus]
    exact Nat.add_le_add (Nat.add_le_add_right hlen 1) ih

/-- The remaining items are no larger than all. -/
theorem signedSize_le_append (used remaining : List SignedItem) :
    signedSize remaining ≤ signedSize (used ++ remaining) := by
  induction used with
  | nil => exact le_rfl
  | cons i used ih => exact ih.trans (Nat.le_add_left _ _)

/-! ## Trees as sign trees -/

/-- `t` is a parse tree of the sign tree: operands and binary operators as for `Denotes`, and `neg`
is a `unary_op` node, which carries no operator code. -/
inductive SignDenotes : Tree → SignTree Level Token → Prop
  | leaf {t : Tree} {x : Token} (h : Denotes t (.leaf x)) : SignDenotes t (.leaf x)
  | neg {p : PNode} {kid : Tree} {s : SignTree Level Token} (hkind : p.kind = .unaryOp)
      (hop : p.extraInfo = none) (h : SignDenotes kid s) : SignDenotes (.node p [kid]) (.neg s)
  | bin {p : PNode} {o : Level} {l r : Tree} {s s' : SignTree Level Token}
      (hkind : p.kind = o.nodeKind) (hop : p.extraInfo = o.op)
      (hl : SignDenotes l s) (hr : SignDenotes r s') : SignDenotes (.node p [l, r]) (.bin o s s')

/-- A change of contents that keeps kind, token and extra information keeps the meaning. -/
theorem SignDenotes.mapContents {t : Tree} {s : SignTree Level Token} {f : PNode → PNode}
    (h : SignDenotes t s) (hk : ∀ p, (f p).kind = p.kind) (ht : ∀ p, (f p).token = p.token)
    (he : ∀ p, (f p).extraInfo = p.extraInfo) : SignDenotes (t.mapContents f) s := by
  cases h with
  | leaf h => exact .leaf (h.mapContents hk ht he)
  | neg hkind hop h => exact .neg ((hk _).trans hkind) ((he _).trans hop) h
  | bin hkind hop hl hr => exact .bin ((hk _).trans hkind) ((he _).trans hop) hl hr

/-- A tree denotes one sign tree. -/
theorem SignDenotes.unique {t : Tree} {s₁ s₂ : SignTree Level Token} (h₁ : SignDenotes t s₁)
    (h₂ : SignDenotes t s₂) : s₁ = s₂ := by
  induction h₁ generalizing s₂ with
  | leaf h =>
    cases h with
    | leaf hp hkind htoken =>
      cases h₂ with
      | leaf h' => cases h'; rfl
      | neg hkind' => exact absurd (hp.symm.trans hkind') (by decide)
  | neg hkind _ _ ih =>
    cases h₂ with
    | leaf h' =>
      cases h' with
      | leaf hp => exact absurd (hp.symm.trans hkind) (by decide)
    | neg _ _ h' => rw [ih h']
  | bin hkind hop _ _ ihl ihr =>
    cases h₂ with
    | leaf h' => cases h'
    | bin hkind' hop' hl' hr' =>
      rw [ihl hl', ihr hr', Level.eq_of_node (hkind.symm.trans hkind') (hop.symm.trans hop')]

/-! ## Streams that start with a sign -/

/-- The tokens of a signed operand are settled. -/
theorem settled_signTokens {d : Nat} (signs : List UnarySign) (e : Operand) (tail : List Token) :
    Settled d (signTokens signs e tail) := by
  cases signs with
  | nil => exact settled_seqTokens e [] tail
  | cons s signs =>
    show isBlank s.token.kind = false ∧ (s.token.kind = .newline → _)
    rw [s.kind_eq]
    cases s.sign <;> simp [isBlank, signToken]

/-- The tokens of signed items are settled. -/
theorem settled_signedItemTokens {d : Nat} {tail : List Token} (hend : Ends d tail)
    (items : List SignedItem) : Settled d (signedItemTokens items tail) := by
  cases items with
  | nil => exact hend.settled
  | cons i items =>
    show isBlank i.token.kind = false ∧ (i.token.kind = .newline → d = 0)
    rw [i.kind_eq]
    cases i.op <;> simp [isBlank, Level.token]

/-- No access follows an operand within signed items. -/
theorem signedItemTokens_no_access {d : Nat} {tail : List Token} (hend : Ends d tail)
    (items : List SignedItem) :
    ((signedItemTokens items tail).headD eofToken).kind ∉
      [TokenKind.period, .lbracket, .lparen] := by
  cases items with
  | nil => exact hend.no_access
  | cons i items =>
    show i.token.kind ∉ _
    rw [i.kind_eq]
    cases i.op <;> decide

/-- Comments added twice are added once in order. -/
theorem mapContents_addComments (c c' : List Token) (t : Tree) :
    (t.mapContents (addComments c)).mapContents (addComments c') =
      t.mapContents (addComments (c ++ c')) := by
  cases t
  simp [Tree.mapContents, addComments, Nat.add_assoc]

/-! ## What the parser reads -/

section

variable (compoundLit : TokenKind → ParseM Unit) {tail : List Token}

/-- `m` reads what belongs to the extent `ext` of an operand with `signs`, and may leave comments in
the node that is being built. -/
def ReadsExtent (m : ParseM Tree) (ctx : ParseCtx) (tail : List Token)
    (ext : List (SignItem Level Token) × List (SignItem Level Token)) (signs : List UnarySign)
    (e : Operand) (items : List SignedItem) : Prop :=
  ∃ used remaining t s c, items = used ++ remaining ∧
    ext = (used.map (·.item), remaining.map (·.item)) ∧
    m ctx = .ok t
      { ctx with
        tokens := signedItemTokens remaining tail
        cur := ctx.cur.mapContents (addComments c) } ∧
    SignDenotes t s ∧
    signLevels.Reads (signs.map (·.sign)) e.token (used.map (·.item)) (remaining.map (·.item)) s

/-- What `expression_start` does in front of signs, an operand and `items`. -/
def StartReads (tail : List Token) (signs : List UnarySign) (items : List SignedItem) : Prop :=
  ∀ (ctx : ParseCtx) (n : Nat) (e : Operand),
    ctx.tokens = signTokens signs e (signedItemTokens items tail) → Ends ctx.litDepth tail →
    24 * (signs.length + signedSize items) + 23 ≤ n →
    ReadsExtent (expressionStart compoundLit n) ctx tail
      (signLevels.startExtent (signs.map (·.sign)) (items.map (·.item))) signs e items

/-- What `x_expr_rhs` does there. -/
def RhsReadsSigned (tail : List Token) (signs : List UnarySign) (items : List SignedItem) : Prop :=
  ∀ (ctx : ParseCtx) (n : Nat) (l : Level) (e : Operand),
    ctx.tokens = signTokens signs e (signedItemTokens items tail) → Ends ctx.litDepth tail →
    24 * (signs.length + signedSize items) + 24 ≤ n →
    ReadsExtent (rhsAt compoundLit n l) ctx tail
      (signLevels.extent (signLevels.lower l (signs.map (·.sign))) (items.map (·.item))) signs e
      items

/-- What the loop of `x_expr_rhs` does in front of `items`, after it has read `before`. -/
def LoopReadsSigned (tail : List Token) (items : List SignedItem) : Prop :=
  ∀ (ctx : ParseCtx) (n : Nat) (l : Level) (expr : Tree) (s : SignTree Level Token)
    (signs : List Sign) (x : Token) (before : List (SignItem Level Token)),
    ctx.tokens = signedItemTokens items tail → Ends ctx.litDepth tail →
    24 * signedSize items + 23 ≤ n → SignDenotes expr s →
    signLevels.Reads signs x before (items.map (·.item)) s →
    ∃ used remaining t s', items = used ++ remaining ∧
      signLevels.extent l (items.map (·.item)) = (used.map (·.item), remaining.map (·.item)) ∧
      rhsLoop compoundLit n l expr ctx =
        .ok t { ctx with tokens := signedItemTokens remaining tail } ∧
      SignDenotes t s' ∧
      signLevels.Reads signs x (before ++ used.map (·.item)) (remaining.map (·.item)) s'

/-- A start without signs reads its operand. -/
theorem startReads_nil (items : List SignedItem) : StartReads compoundLit tail [] items := by
  intro ctx n e htoks hend hn
  obtain ⟨n, rfl⟩ : ∃ k, n = k + 2 := ⟨n - 2, by omega⟩
  obtain ⟨t, ht, hden⟩ := expressionStart_spec compoundLit n htoks
    (settled_signedItemTokens hend items) (settled_signedItemTokens hend items).zero
    (signedItemTokens_no_access hend items)
  refine ⟨[], items, t, .leaf e.token, [], rfl, rfl, ?_, .leaf hden, .leaf⟩
  rw [ht, mapContents_addComments_nil]

variable {items : List SignedItem}

/-- A start with a sign reads all that follows as the sign's operand. -/
theorem startReads_cons {s : UnarySign} {signs : List UnarySign}
    (h : RhsReadsSigned compoundLit tail signs items) :
    StartReads compoundLit tail (s :: signs) items := by
  intro ctx n e htoks hend hn
  obtain ⟨n, rfl⟩ : ∃ k, n = k + 1 := ⟨n - 1, by omega⟩
  rw [List.length_cons] at hn
  have hkind := tokKind_eq htoks
  have heof : s.token.kind ≠ .eof := by
    rw [s.kind_eq]
    cases s.sign <;> decide
  have hrest : Settled ctx.litDepth (signTokens signs e (signedItemTokens items tail)) :=
    settled_signTokens signs e _
  have hget : ParseM.get ctx = .ok ctx ctx := rfl
  have hsign := s.kind_eq
  cases hs : s.sign with
  | pos =>
    rw [hs] at hsign
    obtain ⟨c, hc⟩ := consume_spec htoks heof s.gap_blank hrest
    obtain ⟨used, remaining, t, st, c', hitems, hext, hok, hden, hreads⟩ :=
      h { ctx with
          tokens := signTokens signs e (signedItemTokens items tail)
          cur := ctx.cur.mapContents (addComments c) } n .lt e rfl hend (by omega)
    refine ⟨used, remaining, t, st, c ++ c', hitems, ?_, ?_, hden, ?_⟩
    · rw [List.map_cons, hs]
      exact hext
    · rw [expressionStart, ParseM.bind_ok hget, hkind, hsign, ← mapContents_addComments]
      exact (ParseM.bind_ok hc).trans hok
    · rw [List.map_cons, hs]
      exact hreads.pos
  | neg =>
    rw [hs] at hsign
    let q : PNode := { kind := .unaryOp, token := s.token }
    let ctx₁ : ParseCtx :=
      { ctx with
        cur := .node q []
        parents := []
        rootStack := (ctx.cur, ctx.parents) :: ctx.rootStack }
    have htemp : temporaryTree .unaryOp ctx = .ok () ctx₁ := by
      simp [temporaryTree, ParseM.modify, newPNode, tokCur_eq htoks, ctx₁, q]
    have htoks₁ : ctx₁.tokens = s.token :: (s.gap ++ signTokens signs e _) := htoks
    obtain ⟨c, hc⟩ := consume_spec htoks₁ heof s.gap_blank hrest
    obtain ⟨used, remaining, t, st, c', hitems, hext, hok, hden, hreads⟩ :=
      h { ctx₁ with
          tokens := signTokens signs e (signedItemTokens items tail)
          cur := ctx₁.cur.mapContents (addComments c) } n .minus e rfl hend (by omega)
    let kids := (addComments c' (addComments c q)).totalKids
    let node : PNode := { addComments c' (addComments c q) with totalKids := kids + 1 }
    let kid := t.mapContents fun p => { p with siblingId := kids }
    have hkid : SignDenotes kid st := hden.mapContents (fun _ => rfl) (fun _ => rfl) fun _ => rfl
    refine ⟨used, remaining, .node node [kid], .neg st, [], hitems, ?_, ?_,
      .neg rfl rfl hkid, ?_⟩
    · rw [List.map_cons, hs]
      exact hext
    · rw [expressionStart, ParseM.bind_ok hget, hkind, hsign, mapContents_addComments_nil]
      refine (ParseM.bind_ok htemp).trans ((ParseM.bind_ok hc).trans ?_)
      rw [ParseM.bind_ok hok]
      rfl
    · rw [List.map_cons, hs]
      refine hreads.neg ?_
      rw [← List.map_append, ← hitems]
      exact hext

/-- A right-hand side reads its start and goes on with the loop. -/
theorem rhsReads_of_startReads {signs : List UnarySign}
    (hstart : StartReads compoundLit tail signs items)
    (hloop : ∀ items' : List SignedItem, items'.length ≤ items.length →
      LoopReadsSigned compoundLit tail items') :
    RhsReadsSigned compoundLit tail signs items := by
  intro ctx n l e htoks hend hn
  obtain ⟨n, rfl⟩ : ∃ k, n = k + 1 := ⟨n - 1, by omega⟩
  obtain ⟨used, remaining, t, s, c, rfl, hext, hok, hden, hreads⟩ :=
    hstart ctx n e htoks hend (by omega)
  have hsize := signedSize_le_append used remaining
  obtain ⟨used', remaining', t', s', rfl, hext', hok', hden', hreads'⟩ :=
    hloop remaining (by simp)
      { ctx with
        tokens := signedItemTokens remaining tail
        cur := ctx.cur.mapContents (addComments c) } n l t s _ _ _ rfl hend (by omega) hden hreads
  refine ⟨used ++ used', remaining', t', s', c, by simp, ?_, ?_, hden', ?_⟩
  · rw [SignLevels.extent_of_start hext hext', List.map_append]
  · rw [rhsAt, ParseM.bind_ok hok]
    exact hok'
  · rw [List.map_append]
    exact hreads'

/-- A right-hand side reads whatever the loops of shorter items do. -/
theorem rhsReads_of_loopReadsSigned
    (hloop : ∀ items' : List SignedItem, items'.length ≤ items.length →
      LoopReadsSigned compoundLit tail items') (signs : List UnarySign) :
    RhsReadsSigned compoundLit tail signs items := by
  induction signs with
  | nil => exact rhsReads_of_startReads compoundLit (startReads_nil compoundLit items) hloop
  | cons s signs ih =>
    exact rhsReads_of_startReads compoundLit (startReads_cons compoundLit ih) hloop

/-- Without items the loop stops. -/
theorem loopReadsSigned_nil : LoopReadsSigned compoundLit tail [] := by
  intro ctx n l expr s signs x before htoks hend hn hden hreads
  obtain ⟨n, rfl⟩ : ∃ k, n = k + 1 := ⟨n - 1, by omega⟩
  have hkind : ctx.tokKind = (tail.headD eofToken).kind := by
    rw [ParseCtx.tokKind, ParseCtx.tokCur, htoks]
    rfl
  have hnone : exprAt compoundLit n l ctx = .ok none ctx := by
    refine exprAt_none compoundLit (hkind ▸ hend.not_not) ?_ (by simp [signedSize] at hn; omega)
    intro m _
    exact hkind ▸ hend.not_op m
  refine ⟨[], [], expr, s, rfl, rfl, ?_, hden, ?_⟩
  · rw [rhsLoop, ParseM.bind_ok hnone, ← htoks]
    rfl
  · rw [List.map_nil, List.append_nil]
    exact hreads

/-- With an item the loop reads it and goes on with the rest. -/
theorem loopReadsSigned_cons {i : SignedItem}
    (ih : ∀ items' : List SignedItem, items'.length ≤ items.length →
      LoopReadsSigned compoundLit tail items') :
    LoopReadsSigned compoundLit tail (i :: items) := by
  intro ctx n l expr s signs x before htoks hend hn hden hreads
  simp only [signedSize] at hn
  obtain ⟨n, rfl⟩ : ∃ k, n = k + 1 := ⟨n - 1, by omega⟩
  have hkind : ctx.tokKind = i.op.token := (tokKind_eq htoks).trans i.kind_eq
  by_cases hl : l ≤ i.op
  · -- The right operand is read at the level of the operator, with the signs in front of it.
    obtain ⟨d, hd⟩ : ∃ d, l.rank + d = i.op.rank := ⟨i.op.rank - l.rank, by
      have := (Level.le_def _ _).mp hl
      omega⟩
    have hd18 : d < 18 := by have := i.op.rank_lt; omega
    obtain ⟨k, rfl⟩ : ∃ k, n = k + 1 + d := ⟨n - 1 - d, by omega⟩
    obtain ⟨rest', p, r, kids, hexpr, hpkind, hpop, used, remaining, sr, hitems, rfl, hext, hdenr,
        hreadsr⟩ :=
      exprAt_node (Q := fun rest' r => ∃ used remaining sr, items = used ++ remaining ∧
          rest' = signedItemTokens remaining tail ∧
          signLevels.extent (signLevels.lower i.op i.item.signs) (items.map (·.item)) =
            (used.map (·.item), remaining.map (·.item)) ∧
          SignDenotes r sr ∧
          signLevels.Reads i.item.signs i.item.operand (used.map (·.item))
            (remaining.map (·.item)) sr)
        compoundLit i.kind_eq htoks i.gap_blank (settled_signTokens i.signs i.operand _) (by
          intro ctx' htoks' hdepth
          obtain ⟨used, remaining, t, s, c, hitems, hext, hok, hden, hreads⟩ :=
            rhsReads_of_loopReadsSigned compoundLit ih i.signs ctx' k i.op i.operand htoks'
              (hdepth ▸ hend) (by omega)
          exact ⟨_, t, c, hok, used, remaining, s, hitems, rfl, hext, hden, hreads⟩)
    rw [← exprAt_descend compoundLit hkind hd] at hexpr
    have hsize := signedSize_le_append used remaining
    subst hitems
    rw [List.map_append] at hext
    -- The loop goes on with the operator in front of what it had.
    have hbin : signLevels.Reads signs x (before ++ i.item :: used.map (·.item))
        (remaining.map (·.item)) (.bin i.op s sr) := by
      rw [List.map_cons, List.map_append] at hreads
      exact hreads.bin hreadsr hext
    obtain ⟨used', remaining', t, s', rfl, hext', hok, hden', hreads'⟩ :=
      ih remaining (by simp) { ctx with tokens := signedItemTokens remaining tail } (k + 1 + d) l
        _ (.bin i.op s sr) signs x _ rfl hend (by omega)
        (SignDenotes.bin (p := p) hpkind hpop hden
          (hdenr.mapContents (f := fun q => { q with siblingId := kids }) (fun _ => rfl)
            (fun _ => rfl) fun _ => rfl)) hbin
    refine ⟨i :: (used ++ used'), remaining', t, s', by simp, ?_, ?_, hden', ?_⟩
    · have hjoin := SignLevels.extent_join hext hext'
      rw [← SignLevels.lower_min, min_eq_left hl] at hjoin
      rw [List.map_cons, List.map_cons, List.map_append, @List.map_append _ _ _ used]
      exact SignLevels.extent_take hl hjoin
    · rw [rhsLoop, ParseM.bind_ok hexpr]
      exact hok
    · rw [List.map_cons, List.map_append]
      simpa using hreads'
  · have hnone : exprAt compoundLit n l ctx = .ok none ctx := by
      refine exprAt_none compoundLit ?_ ?_ (by omega)
      · rw [hkind]
        cases i.op <;> decide
      · intro m hm h
        have := Level.token_injective (hkind.symm.trans h)
        exact hl (this ▸ hm)
    refine ⟨[], i :: items, expr, s, rfl, SignLevels.extent_stop (not_le.mp hl), ?_, hden, ?_⟩
    · rw [rhsLoop, ParseM.bind_ok hnone, ← htoks]
      rfl
    · rw [List.map_nil, List.append_nil]
      exact hreads

/-- The loop reads any signed items. -/
theorem loopReadsSigned (tail : List Token) (items : List SignedItem) :
    LoopReadsSigned compoundLit tail items := by
  match items with
  | [] => exact loopReadsSigned_nil compoundLit
  | i :: items =>
    exact loopReadsSigned_cons compoundLit fun items' hlen => loopReadsSigned tail items'
termination_by items.length
decreasing_by simp; omega

/-- A right-hand side reads any signs and signed items. -/
theorem rhsReadsSigned (signs : List UnarySign) (items : List SignedItem) :
    RhsReadsSigned compoundLit tail signs items :=
  rhsReads_of_loopReadsSigned compoundLit (fun items' _ => loopReadsSigned compoundLit tail items')
    signs

end

/-! ## Whole expressions -/

section

variable (compoundLit : TokenKind → ParseM Unit)
variable {ctx : ParseCtx} {n : Nat} {signs : List UnarySign} {e : Operand}
  {items : List SignedItem} {tail : List Token}

/-- In the tree of the sequence no unary `-` has an operator of the level of `-` or a looser one in
its operand, and it is also the tree of the sequence without the unary `+`. -/
def SignsBindTight (n : Nat) (ctx : ParseCtx) (signs : List UnarySign) (e : Operand)
    (items : List SignedItem) (tail : List Token) : Prop :=
  ∃ t t' s ctx₁ ctx₂, expression compoundLit n ctx = .ok t ctx₁ ∧ ctx₁.tokens = tail ∧
    SignDenotes t s ∧ s.NegTight .minus ∧
    expression compoundLit n
      { ctx with
        tokens := signTokens (minuses signs) e
          (signedItemTokens (items.map SignedItem.withoutPlus) tail) } = .ok t' ctx₂ ∧
    ctx₂.tokens = tail ∧ SignDenotes t' s

/-- The expression parser reads any sequence of signed operands to the tree the signs give. -/
theorem expression_signed (htoks : ctx.tokens = signTokens signs e (signedItemTokens items tail))
    (hend : Ends ctx.litDepth tail) (hn : 24 * (signs.length + signedSize items) + 24 ≤ n) :
    ∃ t s ctx₁, expression compoundLit n ctx = .ok t ctx₁ ∧ ctx₁.tokens = tail ∧
      SignDenotes t s ∧
      signLevels.Reads (signs.map (·.sign)) e.token (items.map (·.item)) [] s := by
  obtain ⟨used, remaining, t, s, c, rfl, hext, hok, hden, hreads⟩ :=
    rhsReadsSigned compoundLit signs items ctx n .or e htoks hend hn
  -- No operator is looser than `or`.
  obtain rfl : remaining = [] := by
    have hor : ∀ l : Level, Level.or ≤ l := fun l => Nat.zero_le _
    have hlow : signLevels.lower .or (signs.map (·.sign)) = .or :=
      SignLevels.lower_eq_of_forall_le hor _
    rw [hlow, SignLevels.extent_of_forall_le hor] at hext
    exact List.map_eq_nil_iff.mp (Prod.mk.inj hext).2.symm
  rw [List.append_nil]
  exact ⟨t, s, _, hok, rfl, hden, hreads⟩

/-- **Unary signs bind tighter than addition exactly when** after every unary `-` the first operator
that is not tighter than the binary `-` is looser than it (than `<`, when there is a unary `+` in
between), and after every operator and every unary `-` the first operator that is looser than it (or
than `-`, when there is a unary `-` in between) is looser than `<` when there is a unary `+` in
between. -/
theorem signsBindTight_iff (htoks : ctx.tokens = signTokens signs e (signedItemTokens items tail))
    (hend : Ends ctx.litDepth tail) (hn : 24 * (signs.length + signedSize items) + 24 ≤ n) :
    SignsBindTight compoundLit n ctx signs e items tail ↔
      signLevels.AllNegStop (signs.map (·.sign)) (items.map (·.item)) ∧
        signLevels.AllPosStop (signs.map (·.sign)) (items.map (·.item)) := by
  obtain ⟨t, s, ctx₁, hok, htail, hden, hreads⟩ := expression_signed compoundLit htoks hend hn
  have hlen : (minuses signs).length ≤ signs.length := List.length_filter_le _ _
  have hsize := signedSize_withoutPlus items
  let ctx' := { ctx with
    tokens := signTokens (minuses signs) e
      (signedItemTokens (items.map SignedItem.withoutPlus) tail) }
  have htoks' : ctx'.tokens = signTokens (minuses signs) e
      (signedItemTokens (items.map SignedItem.withoutPlus) tail) := rfl
  obtain ⟨t', s', ctx₂, hok', htail', hden', hreads'⟩ :=
    expression_signed compoundLit (n := n) htoks' hend (by omega)
  have hitems : (items.map SignedItem.withoutPlus).map (·.item) =
      (items.map (·.item)).map SignLevels.strip := by
    rw [List.map_map, List.map_map]
    exact List.map_congr_left fun i _ => item_withoutPlus i
  rw [map_sign_minuses, hitems] at hreads'
  rw [← hreads.negTight_iff, ← hreads.eq_iff hreads']
  constructor
  · rintro ⟨u, u', r, ctx₃, ctx₄, hu, -, hdenu, htight, hu', -, hdenu'⟩
    -- One run returns one tree, and a tree denotes one sign tree.
    obtain ⟨rfl, -⟩ := Outcome.ok.inj (hok.symm.trans hu)
    obtain ⟨rfl, -⟩ := Outcome.ok.inj (hok'.symm.trans hu')
    obtain rfl : s = r := hden.unique hdenu
    exact ⟨htight, hdenu'.unique hden'⟩
  · rintro ⟨htight, rfl⟩
    exact ⟨t, t', s, ctx₁, ctx₂, hok, htail, hden, htight, hok', htail', hden'⟩

end

/-! ## `+x * -a + b` and `-a - b` -/

def bareSign (sign : Sign) : UnarySign where
  sign := sign
  token := { kind := signToken sign }
  gap := []
  kind_eq := rfl
  gap_blank := isBlank_of_mem_nil

/-- An operator and signs in front of an identifier, without blanks. -/
def signedNameItem (op : Level) (signs : List Sign) (name : String) : SignedItem where
  op := op
  token := { kind := op.token }
  gap := []
  signs := signs.map bareSign
  operand := nameOperand name
  kind_eq := kind_opToken op
  gap_blank := isBlank_of_mem_nil

/-- A stream with nothing after the sequence. -/
def signedCtx (signs : List UnarySign) (e : Operand) (items : List SignedItem) : ParseCtx where
  tokens := signTokens signs e (signedItemTokens items [])
  cur := .node { kind := .expression, token := eofToken } []

theorem signsBindTight_times_minus_plus :
    SignsBindTight (fun _ => ParseM.pure ()) 120
      (signedCtx [bareSign .pos] (nameOperand "x")
        [signedNameItem .mul [.neg] "a", signedNameItem .plus [] "b"])
      [bareSign .pos] (nameOperand "x")
      [signedNameItem .mul [.neg] "a", signedNameItem .plus [] "b"] [] :=
  (signsBindTight_iff _ rfl ends_nil (by decide)).mpr (by decide)

/-- `-a - b` is `-(a - b)`. -/
theorem not_signsBindTight_minus_minus :
    ¬ SignsBindTight (fun _ => ParseM.pure ()) 72
      (signedCtx [bareSign .neg] (nameOperand "a") [signedNameItem .minus [] "b"])
      [bareSign .neg] (nameOperand "a") [signedNameItem .minus [] "b"] [] := by
  rintro ⟨t, -, s, ctx₁, -, hok, -, hden, htight, -⟩
  have htoks : (signedCtx [bareSign .neg] (nameOperand "a") [signedNameItem .minus [] "b"]).tokens =
      signTokens [bareSign .neg] (nameOperand "a")
        (signedItemTokens [signedNameItem .minus [] "b"] []) := rfl
  obtain ⟨t', s', ctx₂, hok', -, hden', hreads⟩ :=
    expression_signed (fun _ => ParseM.pure ()) (n := 72) htoks ends_nil (by decide)
  obtain ⟨rfl, -⟩ := Outcome.ok.inj (hok'.symm.trans hok)
  obtain rfl : s' = s := hden'.unique hden
  exact absurd (hreads.negTight_iff.mp htight) (by decide)

end N00b.Parse
