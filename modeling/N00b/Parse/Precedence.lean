import N00b.Lib.OpTree
import N00b.Parse.Expression

/-!
# How expressions group

For a sequence `e₀ op₁ e₁ … opₙ eₙ` of operands of one token and binary operators, `expression`
returns a tree of its operands and operators in order, in which no operator stands above a looser
one. Equal operators group to the right: the right operand of `x_expr` is parsed at the level of
`x` itself, so it takes the operators of that level that follow, and the loop of `x_expr_rhs`
only ever sees looser ones.
-/

namespace N00b.Parse

open N00b.Lib

/-! ## Sequences of operands and operators -/

def operandKinds : List TokenKind :=
  [.intLit, .hexLit, .floatLit, .stringLit, .charLit, .true, .false, .nil, .unquotedLit,
    .identifier]

/-- The tokens that `consume` always passes over. -/
def isBlank (k : TokenKind) : Bool := k = .space || k = .lineComment || k = .longComment

structure Operand where
  token : Token
  gap : List Token
  kind_mem : token.kind ∈ operandKinds
  gap_blank : ∀ t ∈ gap, isBlank t.kind

/-- An operator with its right operand. -/
structure OpItem where
  op : Level
  token : Token
  gap : List Token
  operand : Operand
  kind_eq : token.kind = op.token
  gap_blank : ∀ t ∈ gap, isBlank t.kind

def itemTokens : List OpItem → List Token → List Token
  | [], tail => tail
  | i :: items, tail =>
    i.token :: (i.gap ++ (i.operand.token :: (i.operand.gap ++ itemTokens items tail)))

def seqTokens (e : Operand) (items : List OpItem) (tail : List Token) : List Token :=
  e.token :: (e.gap ++ itemTokens items tail)

/-- `consume` stops in front of `ts`. -/
def Settled (litDepth : Nat) (ts : List Token) : Prop :=
  isBlank (ts.headD eofToken).kind = false ∧
    ((ts.headD eofToken).kind = .newline → litDepth = 0)

theorem Settled.zero {d : Nat} {ts : List Token} (h : Settled d ts) : Settled 0 ts :=
  ⟨h.1, fun _ => rfl⟩

/-- What follows the sequence does not continue the expression. -/
structure Ends (litDepth : Nat) (tail : List Token) : Prop where
  settled : Settled litDepth tail
  not_op : ∀ l : Level, (tail.headD eofToken).kind ≠ l.token
  not_not : (tail.headD eofToken).kind ≠ .not
  no_access : (tail.headD eofToken).kind ∉ [TokenKind.period, .lbracket, .lparen]

/-! ## Trees as operator trees -/

/-- `t` is a parse tree of the operator tree: an operand is an `expression` node over the literal
or the identifier, an operator is a node with the kind and the operator code of its level. -/
inductive Denotes : Tree → OpTree Level Token → Prop
  | leaf {p : PNode} {kid : Tree} (hp : p.kind = .expression)
      (hkind : kid.contents.kind ∈ [NodeKind.simpleLit, .litUnquoted, .identifier, .litTspec])
      (htoken : kid.contents.token = p.token) : Denotes (.node p [kid]) (.leaf p.token)
  | bin {p : PNode} {o : Level} {l r : Tree} {s s' : OpTree Level Token}
      (hkind : p.kind = o.nodeKind) (hop : p.extraInfo = o.op)
      (hl : Denotes l s) (hr : Denotes r s') : Denotes (.node p [l, r]) (.bin o s s')

theorem Level.eq_of_node {a b : Level} (hkind : a.nodeKind = b.nodeKind) (hop : a.op = b.op) :
    a = b := by
  cases a <;> cases b <;> first | rfl | (exact absurd hkind (by decide)) |
    (exact absurd hop (by decide))

/-- A tree of the parser denotes one tree of operators. -/
theorem Denotes.unique {t : Tree} {s₁ s₂ : OpTree Level Token} (h₁ : Denotes t s₁)
    (h₂ : Denotes t s₂) : s₁ = s₂ := by
  induction h₁ generalizing s₂ with
  | leaf => cases h₂; rfl
  | bin hkind hop _ _ ihl ihr =>
    cases h₂ with
    | bin hkind' hop' hl' hr' =>
      rw [ihl hl', ihr hr', Level.eq_of_node (hkind.symm.trans hkind') (hop.symm.trans hop')]

/-- What is added to the nodes does not change what they denote. -/
theorem Denotes.mapContents {t : Tree} {s : OpTree Level Token} {f : PNode → PNode}
    (h : Denotes t s) (hk : ∀ p, (f p).kind = p.kind) (ht : ∀ p, (f p).token = p.token)
    (he : ∀ p, (f p).extraInfo = p.extraInfo) : Denotes (t.mapContents f) s := by
  cases h with
  | leaf hp hkind htoken =>
    rw [← ht]
    exact .leaf ((hk _).trans hp) hkind (htoken.trans (ht _).symm)
  | bin hkind hop hl hr => exact .bin ((hk _).trans hkind) ((he _).trans hop) hl hr

/-- What `x_expr` returns: the operator node with its right operand only. -/
def HalfDenotes (o : Level) (t : Tree) (s : OpTree Level Token) : Prop :=
  ∃ p r, t = .node p [r] ∧ p.kind = o.nodeKind ∧ p.extraInfo = o.op ∧ Denotes r s

/-- A right side that adopts its left operand denotes the whole. -/
theorem HalfDenotes.adoptAndPrepend {o : Level} {t expr : Tree} {s s' : OpTree Level Token}
    (h : HalfDenotes o t s') (he : Denotes expr s) :
    Denotes (t.adoptAndPrepend expr) (.bin o s s') := by
  obtain ⟨p, r, rfl, hkind, hop, hr⟩ := h
  exact .bin hkind hop he hr

/-! ## Consuming a token -/

/-- Where nothing is to be skipped nothing is. -/
theorem Settled.skipTrivia_eq {d : Nat} {ts : List Token} (h : Settled d ts) :
    skipTrivia d ts = ([], ts) := by
  obtain ⟨hblank, hnewline⟩ := h
  cases ts with
  | nil => rfl
  | cons t rest =>
    simp only [isBlank, List.headD_cons, Bool.or_eq_false_iff]
      at hblank hnewline
    obtain ⟨⟨hspace, hline⟩, hlong⟩ := hblank
    simp only [skipTrivia]
    split <;> simp_all

/-- Blanks in front of something else are skipped. -/
theorem skipTrivia_gap {d : Nat} {gap rest : List Token} (hgap : ∀ t ∈ gap, isBlank t.kind)
    (hrest : Settled d rest) : (skipTrivia d (gap ++ rest)).2 = rest := by
  induction gap with
  | nil => rw [List.nil_append, hrest.skipTrivia_eq]
  | cons t gap ih =>
    have ht : isBlank t.kind := hgap t (by simp)
    have ih := ih fun a ha => hgap a (List.mem_cons_of_mem t ha)
    simp only [isBlank, Bool.or_eq_true, decide_eq_true_eq] at ht
    rcases ht with (ht | ht) | ht <;> simpa [skipTrivia, ht] using ih

/-- No blank stands in front of an operator, or of the end. -/
theorem settled_itemTokens {d : Nat} {tail : List Token} (hend : Ends d tail) :
    ∀ items : List OpItem, Settled d (itemTokens items tail)
  | [] => hend.settled
  | i :: items => by
    show isBlank i.token.kind = false ∧ (i.token.kind = .newline → d = 0)
    rw [i.kind_eq]
    cases i.op <;> simp [isBlank, Level.token]

/-- A token is consumed with the blanks behind it. -/
theorem consume_spec {ctx : ParseCtx} {t : Token} {gap rest : List Token}
    (htoks : ctx.tokens = t :: (gap ++ rest)) (ht : t.kind ≠ .eof)
    (hgap : ∀ t ∈ gap, isBlank t.kind) (hrest : Settled ctx.litDepth rest) :
    ∃ c, consume ctx =
      .ok () { ctx with tokens := rest, cur := ctx.cur.mapContents (addComments c) } := by
  refine ⟨(skipTrivia ctx.litDepth (gap ++ rest)).1, ?_⟩
  have hskip := skipTrivia_gap hgap hrest
  simp only [consume, ParseM.modify, htoks, rawAdvance, if_neg ht, hskip]

/-! ## Operands -/

/-- `m` reads the token `t` and makes it the only child of the node `p` that is being built. -/
def ReadsOperand (m : ParseM Unit) (ctx : ParseCtx) (p : PNode) (t : Token) (rest : List Token) :
    Prop :=
  ∃ p' kid, m ctx = .ok () { ctx with tokens := rest, cur := .node p' [kid] } ∧
    p'.kind = p.kind ∧ p'.token = p.token ∧
    kid.contents.kind ∈ [NodeKind.simpleLit, .litUnquoted, .identifier, .litTspec] ∧
    kid.contents.token = t

section

variable (compoundLit : TokenKind → ParseM Unit)
variable {ctx : ParseCtx} {p : PNode} {t : Token} {gap rest : List Token}

theorem tokCur_eq (htoks : ctx.tokens = t :: (gap ++ rest)) : ctx.tokCur = t := by
  simp [ParseCtx.tokCur, htoks]

theorem tokKind_eq (htoks : ctx.tokens = t :: (gap ++ rest)) : ctx.tokKind = t.kind := by
  rw [ParseCtx.tokKind, tokCur_eq htoks]

/-- A node begins with the token that is consumed. -/
theorem startNode_spec (kind : NodeKind) (htoks : ctx.tokens = t :: (gap ++ rest))
    (hcur : ctx.cur = .node p []) (ht : t.kind ≠ .eof) (hgap : ∀ t ∈ gap, isBlank t.kind)
    (hrest : Settled ctx.litDepth rest) :
    ∃ c, startNode kind true ctx = .ok ()
      { ctx with
        tokens := rest
        cur := .node { kind, token := t } []
        parents := .node (addComments c p) [] :: ctx.parents } := by
  obtain ⟨c, hc⟩ := consume_spec htoks ht hgap hrest
  have hnode : newPNode ctx kind = { kind, token := t } := by rw [newPNode, tokCur_eq htoks]
  refine ⟨c, ?_⟩
  simp [startNode, Bind.bind, ParseM.bind, ParseM.get, ParseM.modify, hc, hnode, hcur,
    Tree.mapContents]

/-- A node of one token is read. -/
theorem tokenNode_reads {kind : NodeKind} (hkind : kind ∈ [NodeKind.simpleLit, .litUnquoted])
    (htoks : ctx.tokens = t :: (gap ++ rest)) (hcur : ctx.cur = .node p [])
    (ht : t.kind ≠ .eof) (hgap : ∀ t ∈ gap, isBlank t.kind) (hrest : Settled ctx.litDepth rest) :
    ReadsOperand (do startNode kind true; endNode) ctx p t rest := by
  obtain ⟨c, hc⟩ := startNode_spec kind htoks hcur ht hgap hrest
  refine ⟨addComments c p, .node { kind, token := t } [], ?_, rfl, rfl, ?_, rfl⟩
  · rw [ParseM.bind_ok hc]
    rfl
  · exact List.mem_append_left [NodeKind.identifier, .litTspec] hkind

/-- A type that is an operand is read as one. -/
theorem typeSpec_reads (htoks : ctx.tokens = t :: (gap ++ rest)) (hcur : ctx.cur = .node p [])
    (ht : t.kind ≠ .eof) (hgap : ∀ t ∈ gap, isBlank t.kind) (hrest : Settled ctx.litDepth rest)
    (hrest₀ : Settled 0 rest) (hpost : (rest.headD eofToken).kind ≠ .lbracket) :
    ReadsOperand (typeSpec compoundLit) ctx p t rest := by
  -- `consume` runs under the new `lit_tspec` node, so the comments stay there.
  let spec : PNode := { kind := .litTspec, token := t }
  let ctx₁ : ParseCtx := { ctx with cur := .node spec [], parents := .node p [] :: ctx.parents }
  have hstart : startNode .litTspec false ctx = .ok () ctx₁ := by
    simp [startNode, Bind.bind, ParseM.bind, ParseM.get, ParseM.modify, newPNode,
      tokCur_eq htoks, hcur, ctx₁, spec]
  have hlook : lookahead ctx₁ ≠ .lbracket := by
    have hskip := skipTrivia_gap hgap hrest₀
    simp only [lookahead, ctx₁, htoks, rawAdvance, if_neg ht, hskip]
    exact hpost
  have htoks₁ : ctx₁.tokens = t :: (gap ++ rest) := htoks
  obtain ⟨c, hc⟩ := startNode_spec .litTspecNamedType htoks₁ rfl ht hgap hrest
  refine ⟨p, .node (addComments c spec) [.node { kind := .litTspecNamedType, token := t } []],
    ?_, rfl, rfl, by simp [Tree.contents, addComments, spec], rfl⟩
  have hget : ParseM.get ctx₁ = .ok ctx₁ ctx₁ := rfl
  rw [typeSpec, ParseM.bind_ok hstart, ParseM.bind_ok hget, if_pos hlook, ParseM.bind_ok hc]
  rfl

/-- **A literal** is read as one operand. -/
theorem literal_reads (htoks : ctx.tokens = t :: (gap ++ rest)) (hcur : ctx.cur = .node p [])
    (ht : t.kind ∈ operandKinds) (hid : t.kind = .identifier → identifierIsBuiltinType ctx = true)
    (hgap : ∀ t ∈ gap, isBlank t.kind) (hrest : Settled ctx.litDepth rest)
    (hrest₀ : Settled 0 rest) (hpost : (rest.headD eofToken).kind ≠ .lbracket) :
    ReadsOperand (literal compoundLit) ctx p t rest := by
  have hkind := tokKind_eq htoks
  have heof : t.kind ≠ .eof := by
    intro h
    rw [h] at ht
    exact absurd ht (by decide)
  simp only [operandKinds, List.mem_cons, List.not_mem_nil, or_false] at ht
  by_cases hi : t.kind = .identifier
  · have h : literal compoundLit ctx = typeSpec compoundLit ctx := by
      simp [literal, Bind.bind, ParseM.bind, ParseM.get, hkind, hi, hid hi]
    have hreads := typeSpec_reads compoundLit htoks hcur heof hgap hrest hrest₀ hpost
    rwa [ReadsOperand, ← h] at hreads
  by_cases hu : t.kind = .unquotedLit
  · have h : literal compoundLit ctx = unquotedLit ctx := by
      simp [literal, Bind.bind, ParseM.bind, ParseM.get, hkind, hu]
    have hreads : ReadsOperand unquotedLit ctx p t rest :=
      tokenNode_reads (by decide) htoks hcur heof hgap hrest
    rwa [ReadsOperand, ← h] at hreads
  · have h : literal compoundLit ctx = simpleLit ctx := by
      rcases ht with ht | ht | ht | ht | ht | ht | ht | ht | ht | ht <;>
        first | contradiction | simp [literal, Bind.bind, ParseM.bind, ParseM.get, hkind, ht]
    have h' : simpleLit ctx = (do startNode .simpleLit true; endNode) ctx := by
      rcases ht with ht | ht | ht | ht | ht | ht | ht | ht | ht | ht <;>
        first | contradiction | simp [simpleLit, Bind.bind, ParseM.bind, ParseM.get, hkind, ht]
    have hreads : ReadsOperand (do startNode .simpleLit true; endNode) ctx p t rest :=
      tokenNode_reads (by decide) htoks hcur heof hgap hrest
    rwa [ReadsOperand, ← h', ← h] at hreads

/-- A name that nothing is accessed of is read as one operand. -/
theorem accessExpr_reads (n : Nat) (htoks : ctx.tokens = t :: (gap ++ rest))
    (hcur : ctx.cur = .node p []) (ht : t.kind ≠ .eof) (hgap : ∀ t ∈ gap, isBlank t.kind)
    (hrest : Settled ctx.litDepth rest)
    (hpost : (rest.headD eofToken).kind ∉ [TokenKind.period, .lbracket, .lparen]) :
    ReadsOperand (accessExpr compoundLit (n + 1)) ctx p t rest := by
  let ctx₁ : ParseCtx :=
    { ctx with
      cur := .node { kind := .identifier, token := t } []
      parents := []
      rootStack := (.node p [], ctx.parents) :: ctx.rootStack }
  have htemp : temporaryTree .identifier ctx = .ok () ctx₁ := by
    simp [temporaryTree, ParseM.modify, newPNode, tokCur_eq htoks, hcur, ctx₁]
  have htoks₁ : ctx₁.tokens = t :: (gap ++ rest) := htoks
  obtain ⟨c, hc⟩ := consume_spec htoks₁ ht hgap hrest
  let lhs : Tree := .node (addComments c { kind := .identifier, token := t }) []
  have hc : consume ctx₁ = .ok () { ctx₁ with tokens := rest, cur := lhs } := hc
  let ctx₂ : ParseCtx := { ctx with tokens := rest, cur := .node p [] }
  refine ⟨{ p with totalKids := p.totalKids + 1 },
    lhs.mapContents fun q => { q with siblingId := p.totalKids }, ?_, rfl, rfl,
    by simp [lhs, Tree.mapContents, Tree.contents, addComments], rfl⟩
  have hrestore : restoreTree { ctx₁ with tokens := rest, cur := lhs } = .ok lhs ctx₂ := rfl
  have hget : ParseM.get ctx₂ = .ok ctx₂ ctx₂ := rfl
  rw [accessExpr, ParseM.bind_ok htemp, ParseM.bind_ok hc, ParseM.bind_ok hrestore,
    ParseM.bind_ok hget]
  simp only [List.mem_cons, List.not_mem_nil, or_false, not_or] at hpost
  have hkind : ctx₂.tokKind = (rest.headD eofToken).kind := rfl
  rw [hkind]
  refine (congrFun (g := adoptKid (some lhs)) ?_ ctx₂).trans rfl
  split
  next h => exact absurd h hpost.1
  next h => exact absurd h hpost.2.1
  next h => exact absurd h hpost.2.2
  next => rfl

/-- **An operand** is read up to the operator behind it. -/
theorem expressionStart_spec {e : Operand} (n : Nat)
    (htoks : ctx.tokens = e.token :: (e.gap ++ rest)) (hrest : Settled ctx.litDepth rest)
    (hrest₀ : Settled 0 rest)
    (hpost : (rest.headD eofToken).kind ∉ [TokenKind.period, .lbracket, .lparen]) :
    ∃ tree, expressionStart compoundLit (n + 2) ctx = .ok tree { ctx with tokens := rest } ∧
      Denotes tree (.leaf e.token) := by
  let q : PNode := { kind := .expression, token := e.token }
  let ctx₁ : ParseCtx :=
    { ctx with
      cur := .node q []
      parents := []
      rootStack := (ctx.cur, ctx.parents) :: ctx.rootStack }
  have htemp : temporaryTree .expression ctx = .ok () ctx₁ := by
    simp [temporaryTree, ParseM.modify, newPNode, tokCur_eq htoks, ctx₁, q]
  have heof : e.token.kind ≠ .eof := by
    intro h
    have := e.kind_mem
    rw [h] at this
    exact absurd this (by decide)
  -- The literal and the identifier branch differ in the function that reads the token only.
  have hfinish : ∀ m : ParseM Unit, ReadsOperand m ctx₁ q e.token rest →
      expressionStart compoundLit (n + 2) ctx =
        (do temporaryTree .expression; m; restoreTree) ctx →
      ∃ tree, expressionStart compoundLit (n + 2) ctx = .ok tree { ctx with tokens := rest } ∧
        Denotes tree (.leaf e.token) := by
    intro m hm heq
    obtain ⟨p', kid, hok, hk, ht, hkid, hkt⟩ := hm
    refine ⟨.node p' [kid], ?_, ?_⟩
    · rw [heq, ParseM.bind_ok htemp, ParseM.bind_ok hok]
      rfl
    · rw [show e.token = p'.token from ht.symm]
      exact .leaf hk hkid (hkt.trans ht.symm)
  have hkind := tokKind_eq htoks
  have hmem := e.kind_mem
  by_cases hid : e.token.kind = .identifier ∧ identifierIsBuiltinType ctx = false
  · refine hfinish _ (accessExpr_reads compoundLit n htoks rfl heof e.gap_blank hrest hpost) ?_
    rw [expressionStart]
    simp [Bind.bind, ParseM.bind, ParseM.get, hkind, hid.1, hid.2]
  · have hb : e.token.kind = .identifier → identifierIsBuiltinType ctx = true := by
      intro h
      simpa using fun h' => hid ⟨h, h'⟩
    have hlb : (rest.headD eofToken).kind ≠ .lbracket := fun h => hpost (by rw [h]; decide)
    refine hfinish _ (literal_reads compoundLit htoks rfl e.kind_mem hb e.gap_blank hrest hrest₀
      hlb) ?_
    rw [expressionStart]
    simp only [operandKinds, List.mem_cons, List.not_mem_nil, or_false] at hmem
    rcases hmem with h | h | h | h | h | h | h | h | h | h <;>
      simp [Bind.bind, ParseM.bind, ParseM.get, hkind, h, hb]

end

/-! ## The chain of levels -/

theorem Level.token_injective : Function.Injective Level.token := by
  intro a b h
  cases a <;> cases b <;> first | rfl | exact absurd h (by decide)

theorem Level.rank_of_next {l l' : Level} (h : l.next = some l') : l'.rank = l.rank + 1 := by
  cases l <;> cases l' <;> first | rfl | exact absurd h (by decide)

theorem Level.rank_of_next_none {l : Level} (h : l.next = none) : l.rank = 17 := by
  cases l <;> first | rfl | exact absurd h (by decide)

section

variable (compoundLit : TokenKind → ParseM Unit) {ctx : ParseCtx}

/-- Where no operator of a level comes, its function returns nothing. -/
theorem exprAt_none (hnot : ctx.tokKind ≠ .not) :
    ∀ {n : Nat} {l : Level}, (∀ m : Level, l ≤ m → ctx.tokKind ≠ m.token) → 18 ≤ n + l.rank →
      exprAt compoundLit n l ctx = .ok none ctx
  | 0, l, _, hn => absurd l.rank_lt (by omega)
  | n + 1, l, hops, hn => by
    have hget : ParseM.get ctx = .ok ctx ctx := rfl
    rw [exprAt, ParseM.bind_ok hget, if_neg (hops l le_rfl)]
    cases hnext : l.next with
    | none => simp [notExpr, Bind.bind, ParseM.bind, ParseM.get, hnot, Pure.pure, ParseM.pure]
    | some l' =>
      have hrank := Level.rank_of_next hnext
      have hle : l ≤ l' := by rw [Level.le_def]; omega
      exact exprAt_none hnot (fun m hm => hops m (hle.trans hm)) (by omega)

/-- A function goes down to the level of the operator that comes. -/
theorem exprAt_descend {m : Level} (hm : ctx.tokKind = m.token) :
    ∀ {d n : Nat} {l : Level}, l.rank + d = m.rank →
      exprAt compoundLit (n + d) l ctx = exprAt compoundLit n m ctx
  | 0, n, l, hd => by
    have hlm : l = m := Level.rank_injective hd
    rw [hlm, Nat.add_zero]
  | d + 1, n, l, hd => by
    have hne : ctx.tokKind ≠ l.token := by
      intro h
      have := congrArg Level.rank (Level.token_injective (h.symm.trans hm))
      omega
    have hget : ParseM.get ctx = .ok ctx ctx := rfl
    rw [← Nat.add_assoc, exprAt, ParseM.bind_ok hget, if_neg hne]
    cases hnext : l.next with
    | none =>
      have := Level.rank_of_next_none hnext
      have := m.rank_lt
      omega
    | some l' =>
      have := Level.rank_of_next hnext
      exact exprAt_descend hm (by omega)

/-- At its own level it reads the operator and its right side. -/
theorem exprAt_node {m : Level} {n : Nat} {t : Token} {gap rest : List Token}
    {Q : List Token → Tree → Prop} (hm : t.kind = m.token)
    (htoks : ctx.tokens = t :: (gap ++ rest)) (hgap : ∀ t ∈ gap, isBlank t.kind)
    (hrest : Settled ctx.litDepth rest)
    (hrhs : ∀ ctx' : ParseCtx, ctx'.tokens = rest → ctx'.litDepth = ctx.litDepth →
      ∃ rest' r c, rhsAt compoundLit n m ctx' =
        .ok r { ctx' with tokens := rest', cur := ctx'.cur.mapContents (addComments c) } ∧
        Q rest' r) :
    ∃ rest' p r k, exprAt compoundLit (n + 1) m ctx =
        .ok (some (.node p [r.mapContents fun q => { q with siblingId := k }]))
          { ctx with tokens := rest' } ∧
      p.kind = m.nodeKind ∧ p.extraInfo = m.op ∧ Q rest' r := by
  have hkind : ctx.tokKind = m.token := (tokKind_eq htoks).trans hm
  have heof : t.kind ≠ .eof := by rw [hm]; cases m <;> decide
  let q : PNode := { kind := m.nodeKind, token := t }
  let ctx₁ : ParseCtx :=
    { ctx with
      cur := .node q []
      parents := []
      rootStack := (ctx.cur, ctx.parents) :: ctx.rootStack }
  have htemp : temporaryTree m.nodeKind ctx = .ok () ctx₁ := by
    simp [temporaryTree, ParseM.modify, newPNode, tokCur_eq htoks, ctx₁, q]
  have htoks₁ : ctx₁.tokens = t :: (gap ++ rest) := htoks
  obtain ⟨c, hc⟩ := consume_spec htoks₁ heof hgap hrest
  let ctx₂ : ParseCtx := { ctx₁ with tokens := rest, cur := .node (addComments c q) [] }
  have hc : consume ctx₁ = .ok () ctx₂ := hc
  obtain ⟨rest', r, c', hr, hq⟩ := hrhs ctx₂ rfl rfl
  have hget : ParseM.get ctx = .ok ctx ctx := rfl
  let kids := (addComments c' (addComments c q)).totalKids
  let node : PNode :=
    { addComments c' (addComments c q) with totalKids := kids + 1, extraInfo := m.op }
  refine ⟨rest', node, r, kids, ?_, rfl, rfl, hq⟩
  rw [exprAt, ParseM.bind_ok hget, if_pos hkind, ParseM.bind_ok htemp, ParseM.bind_ok hc,
    ParseM.bind_ok hr]
  cases m <;> rfl

theorem mapContents_addComments_nil (t : Tree) : t.mapContents (addComments []) = t := by
  cases t
  simp [Tree.mapContents, addComments]

/-- An operator takes the right side that its own level reads. -/
theorem exprAt_own {m : Level} {n : Nat} {t : Token} {gap rest : List Token}
    {Q : List Token → OpTree Level Token → Prop} (hm : t.kind = m.token)
    (htoks : ctx.tokens = t :: (gap ++ rest)) (hgap : ∀ t ∈ gap, isBlank t.kind)
    (hrest : Settled ctx.litDepth rest)
    (hrhs : ∀ ctx' : ParseCtx, ctx'.tokens = rest → ctx'.litDepth = ctx.litDepth →
      ∃ rest' r s, rhsAt compoundLit n m ctx' = .ok r { ctx' with tokens := rest' } ∧
        Denotes r s ∧ Q rest' s) :
    ∃ rest' r s, exprAt compoundLit (n + 1) m ctx = .ok (some r) { ctx with tokens := rest' } ∧
      HalfDenotes m r s ∧ Q rest' s := by
  obtain ⟨rest', p, r, k, hexpr, hkind, hop, s, hden, hq⟩ :=
    exprAt_node (Q := fun rest' r => ∃ s, Denotes r s ∧ Q rest' s) compoundLit hm htoks hgap hrest
      (by
        intro ctx' htoks' hdepth
        obtain ⟨rest', r, s, hr, hden, hq⟩ := hrhs ctx' htoks' hdepth
        exact ⟨rest', r, [], by rw [hr, mapContents_addComments_nil], s, hden, hq⟩)
  exact ⟨rest', _, s, hexpr, ⟨p, _, rfl, hkind, hop,
    hden.mapContents (fun _ => rfl) (fun _ => rfl) (fun _ => rfl)⟩, hq⟩

end

/-! ## The loop and the right-hand sides -/

/-- No blank stands in front of a sequence. -/
theorem settled_seqTokens {d : Nat} (e : Operand) (items : List OpItem) (tail : List Token) :
    Settled d (seqTokens e items tail) := by
  have hk := e.kind_mem
  show isBlank e.token.kind = false ∧ (e.token.kind = .newline → _)
  simp only [operandKinds, List.mem_cons, List.not_mem_nil, or_false] at hk
  rcases hk with h | h | h | h | h | h | h | h | h | h <;> rw [h] <;> simp [isBlank]

theorem itemTokens_headD (items : List OpItem) (tail : List Token) :
    ((itemTokens items tail).headD eofToken).kind =
      match items.head? with
      | some i => i.op.token
      | none => (tail.headD eofToken).kind := by
  cases items with
  | nil => rfl
  | cons i items => exact i.kind_eq

theorem itemTokens_no_access {d : Nat} {tail : List Token} (hend : Ends d tail)
    (items : List OpItem) :
    ((itemTokens items tail).headD eofToken).kind ∉ [TokenKind.period, .lbracket, .lparen] := by
  rw [itemTokens_headD]
  cases items with
  | nil => exact hend.no_access
  | cons i items =>
    show i.op.token ∉ _
    cases i.op <;> decide

/-- The part of the sequence that has been read, as a tree: an operand, then `used`, and
`remaining` starts with an operator looser than `l`. -/
structure Grouped (l : Level) (leaves : List Token) (ops : List Level)
    (used remaining : List OpItem) (s : OpTree Level Token) : Prop where
  leaves_eq : s.leaves = leaves ++ used.map (·.operand.token)
  ops_eq : s.ops = ops ++ used.map (·.op)
  nested : s.RightNested
  tight : ∀ i ∈ used, l ≤ i.op
  stops : ∀ i ∈ remaining.head?, i.op < l

namespace Grouped

variable {l : Level} {t : Token} {used remaining : List OpItem} {s r : OpTree Level Token}

theorem le_of_mem_ops (h : Grouped l [t] [] used remaining r) : ∀ o ∈ r.ops, l ≤ o := by
  intro o ho
  rw [h.ops_eq, List.nil_append, List.mem_map] at ho
  obtain ⟨i, hi, rfl⟩ := ho
  exact h.tight i hi

/-- Operands on the right of a looser operator keep the tree nested to the right. -/
theorem bin_nested (h : Grouped l [t] [] used remaining r) (hs : s.RightNested)
    (hleft : ∀ o ∈ s.ops, l < o) : (OpTree.bin l s r).RightNested :=
  ⟨hleft, h.le_of_mem_ops, hs, h.nested⟩

/-- What is left behind an operator binds looser than all that it took. -/
theorem bin_tight (h : Grouped l [t] [] used remaining r) (hleft : ∀ o ∈ s.ops, l < o) :
    ∀ i ∈ remaining.head?, ∀ o ∈ (OpTree.bin l s r).ops, i.op < o := by
  intro i hi o ho
  have hil : i.op < l := h.stops i hi
  rw [OpTree.ops_bin, List.mem_append, List.mem_cons] at ho
  rcases ho with ho | rfl | ho
  · exact hil.trans (hleft o ho)
  · exact hil
  · exact hil.trans_le (h.le_of_mem_ops o ho)

end Grouped

section

variable (compoundLit : TokenKind → ParseM Unit) {tail : List Token}

/-- What the loop of `x_expr_rhs` does in front of `items`, when every operator read so far is
tighter than the first of them. -/
def LoopReads (tail : List Token) (items : List OpItem) : Prop :=
  ∀ (ctx : ParseCtx) (n : Nat) (l : Level) (expr : Tree) (s : OpTree Level Token),
    ctx.tokens = itemTokens items tail → Ends ctx.litDepth tail → 24 * items.length + 23 ≤ n →
    Denotes expr s → s.RightNested → (∀ i ∈ items.head?, ∀ o ∈ s.ops, i.op < o) →
    ∃ used remaining t s', items = used ++ remaining ∧
      rhsLoop compoundLit n l expr ctx =
        .ok t { ctx with tokens := itemTokens remaining tail } ∧
      Denotes t s' ∧ Grouped l s.leaves s.ops used remaining s'

/-- What `x_expr_rhs` does in front of an operand and `items`. -/
def RhsReads (tail : List Token) (items : List OpItem) : Prop :=
  ∀ (ctx : ParseCtx) (n : Nat) (l : Level) (e : Operand),
    ctx.tokens = seqTokens e items tail → Ends ctx.litDepth tail → 24 * items.length + 24 ≤ n →
    ∃ used remaining t s, items = used ++ remaining ∧
      rhsAt compoundLit n l ctx = .ok t { ctx with tokens := itemTokens remaining tail } ∧
      Denotes t s ∧ Grouped l [e.token] [] used remaining s

/-- A right side is its operand and what the loop behind it takes. -/
theorem rhsReads_of_loopReads {items : List OpItem} (h : LoopReads compoundLit tail items) :
    RhsReads compoundLit tail items := by
  intro ctx n l e htoks hend hn
  obtain ⟨n, rfl⟩ : ∃ k, n = k + 3 := ⟨n - 3, by omega⟩
  have hsettled := settled_itemTokens hend items
  obtain ⟨t, ht, hden⟩ := expressionStart_spec compoundLit n htoks hsettled hsettled.zero
    (itemTokens_no_access hend items)
  have hloop := h { ctx with tokens := itemTokens items tail } (n + 2) l t _ rfl hend (by omega)
    hden trivial (by simp)
  rw [rhsAt, ParseM.bind_ok ht]
  exact hloop

/-- The loop takes an operator whose level it has, and goes on with less. -/
theorem loopReads_cons {i : OpItem} {items : List OpItem}
    (ih : ∀ items' : List OpItem, items'.length ≤ items.length →
      LoopReads compoundLit tail items') :
    LoopReads compoundLit tail (i :: items) := by
  intro ctx n l expr s htoks hend hn hden hnest hhead
  simp only [List.length_cons] at hn
  obtain ⟨n, rfl⟩ : ∃ k, n = k + 1 := ⟨n - 1, by omega⟩
  have hkind : ctx.tokKind = i.op.token := (tokKind_eq htoks).trans i.kind_eq
  by_cases hl : l ≤ i.op
  · -- The operator belongs to this level or to a tighter one: its right operand takes every
    -- operator up to the first that is looser than it.
    obtain ⟨d, hd⟩ : ∃ d, l.rank + d = i.op.rank := ⟨i.op.rank - l.rank, by
      have := (Level.le_def _ _).mp hl
      omega⟩
    have hd18 : d < 18 := by have := i.op.rank_lt; omega
    obtain ⟨k, rfl⟩ : ∃ k, n = k + 1 + d := ⟨n - 1 - d, by omega⟩
    obtain ⟨rest', r, sr, hexpr, hhalf, used, remaining, rfl, rfl, hgr⟩ :=
      exprAt_own (Q := fun rest' s => ∃ used remaining, items = used ++ remaining ∧
          rest' = itemTokens remaining tail ∧ Grouped i.op [i.operand.token] [] used remaining s)
        compoundLit i.kind_eq htoks i.gap_blank (settled_seqTokens i.operand items tail) (by
          intro ctx' htoks' hdepth
          obtain ⟨used, remaining, t, s, hitems, hok, hden, hgr⟩ :=
            rhsReads_of_loopReads compoundLit (ih items le_rfl) ctx' k i.op i.operand htoks'
              (hdepth ▸ hend) (by omega)
          exact ⟨_, t, s, hok, hden, used, remaining, hitems, rfl, hgr⟩)
    rw [← exprAt_descend compoundLit hkind hd] at hexpr
    -- The loop goes on with the operator in front of what it had.
    obtain ⟨used', remaining', t, s', rfl, hok, hden', hgr'⟩ :=
      ih remaining (by simp) { ctx with tokens := itemTokens remaining tail } (k + 1 + d) l
        (r.adoptAndPrepend expr) (.bin i.op s sr) rfl hend (by simp at hn; omega)
        (hhalf.adoptAndPrepend hden) (hgr.bin_nested hnest (hhead i rfl))
        (hgr.bin_tight (hhead i rfl))
    refine ⟨i :: (used ++ used'), remaining', t, s', by simp, ?_, hden', ?_⟩
    · rw [rhsLoop, ParseM.bind_ok hexpr]
      exact hok
    · refine ⟨?_, ?_, hgr'.nested, ?_, hgr'.stops⟩
      · rw [hgr'.leaves_eq, OpTree.leaves_bin, hgr.leaves_eq]
        simp
      · rw [hgr'.ops_eq, OpTree.ops_bin, hgr.ops_eq]
        simp
      · intro j hj
        rcases List.mem_cons.mp hj with rfl | hj
        · exact hl
        rcases List.mem_append.mp hj with hj | hj
        · exact hl.trans (hgr.tight j hj)
        · exact hgr'.tight j hj
  · have hnone : exprAt compoundLit n l ctx = .ok none ctx := by
      refine exprAt_none compoundLit ?_ ?_ (by omega)
      · rw [hkind]
        cases i.op <;> decide
      · intro m hm h
        have := Level.token_injective (hkind.symm.trans h)
        exact hl (this ▸ hm)
    refine ⟨[], i :: items, expr, s, rfl, ?_, hden, ?_⟩
    · rw [rhsLoop, ParseM.bind_ok hnone, ← htoks]
      rfl
    · refine ⟨by simp, by simp, hnest, by simp, ?_⟩
      simpa using hl

theorem loopReads_nil : LoopReads compoundLit tail [] := by
  intro ctx n l expr s htoks hend hn hden hnest hhead
  obtain ⟨n, rfl⟩ : ∃ k, n = k + 1 := ⟨n - 1, by omega⟩
  have hkind : ctx.tokKind = (tail.headD eofToken).kind := by
    rw [ParseCtx.tokKind, ParseCtx.tokCur, htoks]
    rfl
  have hnone : exprAt compoundLit n l ctx = .ok none ctx := by
    refine exprAt_none compoundLit (hkind ▸ hend.not_not) ?_ (by simp at hn; omega)
    intro m _
    exact hkind ▸ hend.not_op m
  refine ⟨[], [], expr, s, rfl, ?_, hden, by simp, by simp, hnest, by simp, by simp⟩
  rw [rhsLoop, ParseM.bind_ok hnone, ← htoks]
  rfl

/-- **The loop over operators** reads what its grouping says, for every sequence. -/
theorem loopReads (tail : List Token) (items : List OpItem) : LoopReads compoundLit tail items := by
  match items with
  | [] => exact loopReads_nil compoundLit
  | i :: items =>
    exact loopReads_cons compoundLit fun items' hlen => loopReads tail items'
termination_by items.length
decreasing_by simp; omega

/-- So does the right side of every operator. -/
theorem rhsAt_spec (items : List OpItem) : RhsReads compoundLit tail items :=
  rhsReads_of_loopReads compoundLit (loopReads compoundLit tail items)

end

/-! ## Whole expressions -/

def IsLeftGrouped (l : Level) : Prop := l ∈ [Level.minus, .div, .mod, .shl, .shr]

instance : DecidablePred IsLeftGrouped := fun l =>
  inferInstanceAs (Decidable (l ∈ [Level.minus, .div, .mod, .shl, .shr]))

section

variable (compoundLit : TokenKind → ParseM Unit)
variable {ctx : ParseCtx} {n : Nat} {e : Operand} {items : List OpItem} {tail : List Token}

/-- `expression` consumes the sequence and nothing else, and returns a tree of its operands and
operators in order, by precedence and with `-`, `/`, `%`, `<<` and `>>` grouped to the left. -/
def ParsesByPrecedence (n : Nat) (ctx : ParseCtx) (e : Operand) (items : List OpItem)
    (tail : List Token) : Prop :=
  ∃ t s, expression compoundLit n ctx = .ok t { ctx with tokens := tail } ∧ Denotes t s ∧
    s.leaves = e.token :: items.map (·.operand.token) ∧ s.ops = items.map (·.op) ∧
    s.Ordered ∧ s.GroupsLeft IsLeftGrouped

/-- **`expression`** reads a whole sequence, and leaves the tail. -/
theorem expression_spec (htoks : ctx.tokens = seqTokens e items tail)
    (hend : Ends ctx.litDepth tail) (hn : 24 * items.length + 24 ≤ n) :
    ∃ t s, expression compoundLit n ctx = .ok t { ctx with tokens := tail } ∧ Denotes t s ∧
      s.leaves = e.token :: items.map (·.operand.token) ∧ s.ops = items.map (·.op) ∧
      s.RightNested := by
  obtain ⟨used, remaining, t, s, hitems, hok, hden, hgr⟩ :=
    rhsAt_spec compoundLit items ctx n .or e htoks hend hn
  -- No operator is looser than `or`.
  obtain rfl : remaining = [] := by
    cases remaining with
    | nil => rfl
    | cons i rest => exact absurd ((Level.lt_def _ _).mp (hgr.stops i rfl)) (Nat.not_lt_zero _)
  obtain rfl : items = used := by rw [hitems, List.append_nil]
  exact ⟨t, s, hok, hden, hgr.leaves_eq, hgr.ops_eq, hgr.nested⟩

/-- A sequence that is parsed by precedence has no run of equal operators that group to the left. -/
theorem noEqualRun_of_parses (htoks : ctx.tokens = seqTokens e items tail)
    (hend : Ends ctx.litDepth tail) (hn : 24 * items.length + 24 ≤ n)
    (h : ParsesByPrecedence compoundLit n ctx e items tail) :
    OpTree.NoEqualRun IsLeftGrouped (items.map (·.op)) := by
  obtain ⟨t, s, hok, hden, -, hops, hnest⟩ := expression_spec compoundLit htoks hend hn
  obtain ⟨t', s', hok', hden', -, -, -, hleft⟩ := h
  -- One run returns one tree, and a tree denotes one operator tree.
  obtain rfl : t = t' := by
    rw [hok] at hok'
    exact (Outcome.ok.inj hok').1
  obtain rfl : s = s' := hden.unique hden'
  rw [← hops]
  exact hnest.groupsLeft_iff.mp hleft

/-- **Expressions parse by precedence, and by left associativity exactly when no operator among
`-`, `/`, `%`, `<<` and `>>` comes twice with nothing looser in between.** -/
theorem parsesByPrecedence_iff (htoks : ctx.tokens = seqTokens e items tail)
    (hend : Ends ctx.litDepth tail) (hn : 24 * items.length + 24 ≤ n) :
    ParsesByPrecedence compoundLit n ctx e items tail ↔
      OpTree.NoEqualRun IsLeftGrouped (items.map (·.op)) := by
  constructor
  · exact noEqualRun_of_parses compoundLit htoks hend hn
  · intro hrun
    obtain ⟨t, s, hok, hden, hleaves, hops, hnest⟩ := expression_spec compoundLit htoks hend hn
    refine ⟨t, s, hok, hden, hleaves, hops, hnest.ordered, ?_⟩
    rw [← hops] at hrun
    exact hnest.groupsLeft_iff.mpr hrun

end

/-! ## `a - b - c` and `a - b + c - d` -/

theorem isBlank_of_mem_nil : ∀ t ∈ ([] : List Token), isBlank t.kind :=
  fun _ ht => absurd ht List.not_mem_nil

theorem kind_opToken (op : Level) : ({ kind := op.token } : Token).kind = op.token := rfl

/-- An identifier with nothing after it. -/
def nameOperand (name : String) : Operand where
  token := { kind := .identifier, text := name }
  gap := []
  kind_mem := by
    show TokenKind.identifier ∈ operandKinds
    decide
  gap_blank := isBlank_of_mem_nil

/-- An operator in front of an identifier, without blanks. -/
def nameItem (op : Level) (name : String) : OpItem where
  op := op
  token := { kind := op.token }
  gap := []
  operand := nameOperand name
  kind_eq := kind_opToken op
  gap_blank := isBlank_of_mem_nil

/-- A stream with nothing after the sequence. -/
def seqCtx (e : Operand) (items : List OpItem) : ParseCtx where
  tokens := seqTokens e items []
  cur := .node { kind := .expression, token := eofToken } []

theorem ends_nil : Ends 0 [] where
  settled := ⟨rfl, fun _ => rfl⟩
  not_op l := by cases l <;> decide
  not_not := by decide
  no_access := by decide

theorem parsesByPrecedence_minus_plus_minus :
    ParsesByPrecedence (fun _ => ParseM.pure ()) 96
      (seqCtx (nameOperand "a")
        [nameItem .minus "b", nameItem .plus "c", nameItem .minus "d"])
      (nameOperand "a") [nameItem .minus "b", nameItem .plus "c", nameItem .minus "d"] [] :=
  (parsesByPrecedence_iff _ rfl ends_nil (by decide)).mpr (by decide)

/-- `a - b - c` does not group as `(a - b) - c`. -/
theorem not_parsesByPrecedence_minus_minus :
    ¬ ParsesByPrecedence (fun _ => ParseM.pure ()) 72
      (seqCtx (nameOperand "a") [nameItem .minus "b", nameItem .minus "c"])
      (nameOperand "a") [nameItem .minus "b", nameItem .minus "c"] [] := by
  intro h
  have hrun := noEqualRun_of_parses _ rfl ends_nil (by decide) h
  exact absurd hrun (by decide)

end N00b.Parse
