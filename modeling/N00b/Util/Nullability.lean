import Mathlib

/-!
# Which non-terminals are nullable

The pass of `n00b_prep_first_parse` that looks for the non-terminals that derive the empty list of
tokens: `is_nullable_nt`, `is_nullable_rule` and `n00b_is_nullable_pitem` of util/grammar.nc.

A rule is left at its first non-terminal, and a rule without one is left at its end, both times with
the answer that it is not nullable: when the first call for a non-terminal returns true, its id is on
the stack. So no rule is ever found to be nullable, and the pass finds the non-terminals that have no
rules.

## Representation

* A non-terminal is known by its place in `nt_list`. What an item matches is left out.
* `finalized` and `nullable` are one optional value.
* A call nests for each non-terminal that is not on the stack yet, and is given that many turns.
-/

namespace N00b.Util

/-- `n00b_pitem_t`. -/
inductive PItem where
  | null
  | terminal
  | any
  | biClass
  | set
  | nt (id : ℕ)
  | group (min : ℤ)
deriving DecidableEq, Repr

/-- `n00b_nonterm_t`, with the contents of its rules. -/
structure Nonterm where
  rules : List (List PItem)
  groupNt : Bool
deriving DecidableEq, Repr

/-- A grammar: every id is one of `nt_list`, and the non-terminal of a group has the rule that
`n00b_group_items` gives it. -/
structure Grammar where
  nts : List Nonterm
  closed : ∀ nt ∈ nts, ∀ rule ∈ nt.rules, ∀ id, .nt id ∈ rule → id < nts.length
  group_rules : ∀ nt ∈ nts, nt.groupNt = true → nt.rules ≠ []

/-! ## The pass -/

/-- The values of the non-terminals that are finalized, and the stack. -/
structure NullState where
  nullable : ℕ → Option Bool
  stack : List ℕ

inductive NullError where
  | raised (message : String)
  | missing
  | turns
deriving DecidableEq, Repr

abbrev NullResult := Except NullError (Bool × NullState)

/-- `finalize_nullable`. -/
def finalizeNullable (id : ℕ) (nt : Nonterm) (value : Bool) (s : NullState) : NullResult :=
  if value && nt.groupNt then
    .error (.raised "Attempt to add a group where the group item can be empty.")
  else .ok (value, { s with nullable := Function.update s.nullable id (some value) })

/-- `n00b_list_pop`. -/
def NullState.pop (s : NullState) : NullState := { s with stack := s.stack.dropLast }

section

variable (isNullableNt : ℕ → NullState → NullResult)

/-- `n00b_is_nullable_pitem`. -/
def isNullablePitem (item : PItem) (s : NullState) : NullResult :=
  match item with
  | .null => .ok (true, s)
  | .group min => .ok (min == 0, s)
  | .nt id => isNullableNt id s
  | _ => .ok (false, s)

/-- `is_nullable_rule`. -/
def isNullableRule : List PItem → NullState → NullResult
  | [], s => .ok (false, s)
  | item :: items, s =>
    match isNullablePitem isNullableNt item s with
    | .error e => .error e
    | .ok (b, s) =>
      if !b then .ok (false, s)
      else match item with
        | .nt id => if id ∈ s.stack then .ok (false, s) else isNullableNt id s
        | _ => isNullableRule items s

/-- The loop of `is_nullable_nt` over the rules, and what is behind it. -/
def isNullableRules (id : ℕ) (nt : Nonterm) : List (List PItem) → NullState → NullResult
  | [], s => (finalizeNullable id nt false s).map fun (b, s) => (b, s.pop)
  | rule :: rules, s =>
    match isNullableRule isNullableNt rule s with
    | .error e => .error e
    | .ok (true, s) => (finalizeNullable id nt true s).map fun (b, s) => (b, s.pop)
    | .ok (false, s) => isNullableRules id nt rules s

end

/-- `is_nullable_nt`, for so many turns. -/
def Grammar.isNullableNt (g : Grammar) : ℕ → ℕ → NullState → NullResult
  | 0, _, _ => .error .turns
  | fuel + 1, id, s =>
    if id ∈ s.stack then .ok (true, s)
    else
      let s := { s with stack := s.stack ++ [id] }
      match g.nts[id]? with
      | none => .error .missing
      | some nt =>
        match s.nullable id with
        | some b => .ok (b, s)
        | none =>
          match nt.rules with
          | [] => finalizeNullable id nt true s
          | rules => isNullableRules (g.isNullableNt fuel) id nt rules s

/-- The pass of `n00b_prep_first_parse`: every non-terminal, each with a stack of its own. -/
def Grammar.prepFirstParse (g : Grammar) : Except NullError (ℕ → Option Bool) :=
  (List.range g.nts.length).foldlM
    (fun nullable id => (g.isNullableNt (g.nts.length + 1) id ⟨nullable, []⟩).map fun r =>
      r.2.nullable) fun _ => none

/-! ## What is nullable -/

/-- An item that needs no tokens, whatever the non-terminals derive. -/
def PItem.skips : PItem → Bool
  | .null => true
  | .group min => min == 0
  | _ => false

/-- **The non-terminals that derive the empty list**: a rule does when all of its items do. -/
inductive Grammar.DerivesEmpty (g : Grammar) : ℕ → Prop where
  | rule {id : ℕ} {nt : Nonterm} {rule : List PItem} (hnt : g.nts[id]? = some nt)
      (hrule : rule ∈ nt.rules) (hskips : ∀ item ∈ rule, (∀ n, item ≠ .nt n) → item.skips = true)
      (hnts : ∀ n, .nt n ∈ rule → g.DerivesEmpty n) : g.DerivesEmpty id

/-- **The pass is correct**: it ends, and finds the non-terminals that derive the empty list. -/
def Grammar.Correct (g : Grammar) : Prop :=
  ∃ nullable, g.prepFirstParse = .ok nullable ∧
    ∀ id < g.nts.length, nullable id = some true ↔ g.DerivesEmpty id

/-! ## What the pass computes -/

/-- The ids that are not on a stack. -/
def Grammar.unvisited (g : Grammar) (stack : List ℕ) : ℕ :=
  (Finset.range g.nts.length \ stack.toFinset).card

variable {g : Grammar} {s s' s'' : NullState} {id fuel : ℕ}

theorem unvisited_push (hid : id < g.nts.length) {stack : List ℕ} (hnot : id ∉ stack) :
    g.unvisited (stack ++ [id]) < g.unvisited stack := by
  refine Finset.card_lt_card (Finset.ssubset_iff_of_subset ?_ |>.mpr ⟨id, ?_, ?_⟩)
  · exact Finset.sdiff_subset_sdiff le_rfl fun x hx => by simp_all
  · simp [hid, hnot]
  · simp

theorem unvisited_le {stack stack' : List ℕ} (h : stack <+: stack') :
    g.unvisited stack' ≤ g.unvisited stack := by
  refine Finset.card_le_card (Finset.sdiff_subset_sdiff le_rfl fun x hx => ?_)
  exact List.mem_toFinset.mpr (h.subset (List.mem_toFinset.mp hx))

/-- The non-terminals that are finalized are nullable when they have no rules. -/
def Grammar.Finds (g : Grammar) (nullable : ℕ → Option Bool) : Prop :=
  ∀ id b, nullable id = some b → ∃ nt, g.nts[id]? = some nt ∧ b = nt.rules.isEmpty

/-- What a call leaves: more on the stack, and more non-terminals finalized. -/
structure Grammar.Leaves (g : Grammar) (s s' : NullState) : Prop where
  stack : s.stack <+: s'.stack
  finds : g.Finds s'.nullable
  finalized : ∀ id, (s.nullable id).isSome → (s'.nullable id).isSome

theorem Grammar.Leaves.trans (h : g.Leaves s s') (h' : g.Leaves s' s'') : g.Leaves s s'' :=
  ⟨h.stack.trans h'.stack, h'.finds, fun id hid => h'.finalized id (h.finalized id hid)⟩

theorem Grammar.Finds.finalize (h : g.Finds s.nullable) {nt : Nonterm} (hnt : g.nts[id]? = some nt) :
    ∃ s', finalizeNullable id nt nt.rules.isEmpty s = .ok (nt.rules.isEmpty, s') ∧
      s'.stack = s.stack ∧ g.Finds s'.nullable ∧ (s'.nullable id).isSome ∧
      ∀ k, (s.nullable k).isSome → (s'.nullable k).isSome := by
  have hgroup : (nt.rules.isEmpty && nt.groupNt) = false := by
    cases hempty : nt.rules.isEmpty with
    | false => rfl
    | true =>
      rw [Bool.true_and, Bool.eq_false_iff]
      intro hgroup
      exact g.group_rules nt (List.mem_of_getElem? hnt) hgroup (List.isEmpty_iff.mp hempty)
  have hself := Function.update_self id (some nt.rules.isEmpty) s.nullable
  have hother : ∀ k ≠ id, Function.update s.nullable id (some nt.rules.isEmpty) k = s.nullable k :=
    fun k hk => Function.update_of_ne hk ..
  refine ⟨{ s with nullable := Function.update s.nullable id (some nt.rules.isEmpty) }, ?_, rfl,
    ?_, by simp, ?_⟩
  · rw [finalizeNullable, hgroup]
    rfl
  · intro k b hk
    by_cases hkid : k = id
    · subst hkid
      exact ⟨nt, hnt, Option.some.inj (hk.symm.trans hself)⟩
    · exact h k b ((hother k hkid).symm.trans hk)
  · intro k hk
    by_cases hkid : k = id
    · subst hkid
      simp
    · exact (congrArg Option.isSome (hother k hkid)).trans hk

/-- What is said of `is_nullable_nt` for a number of turns: when it returns true, the id is on the
stack. -/
def Grammar.NtSpec (g : Grammar) (fuel : ℕ) (isNullableNt : ℕ → NullState → NullResult) : Prop :=
  ∀ id s, id < g.nts.length → g.unvisited s.stack < fuel → g.Finds s.nullable →
    ∃ b s', isNullableNt id s = .ok (b, s') ∧ g.Leaves s s' ∧ (b = true → id ∈ s'.stack) ∧
      (id ∉ s.stack → (s'.nullable id).isSome)

theorem isNullableRule_spec {isNullableNt : ℕ → NullState → NullResult}
    (hspec : g.NtSpec fuel isNullableNt) {rule : List PItem}
    (hclosed : ∀ id, .nt id ∈ rule → id < g.nts.length) (hfuel : g.unvisited s.stack < fuel)
    (hfinds : g.Finds s.nullable) :
    ∃ s', isNullableRule isNullableNt rule s = .ok (false, s') ∧ g.Leaves s s' := by
  induction rule with
  | nil => exact ⟨s, rfl, List.prefix_rfl, hfinds, fun _ h => h⟩
  | cons item rule ih =>
    have hrest := ih fun id hid => hclosed id (List.mem_cons_of_mem _ hid)
    have hself : g.Leaves s s := ⟨List.prefix_rfl, hfinds, fun _ h => h⟩
    cases item with
    | null => simpa [isNullableRule, isNullablePitem] using hrest
    | terminal => exact ⟨s, rfl, hself⟩
    | any => exact ⟨s, rfl, hself⟩
    | biClass => exact ⟨s, rfl, hself⟩
    | set => exact ⟨s, rfl, hself⟩
    | group min =>
      by_cases hmin : min = 0
      · simpa [isNullableRule, isNullablePitem, hmin] using hrest
      · exact ⟨s, by simp [isNullableRule, isNullablePitem, hmin], hself⟩
    | nt id =>
      obtain ⟨b, s', hcall, hleaves, hstack, -⟩ :=
        hspec id s (hclosed id List.mem_cons_self) hfuel hfinds
      refine ⟨s', ?_, hleaves⟩
      rw [isNullableRule, isNullablePitem, hcall]
      cases b with
      | false => rfl
      | true => simp [hstack rfl]

theorem isNullableRules_spec {isNullableNt : ℕ → NullState → NullResult}
    (hspec : g.NtSpec fuel isNullableNt) {nt : Nonterm} (hnt : g.nts[id]? = some nt)
    (hrules : nt.rules ≠ []) {rules : List (List PItem)} (hsub : ∀ rule ∈ rules, rule ∈ nt.rules)
    (hfuel : g.unvisited s.stack < fuel) (hfinds : g.Finds s.nullable) :
    ∃ s', isNullableRules isNullableNt id nt rules s = .ok (false, s'.pop) ∧ g.Leaves s s' ∧
      (s'.nullable id).isSome := by
  induction rules generalizing s with
  | nil =>
    have hempty : nt.rules.isEmpty = false := by simpa using hrules
    obtain ⟨s', hfinal, hstack, hfinds', hid, hsome⟩ := hfinds.finalize hnt
    rw [hempty] at hfinal
    refine ⟨s', ?_, ⟨by rw [hstack], hfinds', hsome⟩, hid⟩
    rw [isNullableRules, hfinal]
    rfl
  | cons rule rules ih =>
    obtain ⟨s₁, hrule, hleaves⟩ := isNullableRule_spec hspec
      (g.closed nt (List.mem_of_getElem? hnt) rule (hsub rule List.mem_cons_self)) hfuel hfinds
    obtain ⟨s₂, hloop, hleaves₂, hid⟩ := ih (fun r hr => hsub r (List.mem_cons_of_mem _ hr))
      (lt_of_le_of_lt (unvisited_le hleaves.stack) hfuel) hleaves.finds
    refine ⟨s₂, ?_, hleaves.trans hleaves₂, hid⟩
    rw [isNullableRules, hrule]
    exact hloop

theorem isNullableNt_spec (g : Grammar) (fuel : ℕ) : g.NtSpec fuel (g.isNullableNt fuel) := by
  induction fuel with
  | zero => exact fun id s _ hfuel => absurd hfuel (Nat.not_lt_zero _)
  | succ fuel ih =>
    intro id s hid hfuel hfinds
    by_cases hon : id ∈ s.stack
    · refine ⟨true, s, ?_, ⟨List.prefix_rfl, hfinds, fun _ h => h⟩, fun _ => hon,
        fun h => absurd hon h⟩
      rw [Grammar.isNullableNt, if_pos hon]
    · have hnt := List.getElem?_eq_getElem hid
      have hpush := unvisited_push hid hon
      let t : NullState := { s with stack := s.stack ++ [id] }
      have hpre : s.stack <+: t.stack := List.prefix_append _ _
      have hmem : id ∈ t.stack := by simp [t]
      rw [Grammar.isNullableNt, if_neg hon, hnt]
      cases hvalue : s.nullable id with
      | some b =>
        refine ⟨b, t, ?_, ⟨hpre, hfinds, fun _ h => h⟩, fun _ => hmem, fun _ => ?_⟩
        · simp only [hvalue]
          rfl
        · simp [t, hvalue]
      | none =>
        by_cases hrules : g.nts[id].rules = []
        · obtain ⟨s', hfinal, hstack, hfinds', hsome, hall⟩ :=
            Grammar.Finds.finalize (s := t) hfinds hnt
          rw [hrules, List.isEmpty_nil] at hfinal
          refine ⟨true, s', ?_, ⟨?_, hfinds', hall⟩, fun _ => ?_, fun _ => hsome⟩
          · simp only [hvalue, hrules]
            exact hfinal
          · rw [hstack]
            exact hpre
          · rw [hstack]
            exact hmem
        · obtain ⟨s', hloop, hleaves, hsome⟩ := isNullableRules_spec (s := t) ih hnt hrules
            (fun _ h => h) (lt_of_lt_of_le hpush (Nat.le_of_lt_succ hfuel)) hfinds
          refine ⟨false, s'.pop, ?_, ⟨?_, hleaves.finds, hleaves.finalized⟩, nofun, fun _ => hsome⟩
          · simp only [hvalue]
            cases hr : g.nts[id].rules with
            | nil => exact absurd hr hrules
            | cons rule rules =>
              rw [hr] at hloop
              exact hloop
          · -- what is popped is above the stack that the call was given
            obtain ⟨above, habove⟩ := hleaves.stack
            have hdrop : s'.pop.stack = s.stack ++ ([id] ++ above).dropLast := by
              rw [NullState.pop, ← habove, List.append_assoc, List.dropLast_append_of_ne_nil (by simp)]
            rw [hdrop]
            exact List.prefix_append _ _

theorem prepFirstParse_spec (g : Grammar) : ∃ nullable, g.prepFirstParse = .ok nullable ∧
    ∀ id nt, g.nts[id]? = some nt → nullable id = some nt.rules.isEmpty := by
  have hpass : ∀ n ≤ g.nts.length, ∃ nullable, (List.range n).foldlM
      (fun nullable id => (g.isNullableNt (g.nts.length + 1) id ⟨nullable, []⟩).map fun r =>
        r.2.nullable) (fun _ => none) = .ok nullable ∧
      g.Finds nullable ∧ ∀ id < n, (nullable id).isSome := by
    intro n hn
    induction n with
    | zero => exact ⟨_, rfl, nofun, nofun⟩
    | succ n ih =>
      obtain ⟨nullable, hrest, hfinds, hsome⟩ := ih (Nat.le_of_succ_le hn)
      have hfuel : g.unvisited [] < g.nts.length + 1 := by
        refine Nat.lt_succ_of_le ((Finset.card_le_card Finset.sdiff_subset).trans ?_)
        rw [Finset.card_range]
      obtain ⟨b, s', hcall, hleaves, -, hid⟩ :=
        isNullableNt_spec g (g.nts.length + 1) n ⟨nullable, []⟩ hn hfuel hfinds
      refine ⟨s'.nullable, ?_, hleaves.finds, fun id hlt => ?_⟩
      · rw [List.range_succ, List.foldlM_append, hrest]
        show ((Except.map _ _).bind fun x => _) = _
        rw [hcall]
        rfl
      · rcases Nat.lt_succ_iff_lt_or_eq.mp hlt with hlt | rfl
        · exact hleaves.finalized id (hsome id hlt)
        · exact hid List.not_mem_nil
  obtain ⟨nullable, hrun, hfinds, hsome⟩ := hpass _ le_rfl
  refine ⟨nullable, hrun, fun id nt hnt => ?_⟩
  obtain ⟨b, hb⟩ := Option.isSome_iff_exists.mp (hsome id (List.getElem?_eq_some_iff.mp hnt).1)
  obtain ⟨nt', hnt', rfl⟩ := hfinds id b hb
  rw [hb, Option.some.inj (hnt'.symm.trans hnt)]

/-- **For which grammars the pass is correct**: those in which every non-terminal has a rule, and
every rule has an item that is not skipped, a non-terminal or one that needs a token. -/
theorem prepFirstParse_correct_iff (g : Grammar) :
    g.Correct ↔ ∀ nt ∈ g.nts, nt.rules ≠ [] ∧
      ∀ rule ∈ nt.rules, ∃ item ∈ rule, item.skips = false := by
  obtain ⟨nullable, hrun, hspec⟩ := prepFirstParse_spec g
  constructor
  · rintro ⟨nullable', hrun', hcorrect⟩
    obtain rfl : nullable = nullable' := Except.ok.inj (hrun.symm.trans hrun')
    intro nt hmem
    obtain ⟨id, hlt, rfl⟩ := List.mem_iff_getElem.mp hmem
    have hnt := List.getElem?_eq_getElem hlt
    have hvalue := hspec id _ hnt
    have hrules : g.nts[id].rules ≠ [] := by
      intro hempty
      rw [hempty] at hvalue
      cases (hcorrect id hlt).mp hvalue with
      | rule hnt' hrule =>
        rw [← Option.some.inj (hnt.symm.trans hnt'), hempty] at hrule
        cases hrule
    refine ⟨hrules, fun rule hrule => ?_⟩
    by_contra hall
    have hskips : ∀ item ∈ rule, item.skips = true := by
      intro item hitem
      by_contra hno
      exact hall ⟨item, hitem, Bool.eq_false_iff.mpr hno⟩
    have hderives : g.DerivesEmpty id :=
      .rule hnt hrule (fun item hitem _ => hskips item hitem) fun n hn => by cases hskips _ hn
    have htrue := (hcorrect id hlt).mpr hderives
    rw [hvalue] at htrue
    exact hrules (List.isEmpty_iff.mp (Option.some.inj htrue))
  · intro hall
    have hnone : ∀ id, ¬g.DerivesEmpty id := by
      intro id hid
      induction hid with
      | rule hnt hrule hskips hnts ih =>
        obtain ⟨item, hitem, hno⟩ := (hall _ (List.mem_of_getElem? hnt)).2 _ hrule
        by_cases hnonterm : ∃ n, item = .nt n
        · obtain ⟨n, rfl⟩ := hnonterm
          exact ih n hitem
        · have hyes := hskips item hitem fun n hn => hnonterm ⟨n, hn⟩
          rw [hno] at hyes
          cases hyes
    refine ⟨nullable, hrun, fun id hlt => iff_of_false ?_ (hnone id)⟩
    have hnt := List.getElem?_eq_getElem hlt
    rw [hspec id _ hnt, Option.some.injEq, List.isEmpty_iff]
    exact (hall _ (List.getElem_mem hlt)).1

/-- `A → NULL`. -/
def nullGrammar : Grammar where
  nts := [⟨[[.null]], false⟩]
  closed := by simp
  group_rules := by simp

/-- In the grammar of `A → NULL` the pass does not find that `A` derives the empty list. -/
theorem not_correct_null : ¬nullGrammar.Correct := by
  rintro ⟨nullable, hrun, hcorrect⟩
  have hcode : nullGrammar.prepFirstParse.toOption.map (fun nullable => nullable 0) =
      some (some false) := by
    decide
  rw [hrun] at hcode
  have hrule : [PItem.null] ∈ (⟨[[.null]], false⟩ : Nonterm).rules := by simp
  have hderives : nullGrammar.DerivesEmpty 0 := .rule rfl hrule (by simp [PItem.skips]) (by simp)
  have hvalue := (hcorrect 0 (by decide)).mpr hderives
  cases (Option.some.inj hcode).symm.trans hvalue

end N00b.Util
