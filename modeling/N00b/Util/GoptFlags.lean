import Mathlib

/-!
# The flags of a command line

`gopt_extract_flags` of util/getopt_parse.nc, with `extract_individual_flags` and
`handle_option_rule`. The nodes of consecutive options are taken out of the parse tree from the last
one to the first, and the options of each are handled from its first to its last.

## Representation

* A parse tree has the nodes that the grammar of util/getopt.nc gives it: one for consecutive options
  (`N00B_GTNT_OPT_JUNK_MULTI`) with the rules of its options, and all others with their children. The
  rule of an option is its flag and its arguments, without the tokens `=` and `,` between them.
* `max_args` is not negative: with a negative one, "any number", the slice ends in front of its last
  value. A parsed double is of any type.
* No result stands for the exception of `n00b_unreachable`.
-/

namespace N00b.Util

/-- `n00b_flag_arg_type`. -/
inductive FlagArgType where
  | none
  | boolTDefault
  | boolFDefault
  | boolTAlways
  | boolFAlways
  | word
  | int
  | float
  | choice
  | choiceTAlias
  | choiceFAlias
  | wordAlias
  | floatAlias
  | intAlias
deriving DecidableEq, Repr

namespace FlagArgType

def isBool : FlagArgType → Bool
  | boolTDefault | boolFDefault | boolTAlways | boolFAlways => true
  | _ => false

/-- The types that `handle_option_rule` has a case for when there is one argument at most. -/
def isPlain (t : FlagArgType) : Bool := t.isBool || t = word || t = int || t = float

/-- The polarity in `needs_negation`. -/
def positive : FlagArgType → Bool
  | boolTDefault | boolTAlways => true
  | _ => false

/-- Which types of options `n00b_goption_init` lets link to an option of a type. -/
def compatible : FlagArgType → FlagArgType → Bool
  | boolTDefault, t | boolTAlways, t | boolFAlways, t =>
    t = boolTDefault || t = boolTAlways || t = boolFAlways
  | word, t =>
    t = word || t = wordAlias || t = int || t = intAlias || t = float || t = floatAlias
  | int, t => t = int || t = intAlias || t = float || t = floatAlias
  | float, t => t = float || t = floatAlias
  | choice, t => t = choice || t = choiceTAlias || t = choiceFAlias
  | _, _ => false

end FlagArgType

/-- What `handle_option_rule` reads of an `n00b_goption_t`. -/
structure GoptSpec where
  type : FlagArgType
  maxArgs : ℕ
  resultKey : ℤ
deriving DecidableEq, Repr

/-- `n00b_goption_t`, with its `linked_option`. -/
structure GoptOption where
  spec : GoptSpec
  linkedOption : Option GoptSpec
deriving DecidableEq, Repr

/-- The option itself, when it links to no other. -/
def GoptOption.target (o : GoptOption) : GoptSpec := o.linkedOption.getD o.spec

/-- `n00b_gopt_bi_ttype`, as far as the ids of tokens are asked for. -/
inductive GoptToken where
  | float
  | boolT
  | unknownOpt
  | other
deriving DecidableEq, Repr

/-- A token of the command line. -/
structure GoptWord where
  kind : GoptToken
  value : List Char
deriving DecidableEq, Repr

/-- The non-terminals of arguments. -/
inductive GoptArgKind where
  | float
  | int
  | bool
  | word
deriving DecidableEq, Repr

/-- An argument. -/
structure GoptArg where
  kind : GoptArgKind
  token : GoptWord
deriving DecidableEq, Repr

structure GoptRule where
  flag : GoptWord
  args : List GoptArg
deriving DecidableEq, Repr

inductive GoptTree where
  | opts (rules : List GoptRule)
  | node (kids : List GoptTree)

inductive GoptValue (D : Type) where
  | word (s : List Char)
  | int (n : ℤ)
  | float (d : D)
  | bool (b : Bool)
deriving DecidableEq, Repr

/-- The messages of `ctx->errors`. -/
inductive GoptError where
  | unknownOption (name : List Char)
  | outOfRange (number : List Char)
deriving DecidableEq, Repr

/-- The value of an `n00b_rt_option_t`. -/
inductive RtValue (D : Type) where
  | one (v : Option (GoptValue D))
  | list (vs : List (GoptValue D))
deriving DecidableEq, Repr

/-- `n00b_rt_option_t`. -/
structure RtOption (D : Type) where
  spec : GoptSpec
  value : RtValue D
  n : ℕ
deriving DecidableEq, Repr

/-- What of `n00b_gopt_extraction_ctx` is written. -/
structure GoptCtx (D : Type) where
  flags : ℤ → Option (RtOption D)
  flagNodes : List GoptRule
  errors : List GoptError

/-- `all_options`, as `n00b_goption_init` fills it, and the parsers of numbers. -/
structure GoptEnv (D : Type) where
  allOptions : List Char → Option GoptOption
  parseInt64 : List Char → Option ℤ
  parseDouble : List Char → Option D
  ofInt : ℤ → D
  keyed : ∀ {name name' o o'}, allOptions name = some o → allOptions name' = some o' →
    o.target.resultKey = o'.target.resultKey → o.target = o'.target
  compat : ∀ {name o t}, allOptions name = some o → o.linkedOption = some t →
    t.type.compatible o.spec.type = true

variable {D : Type}

/-! ## One option -/

namespace GoptEnv

variable (env : GoptEnv D)

/-- `extract_value_from_node`, with the error of `bad_num`. -/
def extractValue (arg : GoptArg) : GoptValue D × List GoptError :=
  let text := arg.token.value
  let badNum : GoptValue D × List GoptError := (.word text, [.outOfRange text])
  match arg.kind with
  | .float =>
    if arg.token.kind = .float then
      ((env.parseDouble text).map fun d => (.float d, [])).getD badNum
    else ((env.parseInt64 text).map fun n => (.float (env.ofInt n), [])).getD badNum
  | .int => ((env.parseInt64 text).map fun n => (.int n, [])).getD badNum
  | .bool => (.bool (arg.token.kind = .boolT), [])
  | .word => (.word text, [])

/-- The values of a rule: true when it has no argument, and else those of its arguments, with
`extract_other_args`. -/
def extractedValues (rule : GoptRule) : List (GoptValue D) :=
  if rule.args = [] then [.bool true] else rule.args.map fun arg => (env.extractValue arg).1

def extractedErrors (rule : GoptRule) : List GoptError :=
  rule.args.flatMap fun arg => (env.extractValue arg).2

end GoptEnv

/-- `boxed_bool_negation`. -/
def GoptValue.negation : GoptValue D → GoptValue D
  | .bool b => .bool !b
  | v => v

/-- `needs_negation`. -/
def needsNegation (o1 o2 : GoptSpec) : Bool := o1.type.positive != o2.type.positive

/-- The elements of a value. The value of an option with one argument at most is never asked. -/
def RtValue.items : RtValue D → List (GoptValue D)
  | .one _ => []
  | .list vs => vs

/-- `n00b_list_get_slice`. -/
def getSlice (l : List (GoptValue D)) (start stop : ℕ) : List (GoptValue D) :=
  (l.take stop).drop start

/-- The end of `handle_option_rule`: values are added to those that are there. -/
def RtOption.add (existing : RtOption D) (target : GoptSpec) (values : List (GoptValue D)) :
    RtOption D :=
  let newItems := if existing.n ≠ 0 then existing.value.items ++ values else values
  if target.maxArgs < newItems.length ∧ target.maxArgs ≠ 0 then
    -- `len` is cut before it is used for the start of the slice.
    let len := target.maxArgs
    { existing with value := .list (getSlice newItems (len - target.maxArgs) len), n := len }
  else { existing with value := .list newItems, n := newItems.length }

/-- A flag type linked to a plain one is no choice alias and agrees with it on negation. -/
theorem isBool_of_compatible {t u : FlagArgType} (ht : t.isPlain = true)
    (h : t.compatible u = true) :
    u ≠ .choiceTAlias ∧ u ≠ .choiceFAlias ∧ (u.isBool = false → u.positive = t.positive) := by
  cases t <;> cases u <;> revert ht h <;> decide

/-- A plain flag type is no choice alias. -/
theorem isBool_self {t : FlagArgType} (ht : t.isPlain = true) :
    t ≠ .choiceTAlias ∧ t ≠ .choiceFAlias ∧ (t.isBool = false → t.positive = t.positive) := by
  cases t <;> revert ht <;> decide

/-- An option linked to a plain target is no choice alias and needs no negation of its values. -/
theorem GoptEnv.type_of_target {env : GoptEnv D} {name : List Char} {cur : GoptOption}
    (hcur : env.allOptions name = some cur) (hplain : cur.target.type.isPlain = true) :
    cur.spec.type ≠ .choiceTAlias ∧ cur.spec.type ≠ .choiceFAlias ∧
      (cur.spec.type.isBool = false → needsNegation cur.spec cur.target = false) := by
  cases hlinked : cur.linkedOption with
  | none =>
    have htarget : cur.target = cur.spec := by rw [GoptOption.target, hlinked]; rfl
    rw [htarget] at hplain ⊢
    obtain ⟨hT, hF, -⟩ := isBool_self hplain
    exact ⟨hT, hF, fun _ => by simp [needsNegation]⟩
  | some t =>
    have htarget : cur.target = t := by rw [GoptOption.target, hlinked]; rfl
    rw [htarget] at hplain ⊢
    obtain ⟨hT, hF, hpos⟩ := isBool_of_compatible hplain (env.compat hcur hlinked)
    exact ⟨hT, hF, fun h => by simp [needsNegation, hpos h]⟩

variable [DecidableEq D]

/-- The switches of `handle_option_rule`. -/
def RtOption.merge (existing : RtOption D) (cur target : GoptSpec) (values : List (GoptValue D)) :
    Option (RtOption D) :=
  let negated := fun v : GoptValue D => if needsNegation cur target then v.negation else v
  if target.maxArgs = 1 then
    if cur.type.isBool then
      some { existing with value := .one (values.head?.map negated), n := 1 }
    else if cur.type.isPlain then some { existing with value := .one values.head?, n := 1 }
    else none
  else if cur.type = .choiceTAlias then
    if existing.n ≠ 0 ∧ ∃ us ∈ values.head?, us ∈ existing.value.items then some existing
    else some (existing.add target values)
  else if cur.type = .choiceFAlias then
    let kept := existing.value.items.filter fun one => values.head? ≠ some one
    if existing.n = 0 ∨ kept.length = existing.value.items.length then some existing
    else some (RtOption.add { existing with n := 0 } target kept)
  else if cur.type.isBool then some (existing.add target (values.map negated))
  else some (existing.add target values)

/-- The entry of an option is replaced. -/
def GoptCtx.put (ctx : GoptCtx D) (key : ℤ) (r : RtOption D) : GoptCtx D :=
  { ctx with flags := fun k => if k = key then some r else ctx.flags k }

/-- `handle_option_rule`. -/
def handleOptionRule (env : GoptEnv D) (ctx : GoptCtx D) (rule : GoptRule) : Option (GoptCtx D) :=
  if rule.flag.kind = .unknownOpt then
    some { ctx with errors := ctx.errors ++ [.unknownOption rule.flag.value] }
  else
    match env.allOptions rule.flag.value with
    | none => some ctx
    | some cur =>
      let target := cur.target
      let existing := (ctx.flags target.resultKey).getD { spec := target, value := .one none, n := 0 }
      (existing.merge cur.spec target (env.extractedValues rule)).map fun r =>
        { ctx with errors := ctx.errors ++ env.extractedErrors rule }.put target.resultKey r

/-! ## The tree -/

/-- `extract_individual_flags`, for one option. -/
def extractOne (env : GoptEnv D) (ctx : GoptCtx D) (rule : GoptRule) : Option (GoptCtx D) :=
  handleOptionRule env { ctx with flagNodes := ctx.flagNodes ++ [rule] } rule

/-- `extract_individual_flags`. -/
def extractIndividualFlags (env : GoptEnv D) (rules : List GoptRule) (ctx : GoptCtx D) :
    Option (GoptCtx D) :=
  rules.foldlM (extractOne env) ctx

mutual

/-- `gopt_extract_flags`: the tree that is left, and the flags. -/
def extractFlags (env : GoptEnv D) : GoptTree → GoptCtx D → Option (GoptTree × GoptCtx D)
  | .opts rules, ctx => some (.opts rules, ctx)
  | .node kids, ctx => (extractFlagsKids env kids ctx).map fun r => (.node r.1, r.2)

/-- The loop of `gopt_extract_flags`, which begins with the last child. -/
def extractFlagsKids (env : GoptEnv D) :
    List GoptTree → GoptCtx D → Option (List GoptTree × GoptCtx D)
  | [], ctx => some ([], ctx)
  | .opts rules :: kids, ctx =>
    (extractFlagsKids env kids ctx).bind fun r =>
      (extractIndividualFlags env rules r.2).map fun ctx => (r.1, ctx)
  | .node ks :: kids, ctx =>
    (extractFlagsKids env kids ctx).bind fun r =>
      (extractFlags env (.node ks) r.2).map fun r' => (r'.1 :: r.1, r'.2)

end

/-- The context before the first flag. -/
def GoptCtx.init : GoptCtx D := { flags := fun _ => none, flagNodes := [], errors := [] }

/-! ## What is asked of it -/

/-- The groups of consecutive options below the children of a node, as they stand on the command
line. -/
def kidsGroups : List GoptTree → List (List GoptRule)
  | [] => []
  | .opts rules :: kids => rules :: kidsGroups kids
  | .node ks :: kids => kidsGroups ks ++ kidsGroups kids

namespace GoptEnv

variable (env : GoptEnv D)

/-- A rule is of an option that links to a target, or is it. -/
def linksTo (target : GoptSpec) (rule : GoptRule) : Bool :=
  rule.flag.kind ≠ .unknownOpt &&
    (env.allOptions rule.flag.value).any fun cur => cur.target = target

/-- **The values of an occurrence**: negated when its own polarity is not that of the target. -/
def ownValues (target : GoptSpec) (rule : GoptRule) : List (GoptValue D) :=
  let negated := (env.allOptions rule.flag.value).any fun cur => needsNegation cur.spec target
  (env.extractedValues rule).map fun v => if negated then v.negation else v

def occurrences (target : GoptSpec) (rules : List GoptRule) : List (List (GoptValue D)) :=
  (rules.filter (env.linksTo target)).map (env.ownValues target)

/-- A rule that reaches what was believed to be unreachable: there can be one value only, and the
option is a choice or an alias. -/
def unreachable (rule : GoptRule) : Bool :=
  rule.flag.kind ≠ .unknownOpt &&
    (env.allOptions rule.flag.value).any fun cur =>
      cur.target.maxArgs = 1 && !cur.spec.type.isPlain

end GoptEnv

/-- The last values, or all of them if their number is not limited. -/
def lastOf (maxArgs : ℕ) (values : List (GoptValue D)) : List (GoptValue D) :=
  if maxArgs = 0 then values else values.drop (values.length - maxArgs)

def firstOf (maxArgs : ℕ) (values : List (GoptValue D)) : List (GoptValue D) :=
  if maxArgs = 0 then values else values.take maxArgs

/-- The one value that occurrences leave: the first of the last occurrence. -/
def lastValue (occurrences : List (List (GoptValue D))) : Option (GoptValue D) :=
  occurrences.getLast?.bind List.head?

/-- **What an option should hold** after occurrences in the order of the command line. -/
def RtOption.Holds (r : RtOption D) (target : GoptSpec) (occurrences : List (List (GoptValue D))) :
    Prop :=
  if target.maxArgs = 1 then r.value = .one (lastValue occurrences) ∧ r.n = 1
  else r.value = .list (lastOf target.maxArgs occurrences.flatten) ∧
    r.n = (lastOf target.maxArgs occurrences.flatten).length

/-- **The flags are those of the command line**: an option of a plain type that occurs holds what it
should. -/
def FlagsOrdered (env : GoptEnv D) (kids : List GoptTree) (target : GoptSpec) : Prop :=
  target.type.isPlain = true → env.occurrences target (kidsGroups kids).flatten ≠ [] →
    ∃ r ctx, extractFlags env (.node kids) .init = some ctx ∧
      ctx.2.flags target.resultKey = some r ∧
      r.Holds target (env.occurrences target (kidsGroups kids).flatten)

/-- **When they are**: no rule is believed to be unreachable, and with the groups from the last one
to the first, the last occurrence has the same value; or, when there can be more values, the first
values are the last ones in the order of the command line. -/
def SameBackwards (env : GoptEnv D) (kids : List GoptTree) (target : GoptSpec) : Prop :=
  let forwards := env.occurrences target (kidsGroups kids).flatten
  let backwards := env.occurrences target (kidsGroups kids).reverse.flatten
  target.type.isPlain = true → forwards ≠ [] →
    (∀ rule ∈ (kidsGroups kids).flatten, env.unreachable rule = false) ∧
      if target.maxArgs = 1 then lastValue backwards = lastValue forwards
      else firstOf target.maxArgs backwards.flatten = lastOf target.maxArgs forwards.flatten

/-! ## The order of the options -/

variable {env : GoptEnv D}

/-- Extracting the flags of a tree runs its groups from the last to the first. -/
theorem extractFlagsKids_runs (env : GoptEnv D) (kids : List GoptTree) (ctx : GoptCtx D) :
    (extractFlagsKids env kids ctx).map Prod.snd =
      (kidsGroups kids).reverse.flatten.foldlM (extractOne env) ctx := by
  match kids with
  | [] => simp [extractFlagsKids, kidsGroups]
  | .opts rules :: kids =>
    have ih := extractFlagsKids_runs env kids ctx
    rw [kidsGroups, List.reverse_cons, List.flatten_append, List.foldlM_append, ← ih,
      extractFlagsKids]
    cases extractFlagsKids env kids ctx with
    | none => rfl
    | some r =>
      rw [List.flatten_singleton]
      change (Option.map _ (extractIndividualFlags env rules r.2)).map Prod.snd =
        extractIndividualFlags env rules r.2
      cases extractIndividualFlags env rules r.2
      all_goals rfl
  | .node ks :: kids =>
    have ih := extractFlagsKids_runs env kids ctx
    rw [kidsGroups, List.reverse_append, List.flatten_append, List.foldlM_append, ← ih,
      extractFlagsKids]
    cases extractFlagsKids env kids ctx with
    | none => rfl
    | some r =>
      have ihks := extractFlagsKids_runs env ks r.2
      change (Option.map _ (extractFlags env (.node ks) r.2)).map Prod.snd =
        (kidsGroups ks).reverse.flatten.foldlM (extractOne env) r.2
      rw [← ihks, extractFlags]
      cases extractFlagsKids env ks r.2
      all_goals rfl

/-! ## One option at a time -/

def GoptEnv.IsTarget (env : GoptEnv D) (target : GoptSpec) : Prop :=
  ∃ name o, env.allOptions name = some o ∧ o.target = target

/-- What an occurrence of an option does to an entry of a plain type. -/
def RtOption.take (target : GoptSpec) (r : RtOption D) (values : List (GoptValue D)) :
    RtOption D :=
  if target.maxArgs = 1 then { r with value := .one values.head?, n := 1 }
  else r.add target values

/-- Merging the values of one occurrence takes them into the target's option. -/
theorem merge_eq {name : List Char} {cur : GoptOption} (hcur : env.allOptions name = some cur)
    (hplain : cur.target.type.isPlain = true)
    (hreach : ¬ (cur.target.maxArgs = 1 ∧ cur.spec.type.isPlain = false)) (r : RtOption D)
    (values : List (GoptValue D)) :
    r.merge cur.spec cur.target values = some (r.take cur.target
      (values.map fun v => if needsNegation cur.spec cur.target then v.negation else v)) := by
  obtain ⟨hT, hF, hneg⟩ := GoptEnv.type_of_target hcur hplain
  rw [RtOption.merge, RtOption.take]
  by_cases hone : cur.target.maxArgs = 1
  · have hself : cur.spec.type.isPlain = true := by
      by_contra hnot
      exact hreach ⟨hone, Bool.eq_false_iff.mpr hnot⟩
    rw [if_pos hone, if_pos hone]
    by_cases hbool : cur.spec.type.isBool = true
    · simp [hbool]
    · simp [hbool, hself, hneg (Bool.eq_false_iff.mpr hbool)]
  · rw [if_neg hone, if_neg hone, if_neg hT, if_neg hF]
    by_cases hbool : cur.spec.type.isBool = true
    · rw [if_pos hbool]
    · simp [hbool, hneg (Bool.eq_false_iff.mpr hbool)]

/-- A merge fails only for a choice whose target takes one argument. -/
theorem merge_isSome (r : RtOption D) (cur target : GoptSpec) (values : List (GoptValue D)) :
    (r.merge cur target values).isSome = !(target.maxArgs = 1 && !cur.type.isPlain) := by
  rw [RtOption.merge]
  by_cases hone : target.maxArgs = 1
  · rw [if_pos hone]
    cases hbool : cur.type.isBool
    all_goals cases hplain : cur.type.isPlain
    all_goals simp_all [FlagArgType.isPlain]
  · rw [if_neg hone, decide_eq_false hone, Bool.false_and]
    dsimp only
    split_ifs
    all_goals rfl

/-- Extracting one occurrence fails only where the code cannot get to. -/
theorem extractOne_isSome (env : GoptEnv D) (ctx : GoptCtx D) (rule : GoptRule) :
    (extractOne env ctx rule).isSome = !env.unreachable rule := by
  rw [extractOne, handleOptionRule, GoptEnv.unreachable]
  by_cases hbad : rule.flag.kind = .unknownOpt
  · simp [hbad]
  · rw [if_neg hbad]
    cases hcur : env.allOptions rule.flag.value with
    | none => simp
    | some cur => simp [hbad, merge_isSome]

variable {target : GoptSpec}

/-- One occurrence changes its own target's option and no other. -/
theorem flags_extractOne (htarget : env.IsTarget target)
    (hplain : target.type.isPlain = true) {ctx ctx' : GoptCtx D} {rule : GoptRule}
    (h : extractOne env ctx rule = some ctx') :
    ctx'.flags target.resultKey =
      if env.linksTo target rule then
        some (((ctx.flags target.resultKey).getD { spec := target, value := .one none, n := 0 }).take
          target (env.ownValues target rule))
      else ctx.flags target.resultKey := by
  have hreach : env.unreachable rule = false := by
    have hsome := extractOne_isSome env ctx rule
    rw [h] at hsome
    simpa using hsome.symm
  rw [extractOne, handleOptionRule] at h
  rw [GoptEnv.linksTo, GoptEnv.ownValues]
  rw [GoptEnv.unreachable] at hreach
  by_cases hbad : rule.flag.kind = .unknownOpt
  · rw [if_pos hbad] at h
    cases h
    simp [hbad]
  rw [if_neg hbad] at h
  cases hcur : env.allOptions rule.flag.value with
  | none =>
    rw [hcur] at h
    cases h
    simp
  | some cur =>
    simp only [hcur] at h
    obtain ⟨r, hr, rfl⟩ := Option.map_eq_some_iff.mp h
    by_cases hlinks : cur.target = target
    · subst hlinks
      simp only [hcur, Option.any_some, ne_eq, hbad, not_false_eq_true, decide_true, Bool.true_and]
        at hreach
      rw [merge_eq hcur hplain (by simpa using hreach)] at hr
      cases hr
      simp [hbad, GoptCtx.put]
    · obtain ⟨name, o, ho, rfl⟩ := htarget
      have hkey : o.target.resultKey ≠ cur.target.resultKey := by
        intro hkey
        exact hlinks (env.keyed ho hcur hkey).symm
      simp [hlinks, GoptCtx.put, hkey]

/-- Extracting occurrences fails iff one of them does. -/
theorem foldlM_isSome (env : GoptEnv D) (rules : List GoptRule) (ctx : GoptCtx D) :
    (rules.foldlM (extractOne env) ctx).isSome = rules.all fun rule => !env.unreachable rule := by
  induction rules generalizing ctx with
  | nil => rfl
  | cons rule rules ih =>
    rw [List.foldlM_cons, List.all_cons, ← extractOne_isSome env ctx rule]
    cases hone : extractOne env ctx rule with
    | none => rfl
    | some next => exact ih next

def RtOption.takeAll (target : GoptSpec) (r : Option (RtOption D))
    (occurrences : List (List (GoptValue D))) : Option (RtOption D) :=
  occurrences.foldl (fun r values => some ((r.getD { spec := target, value := .one none, n := 0 }).take
    target values)) r

/-- After some occurrences, the option of a target has taken the values of its own in order. -/
theorem flags_foldlM (htarget : env.IsTarget target)
    (hplain : target.type.isPlain = true) {rules : List GoptRule} {ctx ctx' : GoptCtx D}
    (h : rules.foldlM (extractOne env) ctx = some ctx') :
    ctx'.flags target.resultKey =
      RtOption.takeAll target (ctx.flags target.resultKey) (env.occurrences target rules) := by
  induction rules generalizing ctx with
  | nil =>
    rw [List.foldlM_nil] at h
    cases h
    rfl
  | cons rule rules ih =>
    rw [List.foldlM_cons] at h
    obtain ⟨next, hnext, hrest⟩ := Option.bind_eq_some_iff.mp h
    rw [ih hrest, flags_extractOne htarget hplain hnext, GoptEnv.occurrences, GoptEnv.occurrences]
    by_cases hlinks : env.linksTo target rule = true
    · rw [if_pos hlinks, List.filter_cons_of_pos hlinks]
      rfl
    · rw [if_neg hlinks, List.filter_cons_of_neg hlinks]

/-! ## What occurrences leave -/

omit [DecidableEq D]

/-- Adding values appends them and cuts the list to the number the target takes. -/
theorem add_eq {r : RtOption D} (hn : r.n = r.value.items.length)
    (values : List (GoptValue D)) :
    r.add target values = { r with
      value := .list (firstOf target.maxArgs (r.value.items ++ values))
      n := (firstOf target.maxArgs (r.value.items ++ values)).length } := by
  have hitems : (if r.n ≠ 0 then r.value.items ++ values else values) = r.value.items ++ values := by
    by_cases hzero : r.n = 0
    · rw [hzero, eq_comm, List.length_eq_zero_iff] at hn
      simp [hzero, hn]
    · exact if_pos hzero
  rw [RtOption.add, hitems]
  by_cases hcut : target.maxArgs < (r.value.items ++ values).length ∧ target.maxArgs ≠ 0
  · have hlen : (firstOf target.maxArgs (r.value.items ++ values)).length = target.maxArgs := by
      rw [firstOf, if_neg hcut.2, List.length_take, min_eq_left hcut.1.le]
    rw [if_pos hcut, hlen, firstOf, if_neg hcut.2]
    simp only [getSlice, Nat.sub_self, List.drop_zero]
  · have hall : firstOf target.maxArgs (r.value.items ++ values) = r.value.items ++ values := by
      rw [firstOf]
      split
      · rfl
      · exact List.take_of_length_le (by omega)
    rw [if_neg hcut, hall]

/-- Cutting early does not change what is kept at the end. -/
theorem firstOf_append (m : ℕ) (l more : List (GoptValue D)) :
    firstOf m (firstOf m l ++ more) = firstOf m (l ++ more) := by
  rw [firstOf, firstOf, firstOf]
  split
  · rfl
  · rw [List.take_append, List.take_append, List.take_take, min_self, List.length_take]
    congr 2
    omega

/-- A target with a list of values keeps the first of all the values given. -/
theorem takeAll_list (hmany : target.maxArgs ≠ 1)
    (occurrences : List (List (GoptValue D))) {r : RtOption D} {l : List (GoptValue D)}
    (hvalue : r.value = .list (firstOf target.maxArgs l))
    (hn : r.n = (firstOf target.maxArgs l).length) :
    ∃ r', RtOption.takeAll target (some r) occurrences = some r' ∧
      r'.value = .list (firstOf target.maxArgs (l ++ occurrences.flatten)) ∧
      r'.n = (firstOf target.maxArgs (l ++ occurrences.flatten)).length := by
  induction occurrences generalizing r l with
  | nil => exact ⟨r, rfl, by simpa using hvalue, by simpa using hn⟩
  | cons values occurrences ih =>
    have hitems : r.value.items = firstOf target.maxArgs l := by rw [hvalue]; rfl
    have htake : r.take target values = { r with
        value := .list (firstOf target.maxArgs (l ++ values))
        n := (firstOf target.maxArgs (l ++ values)).length } := by
      rw [RtOption.take, if_neg hmany, add_eq (by rw [hn, hitems]), hitems, firstOf_append]
    obtain ⟨r', hr', hvalue', hn'⟩ := ih (r := r.take target values) (l := l ++ values)
      (by rw [htake]) (by rw [htake])
    rw [List.flatten_cons, ← List.append_assoc]
    exact ⟨r', hr', hvalue', hn'⟩

/-- A target with one value keeps the last one given, any other the first of all. -/
theorem takeAll_eq (target : GoptSpec) {occurrences : List (List (GoptValue D))}
    (hne : occurrences ≠ []) :
    ∃ r, RtOption.takeAll target none occurrences = some r ∧
      if target.maxArgs = 1 then r.value = .one (lastValue occurrences) ∧ r.n = 1
      else r.value = .list (firstOf target.maxArgs occurrences.flatten) ∧
        r.n = (firstOf target.maxArgs occurrences.flatten).length := by
  by_cases hone : target.maxArgs = 1
  · obtain ⟨before, values, rfl⟩ := List.eq_nil_or_concat occurrences |>.resolve_left hne
    rw [RtOption.takeAll, List.concat_eq_append, List.foldl_append]
    refine ⟨_, rfl, ?_⟩
    simp [hone, RtOption.take, lastValue]
  · cases occurrences with
    | nil => exact absurd rfl hne
    | cons values occurrences =>
      have hfirst : RtOption.take target { spec := target, value := .one none, n := 0 } values =
          { spec := target
            value := .list (firstOf target.maxArgs values)
            n := (firstOf target.maxArgs values).length } := by
        rw [RtOption.take, if_neg hone, add_eq rfl]
        rfl
      obtain ⟨r, hr, hvalue, hn⟩ := takeAll_list hone occurrences
        (r := RtOption.take target { spec := target, value := .one none, n := 0 } values)
        (l := values) (by rw [hfirst]) (by rw [hfirst])
      refine ⟨r, hr, ?_⟩
      rw [if_neg hone, List.flatten_cons]
      exact ⟨hvalue, hn⟩

/-! ## The flags of a command line -/

/-- An option that occurs is one of the table. -/
theorem GoptEnv.isTarget_of_occurrences {rules : List GoptRule}
    (h : env.occurrences target rules ≠ []) : env.IsTarget target := by
  obtain ⟨values, hvalues⟩ := List.exists_mem_of_ne_nil _ h
  obtain ⟨rule, hrule, rfl⟩ := List.mem_map.mp hvalues
  have hlinks := (List.mem_filter.mp hrule).2
  rw [linksTo, Bool.and_eq_true, Option.any_eq_true] at hlinks
  obtain ⟨-, cur, hcur, htarget⟩ := hlinks
  exact ⟨_, cur, hcur, of_decide_eq_true htarget⟩

/-- An option that occurs in some rules occurs in more. -/
theorem GoptEnv.occurrences_ne_nil {rules rules' : List GoptRule}
    (hsub : ∀ rule ∈ rules, rule ∈ rules') (h : env.occurrences target rules ≠ []) :
    env.occurrences target rules' ≠ [] := by
  obtain ⟨values, hvalues⟩ := List.exists_mem_of_ne_nil _ h
  obtain ⟨rule, hrule, rfl⟩ := List.mem_map.mp hvalues
  obtain ⟨hmem, hlinks⟩ := List.mem_filter.mp hrule
  exact List.ne_nil_of_mem (List.mem_map_of_mem (List.mem_filter.mpr ⟨hsub rule hmem, hlinks⟩))

theorem mem_reverse_flatten {groups : List (List GoptRule)} {rule : GoptRule} :
    rule ∈ groups.reverse.flatten ↔ rule ∈ groups.flatten := by
  simp only [List.mem_flatten, List.mem_reverse]

/-- The occurrences in two lists of rules are those of both. -/
theorem GoptEnv.occurrences_append (rules rules' : List GoptRule) :
    env.occurrences target (rules ++ rules') =
      env.occurrences target rules ++ env.occurrences target rules' := by
  rw [occurrences, List.filter_append, List.map_append]
  rfl

/-- Rules of other options are no occurrences. -/
theorem GoptEnv.occurrences_eq_nil {rules : List GoptRule}
    (h : ∀ rule ∈ rules, env.linksTo target rule = false) : env.occurrences target rules = [] := by
  rw [occurrences, List.filter_eq_nil_iff.mpr fun rule hrule => by simp [h rule hrule], List.map_nil]

/-- The values are the same when one group of options has all that there are, and they are not more
than are kept. -/
theorem sameBackwards_of_group {kids : List GoptTree} {before after : List (List GoptRule)}
    {group : List GoptRule} (hkids : kidsGroups kids = before ++ group :: after)
    (hothers : ∀ rule ∈ before.flatten ++ after.flatten, env.linksTo target rule = false)
    (hreach : ∀ rule ∈ (kidsGroups kids).flatten, env.unreachable rule = false)
    (hfew : target.maxArgs ≤ 1 ∨
      (env.occurrences target group).flatten.length ≤ target.maxArgs) :
    SameBackwards env kids target := by
  have hforwards : env.occurrences target (kidsGroups kids).flatten =
      env.occurrences target group := by
    rw [hkids, List.flatten_append, List.flatten_cons, GoptEnv.occurrences_append,
      GoptEnv.occurrences_append,
      GoptEnv.occurrences_eq_nil fun rule hrule => hothers rule (List.mem_append_left _ hrule),
      GoptEnv.occurrences_eq_nil fun rule hrule => hothers rule (List.mem_append_right _ hrule),
      List.nil_append, List.append_nil]
  have hbackwards : env.occurrences target (kidsGroups kids).reverse.flatten =
      env.occurrences target group := by
    rw [hkids, List.reverse_append, List.reverse_cons, List.flatten_append, List.flatten_append,
      List.flatten_singleton, GoptEnv.occurrences_append, GoptEnv.occurrences_append,
      GoptEnv.occurrences_eq_nil fun rule hrule =>
        hothers rule (List.mem_append_left _ (mem_reverse_flatten.mp hrule)),
      GoptEnv.occurrences_eq_nil fun rule hrule =>
        hothers rule (List.mem_append_right _ (mem_reverse_flatten.mp hrule)),
      List.nil_append, List.append_nil]
  intro hplain hne
  refine ⟨hreach, ?_⟩
  rw [hforwards, hbackwards]
  split
  next => rfl
  next hone =>
    rw [firstOf, lastOf]
    split
    next => rfl
    next hzero =>
      have hlength := hfew.resolve_left (by omega)
      rw [List.take_of_length_le hlength, Nat.sub_eq_zero_of_le hlength, List.drop_zero]

section

variable [DecidableEq D]

/-- **The flags of a command line.** An option of a plain type that occurs holds what it should just
if no rule is believed to be unreachable, and the values are the same with the groups of options
from the last one to the first, and the first values kept for the last ones. -/
theorem flags_ordered_iff (env : GoptEnv D) (kids : List GoptTree) (target : GoptSpec) :
    FlagsOrdered env kids target ↔ SameBackwards env kids target := by
  refine forall_congr' fun hplain => forall_congr' fun hne => ?_
  have htarget := GoptEnv.isTarget_of_occurrences hne
  have hback : env.occurrences target (kidsGroups kids).reverse.flatten ≠ [] :=
    GoptEnv.occurrences_ne_nil (fun rule => mem_reverse_flatten.mpr) hne
  obtain ⟨r, hr, hvalue⟩ := takeAll_eq target hback
  have hruns := extractFlagsKids_runs env kids .init
  have hends := foldlM_isSome env (kidsGroups kids).reverse.flatten .init
  -- What the entry holds is what it should hold just if the values are the same.
  have hholds : r.Holds target (env.occurrences target (kidsGroups kids).flatten) ↔
      if target.maxArgs = 1 then lastValue (env.occurrences target (kidsGroups kids).reverse.flatten) =
        lastValue (env.occurrences target (kidsGroups kids).flatten)
      else firstOf target.maxArgs
          (env.occurrences target (kidsGroups kids).reverse.flatten).flatten =
        lastOf target.maxArgs (env.occurrences target (kidsGroups kids).flatten).flatten := by
    rw [RtOption.Holds]
    by_cases hone : target.maxArgs = 1
    · rw [if_pos hone] at hvalue
      rw [if_pos hone, if_pos hone, hvalue.1, hvalue.2, RtValue.one.injEq]
      exact and_iff_left rfl
    · rw [if_neg hone] at hvalue
      rw [if_neg hone, if_neg hone, hvalue.1, hvalue.2, RtValue.list.injEq]
      exact and_iff_left_of_imp (congrArg List.length)
  have hentry : ∀ tree ctx, extractFlagsKids env kids .init = some (tree, ctx) →
      ctx.flags target.resultKey = some r := by
    intro tree ctx hctx
    rw [hctx] at hruns
    rw [flags_foldlM htarget hplain hruns.symm]
    exact hr
  have hreach : (extractFlagsKids env kids .init).isSome = true ↔
      ∀ rule ∈ (kidsGroups kids).flatten, env.unreachable rule = false := by
    rw [← Option.isSome_map (f := Prod.snd), hruns, hends, List.all_eq_true]
    simp only [mem_reverse_flatten, Bool.not_eq_true']
  rw [← hholds, ← hreach]
  constructor
  · rintro ⟨r', ctx, hctx, hflags, hr'⟩
    rw [extractFlags] at hctx
    obtain ⟨⟨tree, ctx⟩, hkids, rfl⟩ := Option.map_eq_some_iff.mp hctx
    rw [hentry tree ctx hkids, Option.some.injEq] at hflags
    subst hflags
    exact ⟨by rw [hkids]; rfl, hr'⟩
  · rintro ⟨hsome, hr'⟩
    obtain ⟨⟨tree, ctx⟩, hkids⟩ := Option.isSome_iff_exists.mp hsome
    exact ⟨r, (.node tree, ctx), by rw [extractFlags, hkids]; rfl, hentry tree ctx hkids, hr'⟩

end

/-! ## `--level=1 arg --level=2` -/

def levelOption : GoptOption :=
  { spec := { type := .word, maxArgs := 1, resultKey := 1 }, linkedOption := none }

def levelRule (value : String) : GoptRule :=
  { flag := { kind := .other, value := "level".toList }
    args := [{ kind := .word, token := { kind := .other, value := value.toList } }] }

def levelOptions (name : List Char) : Option GoptOption :=
  if name = "level".toList then some levelOption else none

theorem eq_levelOption {name : List Char} {o : GoptOption} (h : levelOptions name = some o) :
    o = levelOption := by
  rw [levelOptions] at h
  split at h
  · exact (Option.some.inj h).symm
  · cases h

theorem levelOptions_keyed {name name' : List Char} {o o' : GoptOption}
    (h : levelOptions name = some o) (h' : levelOptions name' = some o')
    (_ : o.target.resultKey = o'.target.resultKey) : o.target = o'.target := by
  rw [eq_levelOption h, eq_levelOption h']

theorem levelOptions_compat {name : List Char} {o : GoptOption} {t : GoptSpec}
    (h : levelOptions name = some o) (ht : o.linkedOption = some t) :
    t.type.compatible o.spec.type = true := by
  rw [eq_levelOption h] at ht
  cases ht

def levelEnv : GoptEnv Unit where
  allOptions := levelOptions
  parseInt64 := fun _ => none
  parseDouble := fun _ => none
  ofInt := fun _ => ()
  keyed := levelOptions_keyed
  compat := levelOptions_compat

/-- The option before and behind an argument. -/
def levelKids : List GoptTree := [.opts [levelRule "1"], .node [], .opts [levelRule "2"]]

theorem occurrences_levelKids :
    levelEnv.occurrences levelOption.spec (kidsGroups levelKids).flatten =
      [[.word "1".toList], [.word "2".toList]] := by
  simp only [levelKids, kidsGroups]
  rfl

/-- An option before and behind an argument keeps its first value. -/
theorem not_flags_ordered :
    ¬ ∀ (env : GoptEnv Unit) (kids : List GoptTree) (target : GoptSpec),
      FlagsOrdered env kids target := by
  intro h
  obtain ⟨r, ctx, hctx, hflags, hr⟩ := h levelEnv levelKids levelOption.spec rfl (by
    rw [occurrences_levelKids]
    exact List.cons_ne_nil _ _)
  rw [occurrences_levelKids] at hr
  cases hctx
  cases hflags
  have hvalue := hr.1
  rw [RtValue.one.injEq] at hvalue
  change some (GoptValue.word "1".toList) = some (GoptValue.word "2".toList) at hvalue
  cases hvalue

end N00b.Util
