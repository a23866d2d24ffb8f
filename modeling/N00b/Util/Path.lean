import N00b.Text.Split

/-!
# Paths

path.nc: `internal_normalize_and_join`, `raw_path_tilde_expand`, `n00b_resolve_path`, and what they
call.

## Representation

* A text is its codepoints. `remove_extra_slashes` can leave a string with more in its `data` than
  its `codepoints` count: a `CutText`.
* `n00b_cformat` puts its arguments where the format says, and aborts where there is a NUL in them.
* The environment variable, the entries of the password file and the current directory are
  parameters. So is whether the string of `n00b_cached_slash` has been emptied: `remove_extra_slashes`
  does that where there is no other home directory.
* No string has its codepoints in an array yet when it is split.
* `crash` is the end of the process: an access through a null pointer, or an abort.
-/

namespace N00b.Util

open N00b.Lib

abbrev Text := List Char

inductive PathError where
  | backsUp | crash
deriving DecidableEq, Repr

/-! ## Strings that are cut -/

/-- A string of whose `data` only the first `codepoints` characters count. -/
structure CutText where
  data : Text
  codepoints : ℕ
deriving DecidableEq, Repr

namespace CutText

/-- `n00b_cstring`. -/
def cstring (s : Text) : CutText := ⟨s, s.length⟩

def shown (s : CutText) : Text := s.data.take s.codepoints

def behind (s : CutText) : Text := s.data.drop s.codepoints

@[simp] theorem shown_cstring (s : Text) : (cstring s).shown = s := List.take_length

@[simp] theorem behind_cstring (s : Text) : (cstring s).behind = [] := List.drop_length

end CutText

/-- `data[i] = 0`, for the index of a byte where a character begins. -/
def zeroAt : Text → ℕ → Text
  | [], _ => []
  | c :: cs, i => if i = 0 then '\x00' :: cs else c :: zeroAt cs (i - c.utf8Size)

/-- The loop of `remove_extra_slashes`. The byte in front of the text is the last one of the header
of its allocation, a 0. -/
def removeSlashesLoop : ℕ → CutText → CutText
  | 0, result => result
  | i + 1, result =>
    if (utf8 result.data)[i]? = some 0x2F then
      removeSlashesLoop i ⟨zeroAt result.data i, result.codepoints - 1⟩
    else result

/-- `remove_extra_slashes`. It takes the number of codepoints for the index of a byte. -/
def removeExtraSlashes (result : CutText) : CutText :=
  removeSlashesLoop result.codepoints result

/-- `n00b_string_split`, at a slash that is empty once it was emptied. The search looks at a
character behind the string too. -/
def splitSlash (slash s : CutText) : List Text :=
  if slash.shown = [] then s.shown.map fun c => [c]
  else
    let pieces := s.shown.splitOn '/'
    if s.behind.head? = some '/' ∧ pieces.getLast? ≠ some [] then pieces ++ [[]] else pieces

/-! ## Normalisation -/

/-- The loop of `internal_normalize_and_join`, for so many components, from an index on: the list,
and `nextout`. -/
def normalizeLoop : ℕ → ℕ → List Text → ℤ → Except PathError (List Text × ℤ)
  | 0, _, pieces, nextout => .ok (pieces, nextout)
  | n + 1, i, pieces, nextout =>
    let s := pieces.getD i []
    if s = [] ∨ s = ['.'] then normalizeLoop n (i + 1) pieces nextout
    else if s = ['.', '.'] then normalizeLoop n (i + 1) pieces (nextout - 1)
    else if nextout < 0 then .error .backsUp
    else normalizeLoop n (i + 1) (pieces.set nextout.toNat s) (nextout + 1)

/-- A pass of the loop that puts the components together. -/
def joinPiece (result : Option Text) (s : Text) : Except PathError (Option Text) :=
  if s = [] then .ok result
  else
    let joined := result.getD [] ++ '/' :: s
    if Text.sane joined then .ok (some joined) else .error .crash

/-- `internal_normalize_and_join`. No text is a null pointer. -/
def normalizeAndJoin (slash : CutText) (pieces : List Text) : Except PathError (Option Text) :=
  match normalizeLoop pieces.length 0 pieces 0 with
  | .error e => .error e
  | .ok (pieces, nextout) =>
    if nextout = 0 then .ok (some slash.shown)
    else (pieces.take nextout.toNat).foldlM joinPiece none

/-! ## Paths in an environment -/

/-- The environment of the process. -/
structure PathEnv where
  home : Option CutText
  /-- The home directories that `getpwent` has not come to yet. -/
  passwd : List Text
  getpwnam : Text → Option Text
  cwd : Text
  /-- Whether `remove_extra_slashes` has been called with `n00b_cached_slash()`. -/
  emptied : Bool

/-- `n00b_cached_slash`. -/
def PathEnv.slash (env : PathEnv) : CutText :=
  if env.emptied then removeExtraSlashes (.cstring ['/']) else .cstring ['/']

/-- `n00b_get_user_dir`. What is cut are the strings themselves. -/
def getUserDir (env : PathEnv) : Option Text → Except PathError (CutText × PathEnv)
  | none =>
    match env.home, env.passwd with
    | some home, _ =>
      .ok (removeExtraSlashes home, { env with home := some (removeExtraSlashes home) })
    | none, dir :: more => .ok (removeExtraSlashes (.cstring dir), { env with passwd := more })
    | none, [] => .ok (removeExtraSlashes env.slash, { env with emptied := true })
  | some user =>
    match env.getpwnam user with
    | none => .error .crash
    | some dir => .ok (removeExtraSlashes (.cstring dir), env)

/-- `raw_path_tilde_expand`. No text, and the empty one, stand for a slash. -/
def rawPathTildeExpand (env : PathEnv) (path : Text) : Except PathError (List Text × PathEnv) :=
  let path := if path = [] then env.slash else .cstring path
  let parts := splitSlash env.slash path
  if path.shown.head? ≠ some '~' then .ok (parts, env)
  else do
    let name := parts.headD []
    let user := if name.length = 1 then none else some name.tail
    let (dir, env) ← getUserDir env user
    return (splitSlash env.slash dir ++ parts.set 0 [], env)

/-- `n00b_path_tilde_expand`. -/
def pathTildeExpand (env : PathEnv) (path : Text) :
    Except PathError (Option Text × PathEnv) := do
  let (parts, env) ← rawPathTildeExpand env path
  return (← normalizeAndJoin env.slash parts, env)

/-- `n00b_get_home_directory`. -/
def getHomeDirectory (env : PathEnv) : Except PathError (Option Text × PathEnv) :=
  pathTildeExpand env []

/-- `n00b_resolve_path`. -/
def resolvePath (env : PathEnv) (s : Option Text) :
    Except PathError (Option Text × PathEnv) :=
  match s.getD [] with
  | [] => getHomeDirectory env
  | '~' :: rest => pathTildeExpand env ('~' :: rest)
  | '/' :: rest =>
    return (← normalizeAndJoin env.slash (splitSlash env.slash (.cstring ('/' :: rest))), env)
  | path =>
    let parts := splitSlash env.slash (.cstring env.cwd)
    return (← normalizeAndJoin env.slash (parts ++ splitSlash env.slash (.cstring path)), env)

/-! ## What is asked of them -/

def Blank (s : Text) : Prop := s = [] ∨ s = ['.']

/-- A component that cancels another one. -/
def Up (s : Text) : Prop := s = ['.', '.']

instance : DecidablePred Blank := fun _ => inferInstanceAs (Decidable (_ ∨ _))
instance : DecidablePred Up := fun _ => inferInstanceAs (Decidable (_ = _))

/-- A component that stays until it is cancelled. -/
def Ordinary (s : Text) : Prop := ¬ Blank s ∧ ¬ Up s

instance : DecidablePred Ordinary := fun _ => inferInstanceAs (Decidable (_ ∧ _))

/-- A component after those that are left of the ones before it. -/
def cancel (stack : List Text) (s : Text) : List Text :=
  if Blank s then stack else if Up s then stack.dropLast else stack ++ [s]

/-- Components that back up further than there are components before them, so many already. -/
def Exceeds (depth : ℕ) (p : List Text) : Prop := depth + p.countP Ordinary < p.countP Up

def BacksUp (depth : ℕ) (pieces : List Text) : Prop := ∃ p, p <+: pieces ∧ Exceeds depth p

/-- **The path of components**: a slash, and the components with slashes between them. -/
def joined (pieces : List Text) : Text := '/' :: ['/'].intercalate pieces

/-- The components that are left. -/
def remaining (pieces : List Text) : List Text := pieces.foldl cancel []

/-- **What normalisation should do.** -/
def Normalized (pieces : List Text) (result : Except PathError (Option Text)) : Prop :=
  (BacksUp 0 pieces → result = .error .backsUp) ∧
    (¬ BacksUp 0 pieces → result = .ok (some (joined (remaining pieces))))

/-- Some prefix backs up past the root, and an ordinary component follows somewhere. -/
def Raises (depth : ℕ) (pieces : List Text) : Prop :=
  ∃ p c rest, pieces = p ++ c :: rest ∧ Exceeds depth p ∧ Ordinary c

/-! ## Cutting slashes off -/

/-- In the bytes, a NUL takes the place of the slash. -/
theorem utf8_zeroAt {cs : Text} {i : ℕ} (h : (utf8 cs)[i]? = some 0x2F) :
    utf8 (zeroAt cs i) = (utf8 cs).set i 0 := by
  induction cs generalizing i with
  | nil => cases h
  | cons c cs ih =>
    have hsize := String.length_utf8EncodeChar c
    rw [utf8_cons] at h ⊢
    by_cases hi : i < c.utf8Size
    · -- A slash is no byte of a longer character.
      rw [List.getElem?_append_left (by omega)] at h
      have hascii : c.toNat < 0x80 := by
        by_contra hlong
        have hle := le_of_mem_utf8EncodeChar (Nat.le_of_not_lt hlong) (List.mem_of_getElem? h)
        exact absurd hle (by decide)
      have hzero : i = 0 := by
        rw [utf8Size_ascii hascii] at hi
        omega
      rw [hzero, zeroAt, if_pos rfl, utf8_cons, utf8EncodeChar_ascii hascii]
      rfl
    · have hpos := c.utf8Size_pos
      rw [List.getElem?_append_right (by omega), hsize] at h
      rw [zeroAt, if_neg (by omega), utf8_cons, ih h, List.set_append_right _ _ (by omega), hsize]

/-- The loop ends at the front, or at a byte that is no slash. -/
theorem removeSlashesLoop_stops {n : ℕ} {s : CutText} (hn : s.codepoints = n) :
    (removeSlashesLoop n s).codepoints = 0 ∨ ∃ i, (removeSlashesLoop n s).codepoints = i + 1 ∧
      (utf8 (removeSlashesLoop n s).data)[i]? ≠ some 0x2F := by
  induction n generalizing s with
  | zero => exact .inl hn
  | succ n ih =>
    rw [removeSlashesLoop]
    split
    next => exact ih (by rw [hn]; rfl)
    next h => exact .inr ⟨n, hn, h⟩

/-- **The home directory is cut once.** -/
theorem removeExtraSlashes_idem (s : CutText) :
    removeExtraSlashes (removeExtraSlashes s) = removeExtraSlashes s := by
  have hstops := removeSlashesLoop_stops (s := s) rfl
  rw [← removeExtraSlashes] at hstops
  generalize removeExtraSlashes s = r at hstops ⊢
  unfold removeExtraSlashes
  rcases hstops with hzero | ⟨i, hlast, hbyte⟩
  · rw [hzero]
    rfl
  · rw [hlast]
    exact if_neg hbyte

example : removeExtraSlashes (.cstring ['/', 'é', '/', 'a']) = ⟨['/', 'é', '\x00', 'a'], 3⟩ := by
  decide

/-! ## Backing up -/

section

variable {depth : ℕ} {c : Text} {p rest : List Text}

theorem not_exceeds_nil : ¬ Exceeds depth [] := by simp [Exceeds]

/-- A blank component changes nothing. -/
theorem exceeds_blank (hc : Blank c) : Exceeds depth (c :: p) ↔ Exceeds depth p := by
  have hup : ¬ Up c := by
    rintro rfl
    exact absurd hc (by decide)
  have hord : ¬ Ordinary c := fun h => h.1 hc
  simp [Exceeds, hup, hord]

/-- An ordinary one is one more to back up over. -/
theorem exceeds_ordinary (hc : Ordinary c) : Exceeds depth (c :: p) ↔ Exceeds (depth + 1) p := by
  simp only [Exceeds, List.countP_cons, hc, hc.2, decide_true, decide_false, if_true,
    Bool.false_eq_true, if_false]
  omega

/-- `..` backs up over one. -/
theorem exceeds_up (hc : Up c) :
    Exceeds depth (c :: p) ↔ depth + p.countP Ordinary < p.countP Up + 1 := by
  have hord : ¬ Ordinary c := fun h => h.2 hc
  simp [Exceeds, hc, hord]

theorem backsUp_cons : BacksUp depth (c :: rest) ↔ ∃ p, p <+: rest ∧ Exceeds depth (c :: p) := by
  constructor
  · rintro ⟨p, hp, hexceeds⟩
    rcases List.prefix_cons_iff.mp hp with rfl | ⟨p', rfl, hp'⟩
    · exact absurd hexceeds not_exceeds_nil
    · exact ⟨p', hp', hexceeds⟩
  · rintro ⟨p, hp, hexceeds⟩
    exact ⟨c :: p, List.cons_prefix_cons.mpr ⟨rfl, hp⟩, hexceeds⟩

theorem raises_cons : Raises depth (c :: rest) ↔
    ∃ p d tail, rest = p ++ d :: tail ∧ Exceeds depth (c :: p) ∧ Ordinary d := by
  constructor
  · rintro ⟨p, d, tail, heq, hexceeds, hd⟩
    cases p with
    | nil => exact absurd hexceeds not_exceeds_nil
    | cons _ p =>
      cases heq
      exact ⟨p, d, tail, rfl, hexceeds, hd⟩
  · rintro ⟨p, d, tail, rfl, hexceeds, hd⟩
    exact ⟨c :: p, d, tail, rfl, hexceeds, hd⟩

theorem not_backsUp_nil : ¬ BacksUp depth [] := by
  rintro ⟨p, hp, hexceeds⟩
  obtain rfl := List.prefix_nil.mp hp
  exact not_exceeds_nil hexceeds

theorem Raises.backsUp (h : Raises depth rest) : BacksUp depth rest := by
  obtain ⟨p, c, tail, rfl, hexceeds, -⟩ := h
  exact ⟨p, List.prefix_append p _, hexceeds⟩

/-- Backing up past the root raises just if an ordinary component follows. -/
theorem raises_up_zero (hc : Up c) : Raises 0 (c :: rest) ↔ ∃ d ∈ rest, Ordinary d := by
  rw [raises_cons]
  constructor
  · rintro ⟨p, d, tail, rfl, -, hd⟩
    exact ⟨d, by simp, hd⟩
  · rintro ⟨d, hd, hord⟩
    have hsome : (rest.find? fun x => decide (Ordinary x)).isSome :=
      List.find?_isSome.mpr ⟨d, hd, decide_eq_true hord⟩
    obtain ⟨first, hfirst⟩ := Option.isSome_iff_exists.mp hsome
    obtain ⟨hfound, p, tail, heq, hbefore⟩ := List.find?_eq_some_iff_append.mp hfirst
    refine ⟨p, first, tail, heq, ?_, of_decide_eq_true hfound⟩
    have hzero : p.countP Ordinary = 0 := by
      rw [List.countP_eq_zero]
      intro x hx
      simpa using hbefore x hx
    rw [exceeds_up hc, hzero]
    omega

theorem backsUp_blank (hc : Blank c) : BacksUp depth (c :: rest) ↔ BacksUp depth rest := by
  simp only [backsUp_cons, exceeds_blank hc]
  rfl

theorem backsUp_ordinary (hc : Ordinary c) :
    BacksUp depth (c :: rest) ↔ BacksUp (depth + 1) rest := by
  simp only [backsUp_cons, exceeds_ordinary hc]
  rfl

/-- `..` takes off one component of the stack. -/
theorem backsUp_up (hc : Up c) : BacksUp (depth + 1) (c :: rest) ↔ BacksUp depth rest := by
  have hexceeds (p : List Text) : Exceeds (depth + 1) (c :: p) ↔ Exceeds depth p := by
    rw [exceeds_up hc, Exceeds]
    omega
  simp only [backsUp_cons, hexceeds]
  rfl

theorem backsUp_up_zero (hc : Up c) : BacksUp 0 (c :: rest) := by
  refine backsUp_cons.mpr ⟨[], List.nil_prefix, ?_⟩
  rw [exceeds_up hc]
  exact Nat.zero_lt_one

theorem raises_blank (hc : Blank c) : Raises depth (c :: rest) ↔ Raises depth rest := by
  simp only [raises_cons, exceeds_blank hc]
  rfl

theorem raises_ordinary (hc : Ordinary c) :
    Raises depth (c :: rest) ↔ Raises (depth + 1) rest := by
  simp only [raises_cons, exceeds_ordinary hc]
  rfl

/-- So it does for what raises. -/
theorem raises_up (hc : Up c) : Raises (depth + 1) (c :: rest) ↔ Raises depth rest := by
  have hexceeds (p : List Text) : Exceeds (depth + 1) (c :: p) ↔ Exceeds depth p := by
    rw [exceeds_up hc, Exceeds]
    omega
  simp only [raises_cons, hexceeds]
  rfl

end

/-! ## The loop -/

theorem getD_done (c : Text) (done rest : List Text) :
    (done ++ c :: rest).getD done.length [] = c := by
  simp [List.getD_eq_getElem?_getD]

variable {c : Text}

/-- The loop passes a blank component. -/
theorem normalizeLoop_blank (hc : Blank c) (done rest : List Text) (nextout : ℤ) :
    normalizeLoop (c :: rest).length done.length (done ++ c :: rest) nextout =
      normalizeLoop rest.length (done ++ [c]).length (done ++ [c] ++ rest) nextout := by
  rw [List.length_cons, normalizeLoop]
  simp only [getD_done]
  rw [if_pos (show c = [] ∨ c = ['.'] from hc), List.append_cons, List.length_append]
  rfl

/-- It goes back at `..`. -/
theorem normalizeLoop_up (hc : Up c) (done rest : List Text) (nextout : ℤ) :
    normalizeLoop (c :: rest).length done.length (done ++ c :: rest) nextout =
      normalizeLoop rest.length (done ++ [c]).length (done ++ [c] ++ rest) (nextout - 1) := by
  have hblank : ¬(c = [] ∨ c = ['.']) := by
    rw [show c = ['.', '.'] from hc]
    decide
  rw [List.length_cons, normalizeLoop]
  simp only [getD_done]
  rw [if_neg hblank, if_pos (show c = ['.', '.'] from hc), List.append_cons, List.length_append]
  rfl

/-- It stores an ordinary component, and raises below the root. -/
theorem normalizeLoop_ordinary (hc : Ordinary c) (done rest : List Text) (nextout : ℤ) :
    normalizeLoop (c :: rest).length done.length (done ++ c :: rest) nextout =
      if nextout < 0 then .error .backsUp
      else normalizeLoop rest.length (done.length + 1) ((done ++ c :: rest).set nextout.toNat c)
        (nextout + 1) := by
  rw [List.length_cons, normalizeLoop]
  simp only [getD_done]
  rw [if_neg (show ¬(c = [] ∨ c = ['.']) from hc.1), if_neg (show ¬c = ['.', '.'] from hc.2)]

/-- Below the root it raises at the next ordinary component, and only there. -/
theorem normalizeLoop_neg (rest done : List Text) {nextout : ℤ}
    (hneg : nextout < 0) :
    ((∃ c ∈ rest, Ordinary c) →
      normalizeLoop rest.length done.length (done ++ rest) nextout = .error .backsUp) ∧
    ((∀ c ∈ rest, ¬ Ordinary c) →
      ∃ pieces, ∃ n < 0,
        normalizeLoop rest.length done.length (done ++ rest) nextout = .ok (pieces, n)) := by
  induction rest generalizing done nextout with
  | nil => exact ⟨by simp, fun _ => ⟨_, nextout, hneg, rfl⟩⟩
  | cons c rest ih =>
    by_cases hord : Ordinary c
    · refine ⟨fun _ => ?_, fun hnone => absurd hord (hnone c List.mem_cons_self)⟩
      rw [normalizeLoop_ordinary hord, if_pos hneg]
    · have hrest : (∃ d ∈ c :: rest, Ordinary d) ↔ ∃ d ∈ rest, Ordinary d := by simp [hord]
      have hall : (∀ d ∈ c :: rest, ¬ Ordinary d) ↔ ∀ d ∈ rest, ¬ Ordinary d := by simp [hord]
      rw [hrest, hall]
      by_cases hblank : Blank c
      · rw [normalizeLoop_blank hblank]
        exact ih (done ++ [c]) hneg
      · have hup : Up c := by
          by_contra hup
          exact hord ⟨hblank, hup⟩
        rw [normalizeLoop_up hup]
        exact ih (done ++ [c]) (by omega)

/-- How the loop ends that has left so many components and comes to others. -/
structure Ends (stack rest : List Text) (r : Except PathError (List Text × ℤ)) : Prop where
  raises : Raises stack.length rest → r = .error .backsUp
  under : BacksUp stack.length rest → ¬ Raises stack.length rest →
    ∃ pieces, ∃ n < 0, r = .ok (pieces, n)
  left : ¬ BacksUp stack.length rest → ∃ pieces,
    r = .ok (pieces, ((rest.foldl cancel stack).length : ℤ)) ∧
      pieces.take (rest.foldl cancel stack).length = rest.foldl cancel stack

/-- **The loop** ends with the components that are left, or raises where it should. -/
theorem normalizeLoop_ends (rest done stack : List Text) (hstack : stack <+: done) :
    Ends stack rest (normalizeLoop rest.length done.length (done ++ rest) stack.length) := by
  induction rest generalizing done stack with
  | nil =>
    refine ⟨fun h => absurd h.backsUp not_backsUp_nil, fun h => absurd h not_backsUp_nil,
      fun _ => ⟨done, ?_, ?_⟩⟩
    · rw [List.append_nil]
      rfl
    · exact (List.prefix_iff_eq_take.mp hstack).symm
  | cons c rest ih =>
    by_cases hblank : Blank c
    · have h := ih (done ++ [c]) stack (hstack.trans (List.prefix_append _ _))
      have hcancel : cancel stack c = stack := if_pos hblank
      rw [normalizeLoop_blank hblank]
      refine ⟨?_, ?_, ?_⟩
      · rw [raises_blank hblank]
        exact h.raises
      · rw [raises_blank hblank, backsUp_blank hblank]
        exact h.under
      · rw [backsUp_blank hblank, List.foldl_cons, hcancel]
        exact h.left
    by_cases hup : Up c
    · rw [normalizeLoop_up hup]
      have hcancel : cancel stack c = stack.dropLast := by rw [cancel, if_neg hblank, if_pos hup]
      rcases List.eq_nil_or_concat' stack with rfl | ⟨stack, x, rfl⟩
      · obtain ⟨hraise, hunder⟩ := normalizeLoop_neg rest (done ++ [c])
          (show ((([] : List Text).length : ℕ) : ℤ) - 1 < 0 by decide)
        refine ⟨?_, fun _ => ?_, fun h => absurd (backsUp_up_zero hup) h⟩
        · rw [List.length_nil, raises_up_zero hup]
          exact hraise
        · rw [List.length_nil, raises_up_zero hup]
          intro hnone
          exact hunder fun d hd hord => hnone ⟨d, hd, hord⟩
      · have hprefix : stack <+: done ++ [c] :=
          (List.prefix_append stack [x]).trans (hstack.trans (List.prefix_append _ _))
        have h := ih (done ++ [c]) stack hprefix
        have hlen : (((stack ++ [x]).length : ℕ) : ℤ) - 1 = stack.length := by simp
        rw [hlen]
        refine ⟨?_, ?_, ?_⟩
        · rw [List.length_append, List.length_singleton, raises_up hup]
          exact h.raises
        · rw [List.length_append, List.length_singleton, raises_up hup, backsUp_up hup]
          exact h.under
        · rw [List.length_append, List.length_singleton, backsUp_up hup, List.foldl_cons, hcancel,
            List.dropLast_concat]
          exact h.left
    · have hord : Ordinary c := ⟨hblank, hup⟩
      have hcancel : cancel stack c = stack ++ [c] := by rw [cancel, if_neg hblank, if_neg hup]
      obtain ⟨z, tail, hdone⟩ : ∃ z tail, done ++ [c] = stack ++ z :: tail := by
        obtain ⟨tail, rfl⟩ := hstack
        cases tail with
        | nil => exact ⟨c, [], by simp⟩
        | cons z tail => exact ⟨z, tail ++ [c], by simp⟩
      have hset : (done ++ c :: rest).set stack.length c = stack ++ c :: tail ++ rest := by
        rw [List.append_cons, hdone]
        simp
      have hlen : done.length + 1 = (stack ++ c :: tail).length := by
        have h := congrArg List.length hdone
        simpa using h
      have h := ih (stack ++ c :: tail) (stack ++ [c]) ⟨tail, by simp⟩
      have hsize : (stack ++ [c]).length = stack.length + 1 := by simp
      have hnext : (stack.length : ℤ) + 1 = (stack ++ [c]).length := by simp
      rw [normalizeLoop_ordinary hord, if_neg (by omega), Int.toNat_natCast, hset, hlen, hnext]
      refine ⟨?_, ?_, ?_⟩
      · rw [raises_ordinary hord, ← hsize]
        exact h.raises
      · rw [raises_ordinary hord, backsUp_ordinary hord, ← hsize]
        exact h.under
      · rw [backsUp_ordinary hord, ← hsize, List.foldl_cons, hcancel]
        exact h.left

/-! ## Putting the components together -/

/-- What is left is ordinary. -/
theorem ordinary_of_mem_cancel {pieces stack : List Text} (hstack : ∀ c ∈ stack, Ordinary c) :
    ∀ c ∈ pieces.foldl cancel stack, Ordinary c := by
  induction pieces generalizing stack with
  | nil => exact hstack
  | cons s pieces ih =>
    refine ih fun c hc => ?_
    rw [cancel] at hc
    split at hc
    next => exact hstack c hc
    next hblank =>
      split at hc
      next => exact hstack c (List.mem_of_mem_dropLast hc)
      next hup =>
        rcases List.mem_append.mp hc with hc | hc
        · exact hstack c hc
        · rw [List.mem_singleton.mp hc]
          exact ⟨hblank, hup⟩

theorem joined_cons (s : Text) (pieces : List Text) :
    joined (s :: pieces) = '/' :: s ++ pieces.flatMap fun s => '/' :: s := by
  induction pieces generalizing s with
  | nil => simp [joined]
  | cons t pieces ih =>
    have h := ih t
    simp only [joined, List.cons_append, List.cons_inj_right] at h
    simp [joined, List.intercalate_cons_cons, h]

variable {pieces : List Text}

/-- A path of components has a slash in front of each. -/
theorem joined_eq (h : pieces ≠ []) : joined pieces = pieces.flatMap fun s => '/' :: s := by
  cases pieces with
  | nil => exact absurd rfl h
  | cons s pieces => rw [joined_cons, List.flatMap_cons]

/-- The components go behind each other while none of them holds a NUL. -/
theorem foldlM_joinPiece (hne : ∀ c ∈ pieces, c ≠ []) (r : Option Text)
    (hr : Text.sane (r.getD [])) :
    ((∀ c ∈ pieces, Text.sane c) → pieces.foldlM joinPiece r = .ok
      (if pieces = [] then r else some (r.getD [] ++ pieces.flatMap fun s => '/' :: s))) ∧
    ((∃ c ∈ pieces, ¬ Text.sane c) → pieces.foldlM joinPiece r = .error .crash) := by
  induction pieces generalizing r with
  | nil => exact ⟨fun _ => rfl, by simp⟩
  | cons s pieces ih =>
    obtain ⟨hs, hne⟩ := List.forall_mem_cons.mp hne
    have hjoined : Text.sane (r.getD [] ++ '/' :: s) ↔ Text.sane s := by
      rw [Text.sane_append, and_iff_right hr, Text.sane_iff, Text.sane_iff, List.mem_cons,
        or_iff_right (by decide)]
    rw [List.foldlM_cons, joinPiece, if_neg hs]
    by_cases hsane : Text.sane s
    · obtain ⟨hok, herror⟩ := ih hne (some (r.getD [] ++ '/' :: s)) (hjoined.mpr hsane)
      simp only [hjoined.mpr hsane, if_true, List.forall_mem_cons, hsane, true_and,
        List.exists_mem_cons_iff, not_true, false_or]
      refine ⟨fun hall => (hok hall).trans ?_, herror⟩
      cases pieces <;> simp
    · have hjoined' : ¬ Text.sane (r.getD [] ++ '/' :: s) := fun h => hsane (hjoined.mp h)
      refine ⟨fun hall => absurd (hall s List.mem_cons_self) hsane, fun _ => ?_⟩
      simp only [hjoined']
      rfl

/-- What `internal_normalize_and_join` gives. -/
structure Results (slash : CutText) (pieces : List Text) (r : Except PathError (Option Text)) :
    Prop where
  raises : Raises 0 pieces → r = .error .backsUp
  under : BacksUp 0 pieces → ¬ Raises 0 pieces → r = .ok none
  nothing : ¬ BacksUp 0 pieces → remaining pieces = [] → r = .ok (some slash.shown)
  left : ¬ BacksUp 0 pieces → remaining pieces ≠ [] → (∀ c ∈ remaining pieces, Text.sane c) →
    r = .ok (some (joined (remaining pieces)))
  aborts : ¬ BacksUp 0 pieces → (∃ c ∈ remaining pieces, ¬ Text.sane c) → r = .error .crash

/-- **What normalisation gives**: nothing, an error, or the components that are left. -/
theorem normalizeAndJoin_results (slash : CutText) (pieces : List Text) :
    Results slash pieces (normalizeAndJoin slash pieces) := by
  have hends := normalizeLoop_ends pieces [] [] List.prefix_rfl
  simp only [List.length_nil, List.nil_append, Nat.cast_zero] at hends
  have hne : ∀ c ∈ remaining pieces, c ≠ [] := fun c hc hnil =>
    (ordinary_of_mem_cancel (fun _ h => absurd h List.not_mem_nil) c hc).1 (.inl hnil)
  have hjoin (hbacks : ¬ BacksUp 0 pieces) (hleft : remaining pieces ≠ []) :
      normalizeAndJoin slash pieces = (remaining pieces).foldlM joinPiece none := by
    obtain ⟨pieces', heq, htake⟩ := hends.left hbacks
    have hlen : (((remaining pieces).length : ℕ) : ℤ) ≠ 0 := by
      rw [Nat.cast_ne_zero]
      exact List.length_eq_zero_iff.not.mpr hleft
    rw [normalizeAndJoin, heq]
    simp only [Int.toNat_natCast, htake]
    exact if_neg hlen
  obtain ⟨hok, herror⟩ := foldlM_joinPiece hne none rfl
  refine ⟨fun hraises => ?_, fun hbacks hraises => ?_, fun hbacks hleft => ?_,
    fun hbacks hleft hsane => ?_, fun hbacks hsane => ?_⟩
  · rw [normalizeAndJoin, hends.raises hraises]
  · obtain ⟨pieces', n, hneg, heq⟩ := hends.under hbacks hraises
    rw [normalizeAndJoin, heq]
    simp only
    rw [if_neg hneg.ne, Int.toNat_of_nonpos hneg.le]
    rfl
  · obtain ⟨pieces', heq, -⟩ := hends.left hbacks
    rw [normalizeAndJoin, heq]
    simp only
    rw [if_pos]
    rw [show pieces.foldl cancel [] = [] from hleft]
    rfl
  · rw [hjoin hbacks hleft, hok hsane, if_neg hleft, joined_eq hleft]
    rfl
  · have hleft : remaining pieces ≠ [] := by
      obtain ⟨c, hc, -⟩ := hsane
      exact List.ne_nil_of_mem hc
    rw [hjoin hbacks hleft, herror hsane]

/-- The cached slash, by whether it has been emptied. -/
theorem slash_shown (env : PathEnv) :
    env.slash.shown = if env.emptied then [] else ['/'] := by
  cases h : env.emptied <;> simp only [PathEnv.slash, h] <;> decide

/-- Components that are normalised as they should. -/
def Normalizes (emptied : Bool) (pieces : List Text) : Prop :=
  (BacksUp 0 pieces → Raises 0 pieces) ∧
    (¬ BacksUp 0 pieces →
      (∀ c ∈ remaining pieces, Text.sane c) ∧ (emptied → remaining pieces ≠ []))

/-- It is what it should be just if nothing backs up past the root, or something ordinary follows,
and the slash is still one. -/
theorem normalizeAndJoin_iff (env : PathEnv) (pieces : List Text) :
    Normalized pieces (normalizeAndJoin env.slash pieces) ↔ Normalizes env.emptied pieces := by
  have hresults := normalizeAndJoin_results env.slash pieces
  constructor
  · rintro ⟨hraise, hleft⟩
    refine ⟨fun hbacks => ?_, fun hbacks => ⟨fun c hc => ?_, fun hemptied hnothing => ?_⟩⟩
    · by_contra hraises
      have hnull := hresults.under hbacks hraises
      rw [hraise hbacks] at hnull
      cases hnull
    · by_contra hsane
      have haborts := hresults.aborts hbacks ⟨c, hc, hsane⟩
      rw [hleft hbacks] at haborts
      cases haborts
    · have hempty := hresults.nothing hbacks hnothing
      rw [hleft hbacks, slash_shown, if_pos hemptied] at hempty
      cases hempty
  · rintro ⟨hraises, hleft⟩
    refine ⟨fun hbacks => hresults.raises (hraises hbacks), fun hbacks => ?_⟩
    obtain ⟨hsane, hemptied⟩ := hleft hbacks
    by_cases hnothing : remaining pieces = []
    · have hintact : ¬ env.emptied = true := fun h => hemptied h hnothing
      rw [hresults.nothing hbacks hnothing, slash_shown, if_neg hintact, hnothing]
      rfl
    · exact hresults.left hbacks hnothing hsane

/-! ## Resolved paths -/

/-- The components that `n00b_resolve_path` normalises, and the environment after it has them. -/
def resolveParts (env : PathEnv) (s : Option Text) : Except PathError (List Text × PathEnv) :=
  match s.getD [] with
  | [] => rawPathTildeExpand env []
  | '~' :: rest => rawPathTildeExpand env ('~' :: rest)
  | '/' :: rest => .ok (splitSlash env.slash (.cstring ('/' :: rest)), env)
  | path =>
    .ok (splitSlash env.slash (.cstring env.cwd) ++ splitSlash env.slash (.cstring path), env)

/-- A path is resolved by its parts. -/
theorem resolvePath_eq (env : PathEnv) (s : Option Text) :
    resolvePath env s = (resolveParts env s).bind fun (parts, env) =>
      (normalizeAndJoin env.slash parts).bind fun r => .ok (r, env) := by
  rw [resolvePath, resolveParts]
  split <;> rfl

theorem resolvePath_ok {env env' : PathEnv} {s r : Option Text} :
    resolvePath env s = .ok (r, env') ↔
      ∃ parts, resolveParts env s = .ok (parts, env') ∧
        normalizeAndJoin env'.slash parts = .ok r := by
  rw [resolvePath_eq]
  cases hparts : resolveParts env s with
  | error e => simp [Except.bind]
  | ok result =>
    obtain ⟨parts, env₁⟩ := result
    cases hjoin : normalizeAndJoin env₁.slash parts with
    | error e =>
      simp only [Except.bind, hjoin, Except.ok.injEq, Prod.mk.injEq, reduceCtorEq, false_iff]
      rintro ⟨parts', ⟨rfl, rfl⟩, hok⟩
      rw [hjoin] at hok
      cases hok
    | ok r₁ =>
      simp only [Except.bind, hjoin, Except.ok.injEq, Prod.mk.injEq]
      constructor
      · rintro ⟨rfl, rfl⟩
        exact ⟨parts, ⟨rfl, rfl⟩, hjoin⟩
      · rintro ⟨parts', ⟨rfl, rfl⟩, hok⟩
        rw [hjoin] at hok
        cases hok
        exact ⟨rfl, rfl⟩

/-- What lies between slashes has none. -/
theorem slash_not_mem_of_mem_splitOn {s c : Text} (hc : c ∈ s.splitOn '/') : '/' ∉ c := by
  induction s generalizing c with
  | nil =>
    rw [List.splitOn_nil, List.mem_singleton] at hc
    subst hc
    exact List.not_mem_nil
  | cons x s ih =>
    rw [List.splitOn_cons_eq_if_modifyHead] at hc
    split at hc
    next =>
      rcases List.mem_cons.mp hc with rfl | hc
      · exact List.not_mem_nil
      · exact ih hc
    next hx =>
      cases hsplit : s.splitOn '/' with
      | nil => exact absurd hsplit (List.splitOn_ne_nil _ _)
      | cons first others =>
        rw [hsplit] at hc ih
        rcases List.mem_cons.mp hc with rfl | hc
        · have hfirst : '/' ∉ first := ih List.mem_cons_self
          intro hmem
          rcases List.mem_cons.mp hmem with heq | hmem
          · exact hx (beq_iff_eq.mpr heq.symm)
          · exact hfirst hmem
        · exact ih (List.mem_cons_of_mem _ hc)

theorem slash_not_mem_of_mem_splitSlash {slash s : CutText} (hslash : slash.shown ≠ []) {c : Text}
    (hc : c ∈ splitSlash slash s) : '/' ∉ c := by
  rw [splitSlash, if_neg hslash] at hc
  simp only at hc
  split at hc
  · rcases List.mem_append.mp hc with hc | hc
    · exact slash_not_mem_of_mem_splitOn hc
    · rw [List.mem_singleton.mp hc]
      exact List.not_mem_nil
  · exact slash_not_mem_of_mem_splitOn hc

theorem slash_shown_ne_nil {env : PathEnv} (h : env.emptied = false) : env.slash.shown ≠ [] := by
  rw [slash_shown, h]
  decide

/-- The cached slash stays empty. -/
theorem emptied_of_getUserDir {env env' : PathEnv} {user : Option Text} {dir : CutText}
    (h : getUserDir env user = .ok (dir, env')) (hemptied : env'.emptied = false) :
    env.emptied = false := by
  unfold getUserDir at h
  split at h
  · split at h
    all_goals cases h
    · exact hemptied
    · exact hemptied
    · cases hemptied
  · split at h
    · cases h
    · cases h
      exact hemptied

theorem slash_not_mem_tildeParts {env env' : PathEnv} {path : Text} {parts : List Text}
    (h : rawPathTildeExpand env path = .ok (parts, env')) (hemptied : env'.emptied = false) :
    ∀ c ∈ parts, '/' ∉ c := by
  simp only [rawPathTildeExpand] at h
  generalize (if path = [] then env.slash else CutText.cstring path) = path' at h
  split at h
  next =>
    cases h
    exact fun c => slash_not_mem_of_mem_splitSlash (slash_shown_ne_nil hemptied)
  next =>
    generalize hdir : getUserDir env _ = dir at h
    cases dir with
    | error e => cases h
    | ok dir =>
      obtain ⟨dir, env₁⟩ := dir
      cases h
      have hbefore := emptied_of_getUserDir hdir hemptied
      intro c hc
      rcases List.mem_append.mp hc with hc | hc
      · exact slash_not_mem_of_mem_splitSlash (slash_shown_ne_nil hemptied) hc
      · rcases List.mem_or_eq_of_mem_set hc with hc | rfl
        · exact slash_not_mem_of_mem_splitSlash (slash_shown_ne_nil hbefore) hc
        · exact List.not_mem_nil

/-- The parts of a path have no slashes. -/
theorem slash_not_mem_resolveParts {env env' : PathEnv} {s : Option Text} {parts : List Text}
    (h : resolveParts env s = .ok (parts, env')) (hemptied : env'.emptied = false) :
    ∀ c ∈ parts, '/' ∉ c := by
  rw [resolveParts] at h
  split at h
  next => exact slash_not_mem_tildeParts h hemptied
  next => exact slash_not_mem_tildeParts h hemptied
  next =>
    cases h
    exact fun c => slash_not_mem_of_mem_splitSlash (slash_shown_ne_nil hemptied)
  next =>
    cases h
    intro c hc
    rcases List.mem_append.mp hc with hc | hc
    · exact slash_not_mem_of_mem_splitSlash (slash_shown_ne_nil hemptied) hc
    · exact slash_not_mem_of_mem_splitSlash (slash_shown_ne_nil hemptied) hc

/-- Without `..` nothing backs up. -/
theorem not_backsUp_of_not_up {depth : ℕ} (h : ∀ c ∈ pieces, ¬ Up c) :
    ¬ BacksUp depth pieces := by
  rintro ⟨p, hp, hexceeds⟩
  have hzero : p.countP Up = 0 := by
    rw [List.countP_eq_zero]
    intro c hc
    simpa using h c (hp.subset hc)
  rw [Exceeds, hzero] at hexceeds
  exact absurd hexceeds (Nat.not_lt_zero _)

theorem foldl_cancel_of_not_up (h : ∀ c ∈ pieces, ¬ Up c) (stack : List Text) :
    pieces.foldl cancel stack = stack ++ pieces.filter fun c => ¬ Blank c := by
  induction pieces generalizing stack with
  | nil => simp
  | cons c pieces ih =>
    obtain ⟨hc, h⟩ := List.forall_mem_cons.mp h
    rw [List.foldl_cons, ih h]
    by_cases hblank : Blank c
    · rw [cancel, if_pos hblank, List.filter_cons_of_neg (by simpa using hblank)]
    · rw [cancel, if_neg hblank, if_neg hc, List.filter_cons_of_pos (by simpa using hblank)]
      simp

theorem mem_of_mem_cancel {pieces stack : List Text}
    (hc : c ∈ pieces.foldl cancel stack) : c ∈ stack ∨ c ∈ pieces := by
  induction pieces generalizing stack with
  | nil => exact .inl hc
  | cons s pieces ih =>
    rcases ih hc with hc | hc
    · rw [cancel] at hc
      split at hc
      next => exact .inl hc
      next =>
        split at hc
        next => exact .inl (List.mem_of_mem_dropLast hc)
        next =>
          rcases List.mem_append.mp hc with hc | hc
          · exact .inl hc
          · exact .inr (List.mem_cons.mpr (.inl (List.mem_singleton.mp hc)))
    · exact .inr (List.mem_cons_of_mem s hc)

/-- Without a path there is the cached slash. -/
theorem resolvePath_empty (env : PathEnv) {s : Option Text} (hs : s.getD [] = []) :
    resolvePath env s = .ok (some env.slash.shown, env) := by
  unfold resolvePath
  rw [hs]
  obtain ⟨home, passwd, getpwnam, cwd, emptied⟩ := env
  cases emptied <;> rfl

/-- What is left of a path stands for itself, while there is a slash. -/
theorem resolvePath_joined {env : PathEnv} (hemptied : env.emptied = false)
    (hord : ∀ c ∈ pieces, Ordinary c) (hslash : ∀ c ∈ pieces, '/' ∉ c)
    (hsane : ∀ c ∈ pieces, Text.sane c) :
    resolvePath env (some (joined pieces)) = .ok (some (joined pieces), env) := by
  refine resolvePath_ok.mpr ⟨splitSlash env.slash (.cstring (joined pieces)), rfl, ?_⟩
  have hsplit (s : Text) : splitSlash env.slash (.cstring s) = s.splitOn '/' := by
    rw [splitSlash, if_neg (slash_shown_ne_nil hemptied), CutText.shown_cstring,
      CutText.behind_cstring]
    exact if_neg fun h => absurd h.1 (by decide)
  rw [hsplit]
  cases pieces with
  | nil =>
    have hresults := normalizeAndJoin_results env.slash (['/'].splitOn '/')
    have hnothing := hresults.nothing (not_backsUp_of_not_up (by decide)) rfl
    rw [slash_shown, hemptied] at hnothing
    exact hnothing
  | cons s pieces =>
    have hparts : (joined (s :: pieces)).splitOn '/' = [] :: s :: pieces := by
      have hjoined : joined (s :: pieces) = ['/'].intercalate ([] :: s :: pieces) := by
        simp [joined, List.intercalate_cons_cons]
      rw [hjoined]
      refine List.splitOn_intercalate '/' ?_ (List.cons_ne_nil _ _)
      exact List.forall_mem_cons.mpr ⟨List.not_mem_nil, hslash⟩
    have hup : ∀ c ∈ [] :: s :: pieces, ¬ Up c :=
      List.forall_mem_cons.mpr ⟨by decide, fun c hc => (hord c hc).2⟩
    have hremaining : remaining ([] :: s :: pieces) = s :: pieces := by
      rw [remaining, foldl_cancel_of_not_up hup, List.nil_append,
        List.filter_cons_of_neg (by decide), List.filter_eq_self]
      intro c hc
      exact decide_eq_true (hord c hc).1
    have hleft := (normalizeAndJoin_results env.slash ([] :: s :: pieces)).left
      (not_backsUp_of_not_up hup)
    rw [hremaining] at hleft
    rw [hparts]
    exact hleft (List.cons_ne_nil _ _) hsane

/-- No character is a component that backs up. -/
theorem not_up_chars (path : Text) : ∀ c ∈ path.map fun c => [c], ¬ Up c := by
  intro c hc
  obtain ⟨x, -, rfl⟩ := List.mem_map.mp hc
  simp [Up]

/-- Of the characters of a path the dots are left out. -/
theorem remaining_chars (path : Text) :
    remaining (path.map fun c => [c]) = (path.filter (· ≠ '.')).map fun c => [c] := by
  rw [remaining, foldl_cancel_of_not_up (not_up_chars path), List.nil_append, List.filter_map]
  congr 1
  refine List.filter_congr fun c _ => ?_
  simp [Blank]

/-- A path is none of its characters with slashes between. -/
theorem spread_ne {path : Text} (hne : path ≠ []) :
    ((path.filter (· ≠ '.')).flatMap fun c => ['/', c]) ≠ path := by
  intro h
  have hall : path.filter (· ≠ '.') = path := by
    rw [List.filter_eq_self]
    intro c hc
    rw [← h, List.mem_flatMap] at hc
    obtain ⟨x, hx, hc⟩ := hc
    rcases List.mem_cons.mp hc with rfl | hc
    · rfl
    · rw [List.mem_singleton.mp hc]
      exact (List.mem_filter.mp hx).2
  have hlength : path.length = 2 * path.length := by
    conv_lhs => rw [← h, hall]
    simp [List.length_flatMap, Nat.mul_comm]
  have hpos := List.length_pos_iff.mpr hne
  omega

/-- **With an empty slash every character is a component**, so a path comes back longer. -/
theorem resolvePath_emptied_ne {env env' : PathEnv} (hemptied : env.emptied = true) {rest r : Text}
    (h : resolvePath env (some ('/' :: rest)) = .ok (some r, env')) : r ≠ '/' :: rest := by
  obtain ⟨parts, hparts, hjoin⟩ := resolvePath_ok.mp h
  generalize hpath : '/' :: rest = path at hparts ⊢
  have hsplit : parts = path.map fun c => [c] := by
    subst hpath
    cases hparts
    rw [splitSlash, if_pos (by rw [slash_shown, if_pos hemptied]), CutText.shown_cstring]
  have henv : env' = env := by
    subst hpath
    cases hparts
    rfl
  subst hsplit henv
  have hbacks : ¬ BacksUp 0 (path.map fun c => [c]) := not_backsUp_of_not_up (not_up_chars path)
  have hresults := normalizeAndJoin_results env'.slash (path.map fun c => [c])
  have hne : remaining (path.map fun c => [c]) ≠ [] := by
    rw [remaining_chars, ← hpath]
    simp
  have hr : r = (path.filter (· ≠ '.')).flatMap fun c => ['/', c] := by
    by_cases hsane : ∀ c ∈ remaining (path.map fun c => [c]), Text.sane c
    · rw [hresults.left hbacks hne hsane, joined_eq hne, remaining_chars] at hjoin
      cases hjoin
      rw [List.flatMap_map]
    · rw [hresults.aborts hbacks (by simpa using hsane)] at hjoin
      cases hjoin
  rw [hr]
  exact spread_ne (by rw [← hpath]; exact List.cons_ne_nil _ _)

/-- Components whose path stands for itself. -/
def Settles (emptied : Bool) (pieces : List Text) : Prop :=
  (BacksUp 0 pieces → Raises 0 pieces) ∧
    (emptied → ¬ BacksUp 0 pieces →
      remaining pieces = [] ∨ ∃ c ∈ remaining pieces, ¬ Text.sane c)

/-- A path whose result stands for itself has components that settle. -/
theorem settles_of_resolvePath {env env' : PathEnv} {s : Option Text} {parts : List Text}
    (h : ∀ r env', resolvePath env s = .ok (r, env') →
      ∃ env'', resolvePath env' r = .ok (r, env''))
    (hparts : resolveParts env s = .ok (parts, env')) : Settles env'.emptied parts := by
  have hresults := normalizeAndJoin_results env'.slash parts
  constructor
  · intro hbacks
    by_contra hraises
    have hnull := hresults.under hbacks hraises
    obtain ⟨env'', hself⟩ := h none env' (resolvePath_ok.mpr ⟨parts, hparts, hnull⟩)
    rw [resolvePath_empty env' rfl] at hself
    cases hself
  · intro hemptied hbacks
    by_contra hleft
    push Not at hleft
    obtain ⟨hne, hsane⟩ := hleft
    have hjoined := hresults.left hbacks hne hsane
    obtain ⟨env'', hself⟩ := h _ env' (resolvePath_ok.mpr ⟨parts, hparts, hjoined⟩)
    exact resolvePath_emptied_ne hemptied hself rfl

/-- The result of components that settle stands for itself. -/
theorem resolvePath_of_settles {env env' : PathEnv} {s r : Option Text} {parts : List Text}
    (hparts : resolveParts env s = .ok (parts, env'))
    (hjoin : normalizeAndJoin env'.slash parts = .ok r) (h : Settles env'.emptied parts) :
    resolvePath env' r = .ok (r, env') := by
  obtain ⟨hraises, hemptied⟩ := h
  have hresults := normalizeAndJoin_results env'.slash parts
  have hbacks : ¬ BacksUp 0 parts := by
    intro hbacks
    rw [hresults.raises (hraises hbacks)] at hjoin
    cases hjoin
  have hsane : ∀ c ∈ remaining parts, Text.sane c := by
    by_contra hnul
    push Not at hnul
    rw [hresults.aborts hbacks hnul] at hjoin
    cases hjoin
  cases hslash : env'.emptied with
  | true =>
    have hnothing : remaining parts = [] := by
      rcases hemptied hslash hbacks with h | ⟨c, hc, hnul⟩
      · exact h
      · exact absurd (hsane c hc) hnul
    rw [hresults.nothing hbacks hnothing] at hjoin
    cases hjoin
    refine resolvePath_empty env' ?_
    rw [slash_shown, hslash]
    rfl
  | false =>
    have hr : r = some (joined (remaining parts)) := by
      by_cases hnothing : remaining parts = []
      · rw [hresults.nothing hbacks hnothing, slash_shown, hslash] at hjoin
        cases hjoin
        rw [hnothing]
        rfl
      · rw [hresults.left hbacks hnothing hsane] at hjoin
        cases hjoin
        rfl
    rw [hr]
    refine resolvePath_joined hslash
      (ordinary_of_mem_cancel fun c hc => absurd hc List.not_mem_nil) (fun c hc => ?_) hsane
    rcases mem_of_mem_cancel hc with hc | hc
    · exact absurd hc List.not_mem_nil
    · exact slash_not_mem_resolveParts hparts hslash c hc

/-- **Normalised paths.** The components of a list are normalised as they should just if they raise
where they back up past the root, and what is left of them holds no NUL and is not the slash that
was emptied. What a path is resolved to is resolved to itself just if its components raise where
they back up, and nothing is left of them where the slash was emptied. -/
theorem path_normalized_iff (pieces : List Text) (env : PathEnv) (s : Option Text) :
    (Normalized pieces (normalizeAndJoin env.slash pieces) ↔ Normalizes env.emptied pieces) ∧
    ((∀ r env', resolvePath env s = .ok (r, env') →
        ∃ env'', resolvePath env' r = .ok (r, env'')) ↔
      ∀ parts env', resolveParts env s = .ok (parts, env') → Settles env'.emptied parts) := by
  refine ⟨normalizeAndJoin_iff env pieces, ?_⟩
  constructor
  · exact fun h parts env' hparts => settles_of_resolvePath h hparts
  · intro h r env' hr
    obtain ⟨parts, hparts, hjoin⟩ := resolvePath_ok.mp hr
    exact ⟨env', resolvePath_of_settles hparts hjoin (h parts env' hparts)⟩

/-- A process that has not asked for a home directory yet. -/
def PathEnv.fresh : PathEnv := ⟨some (.cstring "/root".toList), [], fun _ => none, ['/'], false⟩

/-- **The parent of the root has no path**: the result is a null pointer. -/
theorem not_path_normalized :
    ¬ ((∀ pieces, Normalized pieces (normalizeAndJoin PathEnv.fresh.slash pieces)) ∧
      ∀ s r env', resolvePath PathEnv.fresh s = .ok (r, env') →
        ∃ env'', resolvePath env' r = .ok (r, env'')) := by
  rintro ⟨hall, -⟩
  have hup : BacksUp 0 [['.', '.']] := backsUp_up_zero (rfl : Up _)
  have hraise := (hall [['.', '.']]).1 hup
  exact absurd hraise (by decide)

end N00b.Util
