import N00b.Memory.Layout

/-!
# Static objects of a module

`n00b_layout_static_obj` returns the rounded end of the new object as its offset and then adds that
same value to `static_size`. So an object that is laid out at size `s` starts at `s + up8 b`, one
object too far, and the size becomes `2 * s + up8 b`.

## Main results

* `layoutModuleSymbols_ranges`: as long as the sizes fit into an `int`, the objects of a module lie
  where the exact recursion puts them.
* `spaced_iff`: exactly when ranges laid out so are disjoint and inside the final size.
-/

namespace N00b.Memory

/-! ## Ranges -/

/-- The bytes `[start, start + size)`. -/
structure Range where
  start : Int
  size : Nat
  deriving DecidableEq

def Range.bytes (r : Range) : Set Int :=
  Set.Ico r.start (r.start + r.size)

/-- The ranges are pairwise disjoint, 8-byte aligned and contained in `[0, staticSize)`. -/
structure CollisionFree (ranges : List Range) (staticSize : Int) : Prop where
  disjoint : ranges.Pairwise fun a b => Disjoint a.bytes b.bytes
  aligned : ∀ r ∈ ranges, 8 ∣ r.start
  inside : ∀ r ∈ ranges, r.bytes ⊆ Set.Ico 0 staticSize

/-- A variable that gets static memory in this module. -/
def Symbol.isStatic (sym : Symbol) : Bool :=
  !sym.linked && sym.kind == .variable && !sym.declaredConst

def Symbol.range (sym : Symbol) : Range :=
  ⟨sym.staticOffset.toNat, 8⟩

/-- The flag, the mutex and the memo of a `once` function. -/
def FnDecl.ranges (mutexSize : Nat) (decl : FnDecl) : List Range :=
  if decl.once then
    [⟨decl.scBoolOffset, 1⟩, ⟨decl.scLockOffset, mutexSize⟩, ⟨decl.scMemoOffset, 8⟩]
  else
    []

def Module.numParams (m : Module) : Nat :=
  m.parameters.countP (·.kind ≠ .attr)

/-- The static objects of a module: the bitmap, the variables and what `once` functions need. -/
def Module.ranges (mutexSize : Nat) (m : Module) : List Range :=
  ⟨0, (m.numParams + 7) / 8⟩ ::
    (((m.globals ++ m.moduleScope).filter Symbol.isStatic).map Symbol.range ++
      m.fnDefs.flatMap (FnDecl.ranges mutexSize))

/-! ## The exact layout -/

/-- The least multiple of 8 that is not below. -/
def up8 (n : Nat) : Nat :=
  (n + 7) / 8 * 8

/-- Where objects of the given sizes go when the running size is `s`. -/
def exactRanges : Nat → List Nat → List Range
  | _, [] => []
  | s, b :: bs => ⟨((s + up8 b : Nat) : Int), b⟩ :: exactRanges (2 * s + up8 b) bs

def exactSize : Nat → List Nat → Nat
  | s, [] => s
  | s, b :: bs => exactSize (2 * s + up8 b) bs

theorem le_up8 (n : Nat) : n ≤ up8 n := by
  unfold up8
  omega

theorem dvd_up8 (n : Nat) : 8 ∣ up8 n :=
  Dvd.intro_left _ rfl

theorem le_exactSize (s : Nat) (bs : List Nat) : s ≤ exactSize s bs := by
  induction bs generalizing s with
  | nil => exact Nat.le_refl s
  | cons b bs ih =>
    have := ih (2 * s + up8 b)
    rw [exactSize]
    omega

/-- The exact size of two lists of objects is that of one behind the other. -/
theorem exactSize_append (s : Nat) (bs cs : List Nat) :
    exactSize s (bs ++ cs) = exactSize (exactSize s bs) cs := by
  induction bs generalizing s with
  | nil => rfl
  | cons b bs ih => exact ih (2 * s + up8 b)

/-- So are the ranges. -/
theorem exactRanges_append (s : Nat) (bs cs : List Nat) :
    exactRanges s (bs ++ cs) = exactRanges s bs ++ exactRanges (exactSize s bs) cs := by
  induction bs generalizing s with
  | nil => rfl
  | cons b bs ih =>
    rw [List.cons_append, exactRanges, exactRanges, exactSize, List.cons_append,
      ih (2 * s + up8 b)]

variable {s : Nat}

theorem dvd_exactSize (h : 8 ∣ s) (bs : List Nat) : 8 ∣ exactSize s bs := by
  induction bs generalizing s with
  | nil => exact h
  | cons b bs ih => exact ih ((h.mul_left 2).add (dvd_up8 b))

theorem dvd_start (h : 8 ∣ s) (bs : List Nat) :
    ∀ r ∈ exactRanges s bs, 8 ∣ r.start := by
  induction bs generalizing s with
  | nil => exact fun r hr => nomatch hr
  | cons b bs ih =>
    intro r hr
    rcases List.mem_cons.mp hr with rfl | hr
    · exact Int.natCast_dvd_natCast.mpr (h.add (dvd_up8 b))
    · exact ih ((h.mul_left 2).add (dvd_up8 b)) r hr

/-! ## The code follows the exact layout -/

/-- Rounding up to eight is that of the code, below 2^31. -/
theorem roundUp_eight {n : Nat} (h : n < 2 ^ 31) : roundUpToGivenPowerOf2 8 n = up8 n := by
  have hand : n &&& 7 = n % 8 := Nat.and_two_pow_sub_one_eq_mod n 3
  unfold roundUpToGivenPowerOf2 up8
  simp only [Nat.add_one_sub_one, hand]
  split <;> omega

theorem toInt32_of_lt {n : Nat} (h : n < 2 ^ 31) : toInt32 n = n :=
  Int.bmod_eq_of_le (by omega) (by omega)

theorem toUint64_natCast {n : Nat} (h : n < 2 ^ 31) : toUint64 n = n := by
  unfold toUint64
  omega

/-- **An object** is laid out at the rounded size, and the size is counted twice. -/
theorem layoutStaticObj_eq {s b : Nat} (hs : 8 ∣ s) (h : 2 * s + up8 b < 2 ^ 31) :
    layoutStaticObj s b 8 = (s + up8 b, ((2 * s + up8 b : Nat) : Int)) := by
  have hb := le_up8 b
  have hround : up8 (s + b) = s + up8 b := by
    obtain ⟨k, rfl⟩ := hs
    unfold up8
    omega
  have hl : toInt32 ((s : Int) + b) = ((s + b : Nat) : Int) := by
    rw [← Nat.cast_add]
    exact toInt32_of_lt (by omega)
  have hsum : toInt32 ((s : Int) + ((s + up8 b : Nat) : Int)) = ((2 * s + up8 b : Nat) : Int) := by
    have hcast : (s : Int) + ((s + up8 b : Nat) : Int) = ((2 * s + up8 b : Nat) : Int) := by
      push_cast
      ring
    rw [hcast]
    exact toInt32_of_lt h
  have height : toUint64 8 = 8 := by decide
  unfold layoutStaticObj
  simp only [hl, toUint64_natCast (show s + b < 2 ^ 31 by omega), height,
    roundUp_eight (show s + b < 2 ^ 31 by omega), hround, hsum]

/-! ### Variables -/

variable (page : StaticPool.Page) (heap : StaticPool.Heap) {mutexSize : Nat}

/-- The ranges and the size of the static variables among some symbols. -/
def variableRanges (syms : List Symbol) : List Range :=
  (syms.filter Symbol.isStatic).map Symbol.range

def variableSizes (syms : List Symbol) : List Nat :=
  List.replicate (syms.countP Symbol.isStatic) 8

/-- A static symbol takes eight bytes. -/
theorem layoutStaticSym_of_isStatic {sym : Symbol} (hsym : sym.isStatic = true)
    (hs : 8 ∣ s) (h : 2 * s + 8 < 2 ^ 31) (moduleId : Nat) (st : ConstState) :
    ∃ sym', layoutStaticSym page heap moduleId sym s st = (sym', ((2 * s + 8 : Nat) : Int), st) ∧
      sym'.isStatic = true ∧ sym'.range = ⟨((s + 8 : Nat) : Int), 8⟩ := by
  obtain ⟨⟨hlinked, hkind⟩, hconst⟩ : (sym.linked = false ∧ sym.kind = .variable) ∧
      sym.declaredConst = false := by simpa [Symbol.isStatic] using hsym
  have hobj : layoutStaticObj s 8 8 = (s + 8, ((2 * s + 8 : Nat) : Int)) :=
    layoutStaticObj_eq (b := 8) hs h
  refine ⟨{ sym with localModuleId := moduleId, staticOffset := UInt32.ofNat (s + 8) }, ?_, ?_, ?_⟩
  · simp [layoutStaticSym, hlinked, hkind, hconst, hobj]
  · simpa [Symbol.isStatic] using hsym
  · have hmod : (s + 8) % 4294967296 = s + 8 := Nat.mod_eq_of_lt (by omega)
    simp [Symbol.range, hmod]

/-- Another symbol takes none. -/
theorem layoutStaticSym_of_not_isStatic {sym : Symbol} (hsym : sym.isStatic = false) (s : Int)
    (moduleId : Nat) (st : ConstState) :
    ∃ sym' st', layoutStaticSym page heap moduleId sym s st = (sym', s, st') ∧
      sym'.isStatic = false := by
  unfold layoutStaticSym
  split
  · exact ⟨_, _, rfl, hsym⟩
  next hlinked =>
    -- Neither branch of the `switch` changes what decides about static memory.
    simp only [Symbol.isStatic] at hsym ⊢
    split
    next hkind =>
      split
      · exact ⟨_, _, rfl, hsym⟩
      · exact ⟨_, _, rfl, hsym⟩
    next hkind =>
      split
      next => exact ⟨_, _, rfl, hsym⟩
      next hconst => simp_all
    next => exact ⟨_, _, rfl, hsym⟩

/-- The variables of a scope lie one behind the other. -/
theorem layoutStatic_ranges (hs : 8 ∣ s) (syms : List Symbol)
    (h : exactSize s (variableSizes syms) < 2 ^ 31) (moduleId : Nat) (st : ConstState) :
    ∃ syms' st', layoutStatic page heap moduleId syms s st =
        (syms', (exactSize s (variableSizes syms) : Int), st') ∧
      variableRanges syms' = exactRanges s (variableSizes syms) := by
  induction syms generalizing s st with
  | nil => exact ⟨[], st, rfl, rfl⟩
  | cons sym syms ih =>
    cases hsym : sym.isStatic with
    | true =>
      have hsizes : variableSizes (sym :: syms) = 8 :: variableSizes syms := by
        simp [variableSizes, hsym, List.replicate_succ]
      rw [hsizes] at h ⊢
      have hlt : 2 * s + 8 < 2 ^ 31 := Nat.lt_of_le_of_lt (le_exactSize _ _) h
      obtain ⟨sym', hlay, hstatic, hrange⟩ :=
        layoutStaticSym_of_isStatic page heap hsym hs hlt moduleId st
      have hs' : 8 ∣ 2 * s + 8 := (hs.mul_left 2).add (Nat.dvd_refl 8)
      obtain ⟨syms', st', hrest, hranges⟩ := ih hs' h st
      refine ⟨sym' :: syms', st', by simp only [layoutStatic, hlay, hrest]; rfl, ?_⟩
      rw [variableRanges, List.filter_cons_of_pos hstatic, List.map_cons, hrange]
      exact congrArg (_ :: ·) hranges
    | false =>
      have hsizes : variableSizes (sym :: syms) = variableSizes syms := by
        simp [variableSizes, hsym]
      rw [hsizes] at h ⊢
      obtain ⟨sym', st₁, hlay, hstatic⟩ :=
        layoutStaticSym_of_not_isStatic page heap hsym s moduleId st
      obtain ⟨syms', st', hrest, hranges⟩ := ih hs h st₁
      refine ⟨sym' :: syms', st', by simp only [layoutStatic, hlay, hrest], ?_⟩
      rw [variableRanges, List.filter_cons_of_neg (by simp [hstatic])]
      exact hranges

/-! ### Functions -/

/-- The sizes of what the `once` functions need. -/
def onceSizes (mutexSize : Nat) : Nat → List Nat
  | 0 => []
  | n + 1 => 1 :: mutexSize :: 8 :: onceSizes mutexSize n

/-- A `once` function has its flag, its mutex and its result. -/
theorem layoutFunc_once {decl : FnDecl} (honce : decl.once = true) (hs : 8 ∣ s)
    (h : exactSize s [1, mutexSize, 8] < 2 ^ 31) :
    ∃ decl', layoutFunc mutexSize decl s =
        (decl', (exactSize s [1, mutexSize, 8] : Int)) ∧
      decl'.ranges mutexSize = exactRanges s [1, mutexSize, 8] := by
  have hup1 : up8 1 = 8 := rfl
  have hup8 : up8 8 = 8 := rfl
  simp only [exactSize, hup1, hup8] at h ⊢
  have hs₁ : 8 ∣ 2 * s + 8 := (hs.mul_left 2).add (Nat.dvd_refl 8)
  have hs₂ : 8 ∣ 2 * (2 * s + 8) + up8 mutexSize := (hs₁.mul_left 2).add (dvd_up8 mutexSize)
  have hobj₁ : layoutStaticObj s 1 8 = (s + 8, ((2 * s + 8 : Nat) : Int)) :=
    layoutStaticObj_eq (b := 1) hs (by omega)
  have hobj₂ := layoutStaticObj_eq (b := mutexSize) hs₁ (by omega)
  have hobj₃ := layoutStaticObj_eq (b := 8) hs₂ h
  rw [hup8] at hobj₃
  simp only [Nat.cast_ofNat] at hobj₃
  unfold layoutFunc
  simp only [honce, if_true, hobj₁, hobj₂, hobj₃]
  refine ⟨_, rfl, ?_⟩
  simp only [FnDecl.ranges, if_true, exactRanges, hup1, hup8]
  rw [toInt32_of_lt (by omega), toInt32_of_lt (by omega), toInt32_of_lt (by omega)]

/-- The `once` functions lie behind the variables. -/
theorem layoutFuncs_ranges (hs : 8 ∣ s) (decls : List FnDecl)
    (h : exactSize s (onceSizes mutexSize (decls.countP (·.once))) < 2 ^ 31) :
    ∃ decls', layoutFuncs mutexSize decls s =
        (decls', (exactSize s (onceSizes mutexSize (decls.countP (·.once))) : Int)) ∧
      decls'.flatMap (FnDecl.ranges mutexSize) =
        exactRanges s (onceSizes mutexSize (decls.countP (·.once))) := by
  induction decls generalizing s with
  | nil => exact ⟨[], rfl, rfl⟩
  | cons decl decls ih =>
    cases honce : decl.once with
    | true =>
      rw [List.countP_cons_of_pos honce] at h ⊢
      have hsplit : onceSizes mutexSize (decls.countP (·.once) + 1) =
          [1, mutexSize, 8] ++ onceSizes mutexSize (decls.countP (·.once)) := rfl
      rw [hsplit, exactSize_append] at h ⊢
      rw [exactRanges_append]
      have hlt : exactSize s [1, mutexSize, 8] < 2 ^ 31 :=
        Nat.lt_of_le_of_lt (le_exactSize _ _) h
      obtain ⟨decl', hlay, hranges⟩ := layoutFunc_once honce hs hlt
      obtain ⟨decls', hrest, hranges'⟩ := ih (dvd_exactSize hs _) h
      refine ⟨decl' :: decls', by simp only [layoutFuncs, hlay, hrest], ?_⟩
      rw [List.flatMap_cons, hranges, hranges']
    | false =>
      rw [List.countP_cons_of_neg (by simp [honce])] at h ⊢
      obtain ⟨decls', hrest, hranges⟩ := ih hs h
      refine ⟨(layoutFunc mutexSize decl s).1 :: decls', ?_, ?_⟩
      · have hlay : (layoutFunc mutexSize decl s).2 = s := by simp [layoutFunc, honce]
        simp only [layoutFuncs, hlay, hrest]
      · have hnone : (layoutFunc mutexSize decl s).1.ranges mutexSize = [] := by
          simp [layoutFunc, honce, FnDecl.ranges]
        rw [List.flatMap_cons, hnone, hranges]
        rfl

/-! ### Modules -/

def Module.numVariables (m : Module) : Nat :=
  (m.globals ++ m.moduleScope).countP Symbol.isStatic

def Module.numOnce (m : Module) : Nat :=
  m.fnDefs.countP (·.once)

def Module.sizes (mutexSize : Nat) (m : Module) : List Nat :=
  List.replicate m.numVariables 8 ++ onceSizes mutexSize m.numOnce

def Module.bitmapSize (m : Module) : Nat :=
  up8 ((m.numParams + 7) / 8)

/-- The number of parameters and the exact size of the static memory fit into an `int`. -/
structure Module.Fits (mutexSize : Nat) (m : Module) : Prop where
  params : m.numParams + 7 < 2 ^ 31
  size : exactSize m.bitmapSize (m.sizes mutexSize) < 2 ^ 31

/-- Parameters are numbered, but for attributes. -/
theorem layoutParams_spec (params : List ModuleParam) (pix : Nat)
    (h : pix + params.countP (·.kind ≠ .attr) < 2 ^ 31) :
    (layoutParams params pix).2 = ((pix + params.countP (·.kind ≠ .attr) : Nat) : Int) ∧
      (layoutParams params pix).1.countP (·.kind ≠ .attr) =
        params.countP (·.kind ≠ .attr) := by
  induction params generalizing pix with
  | nil => exact ⟨rfl, rfl⟩
  | cons param params ih =>
    unfold layoutParams
    split
    next hattr =>
      rw [List.countP_cons_of_neg (by simp [hattr])] at h ⊢
      obtain ⟨hpix, hcount⟩ := ih pix h
      exact ⟨hpix, by rw [List.countP_cons_of_neg (by simp [hattr]), hcount]⟩
    next hattr =>
      rw [List.countP_cons_of_pos (by simp [hattr])] at h ⊢
      have hnext : toInt32 ((pix : Int) + 1) = ((pix + 1 : Nat) : Int) :=
        toInt32_of_lt (n := pix + 1) (by omega)
      rw [hnext]
      obtain ⟨hpix, hcount⟩ := ih (pix + 1) (by omega)
      refine ⟨?_, by rw [List.countP_cons_of_pos (by simp [hattr]), hcount]⟩
      rw [hpix, Nat.add_assoc, Nat.add_comm 1]

/-- **What a module lays out** are the exact ranges of its objects, as long as their size fits an
`int`. -/
theorem layoutModuleSymbols_ranges {m : Module} (hfresh : m.staticSize = 0)
    (h : m.Fits mutexSize) (st : ConstState) :
    let m' := (layoutModuleSymbols page heap mutexSize m st).1
    m'.staticSize = exactSize m.bitmapSize (m.sizes mutexSize) ∧
      m'.ranges mutexSize =
        ⟨0, (m.numParams + 7) / 8⟩ :: exactRanges m.bitmapSize (m.sizes mutexSize) := by
  have hsize := h.size
  have hsizes : m.sizes mutexSize = variableSizes m.globals ++
      (variableSizes m.moduleScope ++ onceSizes mutexSize m.numOnce) := by
    simp only [Module.sizes, Module.numVariables, variableSizes, List.countP_append,
      ← List.replicate_append_replicate, List.append_assoc]
  rw [hsizes, exactSize_append, exactSize_append] at hsize ⊢
  rw [exactRanges_append, exactRanges_append]
  have hbitmap : 8 ∣ m.bitmapSize := dvd_up8 _
  have hlt₁ := Nat.lt_of_le_of_lt (le_exactSize _ _) hsize
  have hlt₀ := Nat.lt_of_le_of_lt (le_exactSize _ _) hlt₁
  have hltb := Nat.lt_of_le_of_lt (le_exactSize _ _) hlt₀
  obtain ⟨hpix, hcount⟩ := layoutParams_spec m.parameters 0 (by
    have := h.params
    simp only [Module.numParams] at this
    omega)
  have hbytes : (toInt32 ((layoutParams m.parameters 0).2 + 7)).tdiv 8 =
      (((m.numParams + 7) / 8 : Nat) : Int) := by
    have hcast : (layoutParams m.parameters 0).2 + 7 = ((m.numParams + 7 : Nat) : Int) := by
      rw [show (0 : Int) = ((0 : Nat) : Int) from rfl, hpix, Nat.zero_add]
      rfl
    rw [hcast, toInt32_of_lt h.params]
    rfl
  have hobj : layoutStaticObj 0 (((m.numParams + 7) / 8 : Nat) : Int) 8 =
      (m.bitmapSize, (m.bitmapSize : Int)) := by
    have := layoutStaticObj_eq (s := 0) (b := (m.numParams + 7) / 8) (Nat.dvd_zero 8)
      (by simpa [Module.bitmapSize] using hltb)
    simpa [Module.bitmapSize] using this
  obtain ⟨globals, st₁, hglobals, hranges₁⟩ :=
    layoutStatic_ranges page heap hbitmap m.globals hlt₀ m.moduleId st
  obtain ⟨scope, st₂, hscope, hranges₂⟩ :=
    layoutStatic_ranges page heap (dvd_exactSize hbitmap _) m.moduleScope hlt₁ m.moduleId st₁
  obtain ⟨fns, hfns, hranges₃⟩ :=
    layoutFuncs_ranges (dvd_exactSize (dvd_exactSize hbitmap _) _) m.fnDefs hsize
  have hlay : (layoutModuleSymbols page heap mutexSize m st).1 =
      { m with
        parameters := (layoutParams m.parameters 0).1
        globals := globals
        moduleScope := scope
        fnDefs := fns
        staticSize := (exactSize (exactSize (exactSize m.bitmapSize (variableSizes m.globals))
          (variableSizes m.moduleScope)) (onceSizes mutexSize m.numOnce) : Nat) } := by
    simp only [layoutModuleSymbols, hfresh, hbytes, hobj, hglobals, hscope, hfns]
    rfl
  rw [hlay]
  refine ⟨rfl, ?_⟩
  have hnum : (layoutParams m.parameters 0).1.countP (·.kind ≠ .attr) = m.numParams := hcount
  simp only [Module.ranges, Module.numParams] at hnum ⊢
  rw [hnum, List.filter_append, List.map_append, List.append_assoc]
  rw [variableRanges] at hranges₁ hranges₂
  rw [hranges₁, hranges₂, hranges₃]
  rfl

/-! ## When ranges are spaced -/

/-- Each object ends before the next one starts, and the last one inside the size. -/
def Spaced : Nat → List Nat → Prop
  | _, [] => True
  | s, [b] => b ≤ s
  | s, b :: b' :: bs => b ≤ s + up8 b' ∧ Spaced (2 * s + up8 b) (b' :: bs)

/-- Two ranges are apart just if the first ends before the second. -/
theorem disjoint_iff_le {a b : Range} (hb : 0 < b.size)
    (hab : a.start < b.start) : Disjoint a.bytes b.bytes ↔ a.start + a.size ≤ b.start := by
  unfold Range.bytes
  rw [Set.Ico_disjoint_Ico]
  omega

/-- A range lies in the space just if its end does. -/
theorem bytes_subset_iff {r : Range} (hr : 0 < r.size) (hstart : 0 ≤ r.start) (n : Int) :
    r.bytes ⊆ Set.Ico 0 n ↔ r.start + r.size ≤ n := by
  unfold Range.bytes
  rw [Set.Ico_subset_Ico_iff (by omega)]
  omega

variable {bs : List Nat}

theorem le_start {s b : Nat} :
    ∀ r ∈ exactRanges s (b :: bs), ((s + up8 b : Nat) : Int) ≤ r.start := by
  induction bs generalizing s b with
  | nil =>
    intro r hr
    obtain rfl := List.mem_singleton.mp hr
    exact le_refl _
  | cons b' bs ih =>
    intro r hr
    rcases List.mem_cons.mp hr with rfl | hr
    · exact le_refl _
    · have := ih r hr
      push_cast at this ⊢
      omega

theorem size_pos_of_mem (hpos : ∀ b ∈ bs, 0 < b) :
    ∀ r ∈ exactRanges s bs, 0 < r.size := by
  induction bs generalizing s with
  | nil => exact fun r hr => nomatch hr
  | cons b bs ih =>
    intro r hr
    rcases List.mem_cons.mp hr with rfl | hr
    · exact hpos b List.mem_cons_self
    · exact ih (fun c hc => hpos c (List.mem_cons_of_mem b hc)) r hr

/-- **No objects collide** and all lie in the space just if each leaves room for the next. -/
theorem spaced_iff (hpos : ∀ b ∈ bs, 0 < b) :
    ((exactRanges s bs).Pairwise (fun a b => Disjoint a.bytes b.bytes) ∧
      ∀ r ∈ exactRanges s bs, r.bytes ⊆ Set.Ico 0 (exactSize s bs : Int)) ↔ Spaced s bs := by
  induction bs generalizing s with
  | nil => simp [exactRanges, Spaced]
  | cons b bs ih =>
    have hb : 0 < b := hpos b List.mem_cons_self
    have hrest : ∀ c ∈ bs, 0 < c := fun c hc => hpos c (List.mem_cons_of_mem b hc)
    have hin : Range.bytes ⟨((s + up8 b : Nat) : Int), b⟩ ⊆
        Set.Ico 0 (exactSize s (b :: bs) : Int) ↔ s + up8 b + b ≤ exactSize s (b :: bs) := by
      rw [bytes_subset_iff hb (Int.natCast_nonneg _)]
      show ((s + up8 b : Nat) : Int) + (b : Int) ≤ _ ↔ _
      norm_cast
    cases bs with
    | nil =>
      simp only [exactRanges, List.pairwise_singleton, List.mem_singleton, forall_eq, true_and,
        Spaced]
      rw [hin, exactSize, exactSize]
      omega
    | cons b' bs =>
      have hsize : exactSize s (b :: b' :: bs) = exactSize (2 * s + up8 b) (b' :: bs) := rfl
      have hb' : 0 < b' := hrest b' List.mem_cons_self
      have hle : 2 * (2 * s + up8 b) + up8 b' ≤ exactSize (2 * s + up8 b) (b' :: bs) :=
        le_exactSize _ bs
      -- The first object is disjoint from all others if it ends before the second one starts.
      have hfirst : (∀ r ∈ exactRanges (2 * s + up8 b) (b' :: bs),
          Disjoint (Range.bytes ⟨((s + up8 b : Nat) : Int), b⟩) r.bytes) ↔ b ≤ s + up8 b' := by
        have hpos' := le_up8 b'
        constructor
        · intro h
          have h' := h ⟨((2 * s + up8 b + up8 b' : Nat) : Int), b'⟩ List.mem_cons_self
          rw [disjoint_iff_le hb' (by push_cast; omega)] at h'
          push_cast at h'
          omega
        · intro h r hr
          have hstart := le_start r hr
          push_cast at hstart
          rw [disjoint_iff_le (size_pos_of_mem hrest r hr) (by push_cast; omega)]
          push_cast
          omega
      rw [exactRanges, List.pairwise_cons, List.forall_mem_cons, hin, hfirst, hsize, Spaced,
        ← ih hrest]
      constructor
      · rintro ⟨⟨h1, h2⟩, -, h4⟩
        exact ⟨h1, h2, h4⟩
      · rintro ⟨h1, h2, h4⟩
        exact ⟨⟨h1, h2⟩, by omega, h4⟩

/-! ### Variables, then `once` functions -/

/-- With every variable the size is doubled. -/
theorem exactSize_replicate (s v : Nat) :
    exactSize s (List.replicate v 8) + 8 = 2 ^ v * (s + 8) := by
  induction v generalizing s with
  | zero => simp [exactSize]
  | succ v ih =>
    have hup : up8 8 = 8 := rfl
    rw [List.replicate_succ, exactSize, ih, hup, pow_succ]
    ring

/-- A `once` function has room for its mutex if there is enough in front of it. -/
theorem spaced_once {s mutexSize : Nat} (hmutex : 0 < mutexSize) :
    Spaced s (1 :: mutexSize :: 8 :: bs) ↔
      mutexSize ≤ 2 * s + 16 ∧ Spaced (exactSize s [1, mutexSize, 8]) bs := by
  have hup1 : up8 1 = 8 := rfl
  have hup8 : up8 8 = 8 := rfl
  have hle := le_up8 mutexSize
  cases bs with
  | nil =>
    simp only [Spaced, hup1, hup8, and_true]
    omega
  | cons b bs =>
    simp only [Spaced, hup1, hup8, exactSize]
    constructor
    · rintro ⟨-, h2, -, h4⟩
      exact ⟨by omega, h4⟩
    · rintro ⟨h2, h4⟩
      exact ⟨by omega, by omega, by omega, h4⟩

/-- Several have room if the first one does. -/
theorem spaced_onceSizes {s mutexSize : Nat} (hmutex : 0 < mutexSize) (n : Nat) :
    Spaced s (onceSizes mutexSize n) ↔ (0 < n → mutexSize ≤ 2 * s + 16) := by
  induction n generalizing s with
  | zero => simp [onceSizes, Spaced]
  | succ n ih =>
    have hle : s ≤ exactSize s [1, mutexSize, 8] := le_exactSize _ _
    rw [onceSizes, spaced_once hmutex, ih]
    constructor
    · exact fun h _ => h.1
    · intro h
      have h' := h (Nat.succ_pos n)
      exact ⟨h', fun _ => by omega⟩

/-- Variables always have room in front of something else. -/
theorem spaced_variables {s v : Nat} (hbs : bs ≠ []) (hpos : ∀ b ∈ bs, 0 < b) :
    Spaced s (List.replicate v 8 ++ bs) ↔ Spaced (exactSize s (List.replicate v 8)) bs := by
  have hup : up8 8 = 8 := rfl
  induction v generalizing s with
  | zero => rfl
  | succ v ih =>
    obtain ⟨b, rest, hb⟩ :=
      List.exists_cons_of_ne_nil (l := List.replicate v 8 ++ bs) (by simp [hbs])
    have hmem : 0 < b := by
      have hb' : b ∈ List.replicate v 8 ++ bs := hb ▸ List.mem_cons_self
      rcases List.mem_append.mp hb' with hb' | hb'
      · rw [List.eq_of_mem_replicate hb']
        decide
      · exact hpos b hb'
    have hlow : 8 ≤ up8 b := by
      unfold up8
      omega
    have hih := ih (s := 2 * s + 8)
    rw [List.replicate_succ, List.cons_append, exactSize, hup, hb, Spaced, hup]
    rw [hb] at hih
    exact ⟨fun h => hih.mp h.2, fun h => ⟨by omega, hih.mpr h⟩⟩

/-- A single variable with nothing behind it has none, if there is no bitmap. -/
theorem spaced_variables_only (s v : Nat) :
    Spaced s (List.replicate v 8) ↔ ¬ (v = 1 ∧ s < 8) := by
  match v with
  | 0 => simp [Spaced]
  | 1 => simp [Spaced]
  | v + 2 =>
    have hup : up8 8 = 8 := rfl
    have hlast : List.replicate (v + 2) 8 = List.replicate (v + 1) 8 ++ [8] :=
      List.replicate_succ'
    rw [hlast, spaced_variables (by simp) (by simp), Spaced]
    have hsize := exactSize_replicate s (v + 1)
    have hpow : 2 ≤ 2 ^ (v + 1) := by
      rw [pow_succ]
      have := Nat.one_le_two_pow (n := v)
      omega
    have hmul : 2 * (s + 8) ≤ 2 ^ (v + 1) * (s + 8) := Nat.mul_le_mul_right _ hpow
    omega

/-! ## Modules -/

/-- The last object ends inside the static memory, and the first mutex before its memo: the module
is not one with a single variable, no parameter and no `once` function, and a mutex is no larger
than the static memory in front of it allows. -/
structure Module.Roomy (mutexSize : Nat) (m : Module) : Prop where
  last : m.numOnce = 0 → ¬ (m.numVariables = 1 ∧ m.numParams = 0)
  mutex : 0 < m.numOnce → mutexSize ≤ 2 ^ (m.numVariables + 1) * (m.bitmapSize + 8)

theorem onceSizes_pos (hmutex : 0 < mutexSize) (n : Nat) : ∀ b ∈ onceSizes mutexSize n, 0 < b := by
  induction n with
  | zero => exact fun b hb => nomatch hb
  | succ n ih => simpa [onceSizes, hmutex] using ih

theorem sizes_pos (hmutex : 0 < mutexSize) (m : Module) : ∀ b ∈ m.sizes mutexSize, 0 < b := by
  intro b hb
  rcases List.mem_append.mp hb with hb | hb
  · rw [List.eq_of_mem_replicate hb]
    decide
  · exact onceSizes_pos hmutex _ b hb

theorem bitmapSize_lt_iff (m : Module) : m.bitmapSize < 8 ↔ m.numParams = 0 := by
  unfold Module.bitmapSize up8
  omega

/-- The objects of a module have room just if the module is roomy. -/
theorem spaced_sizes_iff (hmutex : 0 < mutexSize) (m : Module) :
    Spaced m.bitmapSize (m.sizes mutexSize) ↔ m.Roomy mutexSize := by
  unfold Module.sizes
  rcases Nat.eq_zero_or_pos m.numOnce with hnone | honce
  · rw [hnone, onceSizes, List.append_nil, spaced_variables_only, bitmapSize_lt_iff]
    exact ⟨fun h => ⟨fun _ => h, fun h' => by omega⟩, fun h => h.last hnone⟩
  · have hne : onceSizes mutexSize m.numOnce ≠ [] := by
      obtain ⟨n, hn⟩ := Nat.exists_eq_add_one_of_ne_zero (Nat.ne_of_gt honce)
      rw [hn, onceSizes]
      exact List.cons_ne_nil _ _
    have hsize := exactSize_replicate m.bitmapSize m.numVariables
    have hpow : 2 ^ (m.numVariables + 1) * (m.bitmapSize + 8) =
        2 * (2 ^ m.numVariables * (m.bitmapSize + 8)) := by ring
    rw [spaced_variables hne (onceSizes_pos hmutex _), spaced_onceSizes hmutex]
    constructor
    · intro h
      have h' := h honce
      exact ⟨fun h0 => by omega, fun _ => by omega⟩
    · intro h _
      have h' := h.mutex honce
      omega

/-- The bitmap of the parameters collides with nothing. -/
theorem collisionFree_cons_bitmap {b : Nat} (hpos : ∀ c ∈ bs, 0 < c) :
    CollisionFree (⟨0, b⟩ :: exactRanges (up8 b) bs) (exactSize (up8 b) bs) ↔
      Spaced (up8 b) bs := by
  have hle := le_up8 b
  rw [← spaced_iff hpos]
  constructor
  · intro h
    exact ⟨(List.pairwise_cons.mp h.disjoint).2, fun r hr => h.inside r (List.mem_cons_of_mem _ hr)⟩
  · rintro ⟨hdisj, hin⟩
    refine ⟨List.pairwise_cons.mpr ⟨?_, hdisj⟩, ?_, List.forall_mem_cons.mpr ⟨?_, hin⟩⟩
    · intro r hr
      cases bs with
      | nil => exact nomatch hr
      | cons c cs =>
        have hstart := le_start r hr
        unfold Range.bytes
        rw [Set.Ico_disjoint_Ico]
        push_cast at hstart ⊢
        omega
    · intro r hr
      rcases List.mem_cons.mp hr with rfl | hr
      · exact Int.dvd_zero 8
      · exact dvd_start (dvd_up8 b) bs r hr
    · have hsize := le_exactSize (up8 b) bs
      refine Set.Ico_subset_Ico_right ?_
      show (0 : Int) + (b : Int) ≤ _
      omega

/-- **The static objects of a module are disjoint, aligned and inside `static_size` exactly when**
the module is roomy; the sizes have to fit into an `int` for either. -/
theorem collisionFree_iff {m : Module} (hfresh : m.staticSize = 0) (hmutex : 24 ≤ mutexSize)
    (hfits : m.Fits mutexSize) (st : ConstState) :
    CollisionFree ((layoutModuleSymbols page heap mutexSize m st).1.ranges mutexSize)
        (layoutModuleSymbols page heap mutexSize m st).1.staticSize ↔
      m.Roomy mutexSize := by
  have hpos : 0 < mutexSize := by omega
  obtain ⟨hsize, hranges⟩ := layoutModuleSymbols_ranges page heap hfresh hfits st
  rw [hsize, hranges, ← spaced_sizes_iff hpos]
  exact collisionFree_cons_bitmap (sizes_pos hpos m)

def plainVariable (name : String) : Symbol where
  name := name
  kind := .variable
  linked := false
  declaredConst := false
  stringTyped := false
  value := none
  staticOffset := 0
  localModuleId := 0

/-- A module with the given variables and `once` functions, and nothing else. -/
def plainModule (moduleScope : List Symbol) (fnDefs : List FnDecl) : Module where
  moduleId := 0
  parameters := []
  globals := []
  moduleScope := moduleScope
  fnDefs := fnDefs
  staticSize := 0

def noConsts : ConstState :=
  ⟨.ok .empty, []⟩

def noStrings : StaticPool.Heap :=
  ⟨fun _ => false, fun _ => "", fun _ => none⟩

theorem collisionFree_twoVariables :
    CollisionFree
      ((layoutModuleSymbols ⟨4096, by decide⟩ noStrings 40
        (plainModule [plainVariable "x", plainVariable "y"] []) noConsts).1.ranges 40)
      (layoutModuleSymbols ⟨4096, by decide⟩ noStrings 40
        (plainModule [plainVariable "x", plainVariable "y"] []) noConsts).1.staticSize :=
  (collisionFree_iff ⟨4096, by decide⟩ noStrings rfl (by decide)
    ⟨by decide, by decide⟩ noConsts).mpr ⟨by decide, by decide⟩

/-- The only variable of a module lies at `[8, 16)`, and `static_size` is 8. -/
theorem not_collisionFree_oneVariable :
    ¬ CollisionFree
      ((layoutModuleSymbols ⟨4096, by decide⟩ noStrings 40
        (plainModule [plainVariable "x"] []) noConsts).1.ranges 40)
      (layoutModuleSymbols ⟨4096, by decide⟩ noStrings 40
        (plainModule [plainVariable "x"] []) noConsts).1.staticSize := by
  intro h
  have hin := h.inside ⟨8, 8⟩ (by decide)
  have hmem : (8 : Int) ∈ Range.bytes ⟨8, 8⟩ := by simp [Range.bytes]
  have hsize := (hin hmem).2
  revert hsize
  decide

end N00b.Memory
