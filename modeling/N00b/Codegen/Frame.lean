import N00b.Codegen.LoopVars
import N00b.Memory.Layout

/-!
# Slots of a stack frame

Variables on the stack are addressed as `fp[-offset]`. A call leaves the old frame pointer at
`fp[0]` and the return word at `fp[1]`, with the arguments above; the `ZMoveSp` at the start of a
module or function reserves the slots `fp[-1]` to `fp[-arg]`.

`layout_stack` gives the formals and locals of a function their offsets. The variables of loops get
theirs from `set_stack_offset` while the code is generated. A module starts to count at 0 and
reserves the largest count; a function starts at its frame size and reserves the count at its end,
which is the frame size again.

## Main results

* `separate_iff`: when the offsets address slots of the frame, and different ones.
-/

namespace N00b.Codegen

open N00b.Memory (toInt32)

/-! ## Frames -/

/-- A body of code with a frame of its own. `flags` are those of the symbols in the scope of the
function, by name, and `maxStackSize` is what the code generated before the function has left in
`max_stack_size`. -/
inductive CodeUnit where
  | module (body : Stmt)
  | function (decl : Memory.FnDecl) (flags : String → SymbolFlags) (maxStackSize : Nat)
      (body : Stmt)

namespace CodeUnit

def inFunction : CodeUnit → Bool
  | module _ => false
  | function _ _ _ _ => true

/-- The symbols of the scope. Those of a module scope are laid out in static memory. -/
def symbols : CodeUnit → List Memory.Symbol
  | module _ => []
  | function decl _ _ _ => decl.scope

/-- The symbols with the offsets of `layout_stack`. -/
def scope (u : CodeUnit) : List Memory.Symbol := (Memory.layoutStack u.symbols).1

def symbolFlags : CodeUnit → Memory.Symbol → SymbolFlags
  | module _, _ => {}
  | function _ flags _ _, sym => flags sym.name

/-- The counters at the start of the body: `gen_module_code` sets both to 0, `gen_function` takes
`decl->frame_size` for the first. -/
def start : CodeUnit → StackCtx
  | module _ => ⟨0, 0⟩
  | function decl _ maxStackSize _ => ⟨(Memory.layoutStack decl.scope).2.2.toNat, maxStackSize⟩

def body : CodeUnit → Stmt
  | module b => b
  | function _ _ _ b => b

/-- The loops of the body, with the offsets of their variables. -/
def sites (u : CodeUnit) : List LoopSite := (u.body.allot [] 0 u.start).1

/-- The argument of the `ZMoveSp`, patched in behind the body. -/
def reserved (u : CodeUnit) : Nat :=
  let ctx := (u.body.allot [] 0 u.start).2
  match u with
  | module _ => ctx.max
  | function _ _ _ _ => ctx.current

/-- The loop variables in use at some place of the body. -/
def inUse (u : CodeUnit) : List (List LoopSlot) := [] :: u.sites.map (·.live)

/-- The `i` of `fp[i]` for a symbol with an offset from `layout_stack`: the offset becomes the `arg`
of an instruction, an `int32_t`. -/
def slotOf (sym : Memory.Symbol) : Int :=
  -toInt32 sym.staticOffset.toNat

/-- The symbols that `layout_stack` gives an offset to. -/
def isLocal (sym : Memory.Symbol) : Bool :=
  sym.name ≠ "$result" && sym.kind == .variable

def isFormal (sym : Memory.Symbol) : Bool :=
  sym.name ≠ "$result" && sym.kind == .formal

def locals (u : CodeUnit) : List Int :=
  (u.scope.filter isLocal).map slotOf

def formals (u : CodeUnit) : List Int :=
  (u.scope.filter isFormal).map slotOf

/-- The slots of the loop variables that are addressed on the stack, with an offset given or not. -/
def loopSlots (u : CodeUnit) (live : List LoopSlot) : List Int :=
  (live.filter fun slot => slot.var.storage u.inFunction == .stack).map
    fun slot => -(slot.offset : Int)

/-- Every offset given is one of the frame, no slot in use is one of the two saved words, two
variables in use have two slots, and locals and loop variables lie in the reserved area. -/
structure Separate (u : CodeUnit) : Prop where
  locals_framed : ∀ sym ∈ u.symbols, isLocal sym = true → (u.symbolFlags sym).storage.framed = true
  loops_framed : ∀ live ∈ u.inUse, ∀ slot ∈ live, slot.given = true →
    slot.var.storage u.inFunction = .stack
  saved : ∀ live ∈ u.inUse, ∀ i ∈ u.formals ++ u.locals ++ u.loopSlots live, i ≠ 0 ∧ i ≠ 1
  distinct : ∀ live ∈ u.inUse, (u.formals ++ u.locals ++ u.loopSlots live).Nodup
  inside : ∀ live ∈ u.inUse, ∀ i ∈ u.locals ++ u.loopSlots live, -(u.reserved : Int) ≤ i ∧ i < 0

end CodeUnit

/-! ## The offsets of locals and formals -/

namespace CodeUnit

/-- The slot of a stored offset is its negation. -/
theorem slotOf_ofInt (sym : Memory.Symbol) {i : Int} (hlo : -2 ^ 31 ≤ i) (hhi : i < 2 ^ 31) :
    slotOf { sym with staticOffset := UInt32.ofInt i } = -i := by
  have hnat : ((UInt32.ofInt i).toNat : Int) = i % 2 ^ 32 := by
    rw [UInt32.ofInt, UInt32.toNat_ofNat']
    omega
  have hbmod : toInt32 (i % 2 ^ 32) = i := by
    show (i % ((2 ^ 32 : Nat) : Int)).bmod (2 ^ 32) = i
    rw [Int.emod_bmod]
    exact Int.bmod_eq_of_le (by omega) (by omega)
  rw [slotOf, hnat, hbmod]

/-- The layout gives locals and parameters consecutive slots on the two sides of the frame pointer.
-/
theorem layoutStack_spec (syms : List Memory.Symbol) (h : syms.length + 2 < 2 ^ 31) :
    ∃ l f : Nat, l + f ≤ syms.length ∧
      (Memory.layoutStack syms).2 = (-2 - (f : Int), 1 + (l : Int)) ∧
      (((Memory.layoutStack syms).1.filter isLocal).map slotOf =
        (List.range' 1 l).reverse.map fun i : Nat => -(i : Int)) ∧
      (((Memory.layoutStack syms).1.filter isFormal).map slotOf =
        (List.range' 2 f).reverse.map fun i : Nat => (i : Int)) := by
  induction syms with
  | nil => exact ⟨0, 0, Nat.le_refl 0, rfl, rfl, rfl⟩
  | cons sym syms ih =>
    rw [List.length_cons] at h
    obtain ⟨l, f, hlen, hnext, hlocals, hformals⟩ := ih (by omega)
    have hf : (Memory.layoutStack syms).2.1 = -2 - (f : Int) := by rw [hnext]
    have hl : (Memory.layoutStack syms).2.2 = 1 + (l : Int) := by rw [hnext]
    unfold Memory.layoutStack
    simp only [hf, hl]
    split
    next hname =>
      refine ⟨l, f, by rw [List.length_cons]; omega, rfl, ?_, ?_⟩
      · rw [List.filter_cons_of_neg (by simp [isLocal, hname]), hlocals]
      · rw [List.filter_cons_of_neg (by simp [isFormal, hname]), hformals]
    next hname =>
      split
      next hkind =>
        have hnl : toInt32 (1 + (l : Int) + 1) = 1 + ((l + 1 : Nat) : Int) := by
          rw [show (1 + (l : Int) + 1) = 1 + ((l + 1 : Nat) : Int) by push_cast; ring]
          exact Int.bmod_eq_of_le (by omega) (by omega)
        refine ⟨l + 1, f, by rw [List.length_cons]; omega, by rw [hnl], ?_, ?_⟩
        · rw [List.filter_cons_of_pos (by simp [isLocal, hname, hkind]), List.map_cons, hlocals,
            slotOf_ofInt sym (by omega) (by omega), List.range'_1_concat, List.reverse_append,
            List.map_append]
          simp
        · rw [List.filter_cons_of_neg (by simp [isFormal, hkind]), hformals]
      next hkind =>
        have hnf : toInt32 (-2 - (f : Int) - 1) = -2 - ((f + 1 : Nat) : Int) := by
          rw [show (-2 - (f : Int) - 1) = -2 - ((f + 1 : Nat) : Int) by push_cast; ring]
          exact Int.bmod_eq_of_le (by omega) (by omega)
        refine ⟨l, f + 1, by rw [List.length_cons]; omega, by rw [hnf], ?_, ?_⟩
        · rw [List.filter_cons_of_neg (by simp [isLocal, hkind]), hlocals]
        · rw [List.filter_cons_of_pos (by simp [isFormal, hname, hkind]), List.map_cons, hformals,
            slotOf_ofInt sym (by omega) (by omega), List.range'_1_concat, List.reverse_append,
            List.map_append]
          simp
          omega
      next hvar hformal =>
        refine ⟨l, f, by rw [List.length_cons]; omega, rfl, ?_, ?_⟩
        · rw [List.filter_cons_of_neg (by simpa [isLocal, hname] using hvar), hlocals]
        · rw [List.filter_cons_of_neg (by simpa [isFormal, hname] using hformal), hformals]

/-! ## The offsets of loop variables -/

/-- What the code of the whole body does to the counters. -/
theorem allots (u : CodeUnit) : Allots u.start.current 0 u.body.height [] u.body.uses u.start
    (u.body.allot [] 0 u.start) :=
  u.body.allot_spec u.start.current 0
    ⟨rfl, rfl, Nat.le_refl 0, fun _ h => absurd h List.not_mem_nil⟩

/-- The loop slots in use are none or those of a loop. -/
theorem inUse_cases {u : CodeUnit} {live : List LoopSlot} (h : live ∈ u.inUse) :
    live = [] ∨ ∃ site ∈ u.sites, site.live = live := by
  rcases List.mem_cons.mp h with rfl | h
  · exact .inl rfl
  · exact .inr (List.mem_map.mp h)

/-- The slots of a loop are in use while it runs. -/
theorem mem_inUse {u : CodeUnit} {site : LoopSite} (h : site ∈ u.sites) : site.live ∈ u.inUse :=
  List.mem_cons_of_mem _ (List.mem_map_of_mem h)

/-- The slots in use are consecutive from the first one free. -/
theorem offsets_inUse (u : CodeUnit) {live : List LoopSlot} (h : live ∈ u.inUse) :
    ∃ n ≤ u.body.height, offsets live = List.range' u.start.current n := by
  rcases inUse_cases h with rfl | ⟨site, hsite, rfl⟩
  · exact ⟨0, Nat.zero_le _, rfl⟩
  · obtain ⟨m, hm⟩ := u.allots.fits site hsite
    exact ⟨_, by simpa using hm.top, hm.live⟩

/-- The deepest loop uses as many slots as the body is high. -/
theorem exists_inUse (u : CodeUnit) :
    ∃ live ∈ u.inUse, offsets live = List.range' u.start.current u.body.height := by
  rcases Nat.eq_zero_or_pos u.body.height with hzero | hpos
  · exact ⟨[], List.mem_cons_self, by rw [hzero]; rfl⟩
  · obtain ⟨site, hsite, hoff⟩ := u.allots.reached hpos
    rw [Nat.zero_add] at hoff
    exact ⟨_, mem_inUse hsite, hoff⟩

/-- Every slot in use is one the body uses. -/
theorem uses_of_inUse {u : CodeUnit} {live : List LoopSlot} (h : live ∈ u.inUse) {slot : LoopSlot}
    (hslot : slot ∈ live) :
    (slot.var, slot.given) ∈ u.body.uses ∧ (slot.given = false → slot.offset = 0) := by
  rcases inUse_cases h with rfl | ⟨site, hsite, rfl⟩
  · exact absurd hslot List.not_mem_nil
  · obtain ⟨m, hm⟩ := u.allots.fits site hsite
    exact ⟨(u.allots.known site hsite slot hslot).resolve_left List.not_mem_nil,
      hm.other slot hslot⟩

/-- A loop slot takes the stack slot of its variable, where that lives on the stack. -/
theorem mem_loopSlots {u : CodeUnit} {live : List LoopSlot} {i : Int} :
    i ∈ u.loopSlots live ↔
      ∃ slot ∈ live, slot.var.storage u.inFunction = .stack ∧ i = -(slot.offset : Int) := by
  simp only [loopSlots, List.mem_map, List.mem_filter, beq_iff_eq, and_assoc, eq_comm (a := i)]

/-- In a separate unit every slot in use lies on the stack. -/
theorem offset_mem_loopSlots {u : CodeUnit} (h : u.Separate) {live : List LoopSlot}
    (hlive : live ∈ u.inUse) {o : Nat} (ho : o ∈ offsets live) :
    -(o : Int) ∈ u.loopSlots live := by
  obtain ⟨slot, hslot, rfl⟩ := List.mem_map.mp ho
  obtain ⟨hmem, hgiven⟩ := List.mem_filter.mp hslot
  exact mem_loopSlots.mpr ⟨slot, hmem, h.loops_framed live hlive slot hmem hgiven, rfl⟩

/-! ## When slots are separate -/

/-- The scope of a function has fewer symbols than an `int32_t` can count. -/
def Small : CodeUnit → Prop
  | module _ => True
  | function decl _ _ _ => decl.scope.length + 2 < 2 ^ 31

/-- A loop variable with an offset is addressed on the stack, and one without is not. -/
def Framed (use : LoopVar × Bool) : Prop :=
  use.1.storage true = .stack ↔ use.2 = true

/-- A module gives no offset to loop variables. A function gives no more than one at a time, its
loop variables are on the stack where they get one, and its locals are not addressed elsewhere. -/
def Sparse : CodeUnit → Prop
  | module b => b.height = 0
  | function decl flags _ b => b.height ≤ 1 ∧ (∀ use ∈ b.uses, Framed use) ∧
      ∀ sym ∈ decl.scope, isLocal sym = true → (flags sym.name).storage.framed = true

/-- A module's loops are separate iff it has none. -/
theorem separate_module_iff (b : Stmt) : (module b).Separate ↔ b.height = 0 := by
  constructor
  · intro h
    by_contra hne
    obtain ⟨live, hlive, hoff⟩ := exists_inUse (module b)
    have hzero : 0 ∈ offsets live := by
      rw [hoff]
      refine List.mem_range'_1.mpr ⟨Nat.le_refl 0, ?_⟩
      show 0 < 0 + b.height
      omega
    have hslot := offset_mem_loopSlots h hlive hzero
    exact (h.saved live hlive _ (List.mem_append_right _ hslot)).1 rfl
  · intro h
    have hnil : ∀ live ∈ (module b).inUse, live = [] := by
      intro live hlive
      refine List.eq_nil_iff_forall_not_mem.mpr fun slot hslot => ?_
      have huse := (uses_of_inUse hlive hslot).1
      rw [show (module b).body.uses = [] from b.uses_eq_nil h] at huse
      exact absurd huse List.not_mem_nil
    constructor
    · exact fun sym hsym => absurd hsym List.not_mem_nil
    · intro live hlive slot hslot
      rw [hnil live hlive] at hslot
      exact absurd hslot List.not_mem_nil
    · intro live hlive i hi
      rw [hnil live hlive] at hi
      exact absurd hi List.not_mem_nil
    · intro live hlive
      rw [hnil live hlive]
      exact List.nodup_nil
    · intro live hlive i hi
      rw [hnil live hlive] at hi
      exact absurd hi List.not_mem_nil

/-- The frame of a function with `l` locals. -/
structure FunctionFrame (u : CodeUnit) (l : Nat) : Prop where
  inFunction : u.inFunction = true
  start : u.start.current = l + 1
  reserved : u.reserved = l + 1
  locals : ∀ i ∈ u.locals, -(l : Int) ≤ i ∧ i < 0
  formals : ∀ i ∈ u.formals, 2 ≤ i
  nodup : (u.formals ++ u.locals).Nodup

/-- The slots a function reserves are those before its loops. -/
theorem reserved_function (decl : Memory.FnDecl) (flags : String → SymbolFlags) (m : Nat)
    (b : Stmt) :
    (function decl flags m b).reserved = (function decl flags m b).start.current :=
  -- The counter is set back, so the function reserves what it started with.
  (allots (function decl flags m b)).current

/-- A function within the size limit has a frame of its symbols. -/
theorem functionFrame (decl : Memory.FnDecl) (flags : String → SymbolFlags) (m : Nat) (b : Stmt)
    (hsize : decl.scope.length + 2 < 2 ^ 31) :
    ∃ l, FunctionFrame (function decl flags m b) l := by
  obtain ⟨l, f, hlen, hnext, hlocals, hformals⟩ := layoutStack_spec decl.scope hsize
  have hstart : (function decl flags m b).start.current = l + 1 := by
    show (Memory.layoutStack decl.scope).2.2.toNat = _
    rw [hnext]
    omega
  have hlocals' : (function decl flags m b).locals = _ := hlocals
  have hformals' : (function decl flags m b).formals = _ := hformals
  have hloc : ∀ i ∈ (function decl flags m b).locals, -(l : Int) ≤ i ∧ i < 0 := by
    intro i hi
    rw [hlocals'] at hi
    obtain ⟨j, hj, rfl⟩ := List.mem_map.mp hi
    rw [List.mem_reverse, List.mem_range'_1] at hj
    omega
  have hfor : ∀ i ∈ (function decl flags m b).formals, 2 ≤ i := by
    intro i hi
    rw [hformals'] at hi
    obtain ⟨j, hj, rfl⟩ := List.mem_map.mp hi
    rw [List.mem_reverse, List.mem_range'_1] at hj
    omega
  refine ⟨l, rfl, hstart, (reserved_function decl flags m b).trans hstart, hloc, hfor,
    List.nodup_append.mpr ⟨?_, ?_, ?_⟩⟩
  · rw [hformals']
    exact List.Nodup.map Nat.cast_injective (List.nodup_reverse.mpr List.nodup_range')
  · rw [hlocals']
    exact List.Nodup.map (neg_injective.comp Nat.cast_injective)
      (List.nodup_reverse.mpr List.nodup_range')
  · intro i hi j hj hij
    have h1 := hfor i hi
    have h2 := hloc j hj
    omega

/-- The first loop slot of a function is not the frame pointer's. -/
theorem start_pos (decl : Memory.FnDecl) (flags : String → SymbolFlags) (m : Nat) (b : Stmt)
    (hsize : decl.scope.length + 2 < 2 ^ 31) :
    0 < (function decl flags m b).start.current := by
  obtain ⟨l, hu⟩ := functionFrame decl flags m b hsize
  rw [hu.start]
  exact Nat.succ_pos l

/-- The offsets of a loop begin in the reserved area, or no more slots behind it than the loops
around keep words on the stack. -/
theorem exists_fits {u : CodeUnit} {site : LoopSite} (hsite : site ∈ u.sites) :
    ∃ m, site.Fits u.start.current u.body.height m ∧
      u.start.current + m ≤ u.reserved + site.words := by
  obtain ⟨m, hm⟩ := u.allots.fits site hsite
  rw [Nat.zero_add] at hm
  refine ⟨m, hm, ?_⟩
  cases u with
  | module b =>
    have hmost : (module b).reserved = max 0 (0 + 0 + b.height) :=
      (module b).allots.most (Nat.le_refl 0)
    have htop : m + site.loop.givenVars.length ≤ b.height := hm.top
    show 0 + m ≤ _
    omega
  | function decl flags size b =>
    have := hm.words
    rw [reserved_function]
    omega

namespace FunctionFrame

variable {u : CodeUnit} {l : Nat}

/-- In a separate function loops are not nested. -/
theorem height_le (hu : FunctionFrame u l) (h : u.Separate) : u.body.height ≤ 1 := by
  by_contra hgt
  obtain ⟨live, hlive, hoff⟩ := exists_inUse u
  have hsecond : l + 1 + 1 ∈ offsets live := by
    rw [hoff, hu.start]
    exact List.mem_range'_1.mpr (by omega)
  have hslot := offset_mem_loopSlots h hlive hsecond
  have hin := (h.inside live hlive _ (List.mem_append_right _ hslot)).1
  rw [hu.reserved] at hin
  push_cast at hin
  omega

/-- In a separate function every loop variable lives in the frame. -/
theorem framed (hu : FunctionFrame u l) (h : u.Separate) : ∀ use ∈ u.body.uses, Framed use := by
  intro use huse
  obtain ⟨site, hsite, slot, hslot, rfl⟩ := u.allots.shown use huse
  have hlive := mem_inUse hsite
  constructor
  · intro hstack
    by_contra hgiven
    have hzero : slot.offset = 0 :=
      (uses_of_inUse hlive hslot).2 (Bool.eq_false_iff.mpr hgiven)
    have hmem : (0 : Int) ∈ u.loopSlots site.live :=
      mem_loopSlots.mpr ⟨slot, hslot, by rw [hu.inFunction]; exact hstack, by rw [hzero]; rfl⟩
    exact (h.saved _ hlive 0 (List.mem_append_right _ hmem)).1 rfl
  · intro hgiven
    rw [← hu.inFunction]
    exact h.loops_framed _ hlive slot hslot hgiven

/-- Where every loop variable lives in the frame, the loop slots are those given. -/
theorem loopSlots_eq (hu : FunctionFrame u l) (hframed : ∀ use ∈ u.body.uses, Framed use)
    {live : List LoopSlot} (hlive : live ∈ u.inUse) :
    u.loopSlots live = (offsets live).map fun o : Nat => -(o : Int) := by
  have hfilter : live.filter (fun slot => slot.var.storage u.inFunction == .stack) =
      live.filter (·.given) := by
    refine List.filter_congr fun slot hslot => ?_
    have hiff := hframed _ (uses_of_inUse hlive hslot).1
    rw [hu.inFunction, Bool.eq_iff_iff, beq_iff_eq]
    exact hiff
  rw [loopSlots, hfilter, offsets, List.map_map]
  rfl

/-- Where loops are not nested, at most one slot is in use for them, the first behind the locals. -/
theorem loopSlots_cases (hu : FunctionFrame u l) (hheight : u.body.height ≤ 1)
    (hframed : ∀ use ∈ u.body.uses, Framed use) {live : List LoopSlot} (hlive : live ∈ u.inUse) :
    u.loopSlots live = [] ∨ u.loopSlots live = [-(l : Int) - 1] := by
  obtain ⟨n, hn, hoff⟩ := u.offsets_inUse hlive
  rw [hu.loopSlots_eq hframed hlive, hoff, hu.start]
  rcases Nat.le_one_iff_eq_zero_or_eq_one.mp (hn.trans hheight) with rfl | rfl
  · exact .inl rfl
  · refine .inr ?_
    show [-((l + 1 : Nat) : Int)] = _
    rw [Nat.cast_add, Nat.cast_one, neg_add, ← sub_eq_add_neg]

/-- A function whose loops are not nested and whose variables all live in the frame is separate. -/
theorem separate (hu : FunctionFrame u l) (hheight : u.body.height ≤ 1)
    (hframed : ∀ use ∈ u.body.uses, Framed use)
    (hlocals : ∀ sym ∈ u.symbols, isLocal sym = true →
      (u.symbolFlags sym).storage.framed = true) : u.Separate := by
  have hslot : ∀ live ∈ u.inUse, ∀ i ∈ u.loopSlots live, i = -(l : Int) - 1 := by
    intro live hlive i hi
    rcases hu.loopSlots_cases hheight hframed hlive with hnil | hone
    · rw [hnil] at hi
      exact absurd hi List.not_mem_nil
    · rw [hone] at hi
      exact List.mem_singleton.mp hi
  constructor
  case locals_framed => exact hlocals
  case loops_framed =>
    intro live hlive slot hmem hgiven
    rw [hu.inFunction]
    exact (hframed _ (uses_of_inUse hlive hmem).1).mpr hgiven
  case saved =>
    intro live hlive i hi
    rcases List.mem_append.mp hi with hi | hi
    · rcases List.mem_append.mp hi with hi | hi
      · have := hu.formals i hi
        omega
      · have := hu.locals i hi
        omega
    · have := hslot live hlive i hi
      omega
  case distinct =>
    intro live hlive
    have hnodup : (u.loopSlots live).Nodup := by
      rcases hu.loopSlots_cases hheight hframed hlive with hnil | hone
      · rw [hnil]
        exact List.nodup_nil
      · rw [hone]
        exact List.nodup_singleton _
    refine List.nodup_append.mpr ⟨hu.nodup, hnodup, ?_⟩
    intro i hi j hj hij
    have hj' := hslot live hlive j hj
    rcases List.mem_append.mp hi with hi | hi
    · have := hu.formals i hi
      omega
    · have := hu.locals i hi
      omega
  case inside =>
    intro live hlive i hi
    rw [hu.reserved]
    rcases List.mem_append.mp hi with hi | hi
    · have := hu.locals i hi
      omega
    · have := hslot live hlive i hi
      omega

end FunctionFrame

/-- **Slots are separate exactly when** a module gives no offset to loop variables, or a function at
most one at a time, and only to variables that it addresses on the stack. -/
theorem separate_iff (u : CodeUnit) (hsmall : u.Small) : u.Separate ↔ u.Sparse := by
  cases u with
  | module b => exact separate_module_iff b
  | function decl flags m b =>
    obtain ⟨l, hu⟩ := functionFrame decl flags m b hsmall
    constructor
    · exact fun h => ⟨hu.height_le h, hu.framed h, h.locals_framed⟩
    · exact fun h => hu.separate h.1 h.2.1 h.2.2

/-- `for x in 0 to 3 { }`. -/
def countingLoop : Stmt :=
  .forRange { branchInfo := 0 } (.stack 2) (Node.simpleLit 0).exprCode (Node.simpleLit 3).exprCode
    .skip

def smallFunction : Memory.FnDecl where
  scope := [⟨"x", .variable, false, false, false, none, 0, 0⟩,
    ⟨"f", .formal, false, false, false, none, 0, 0⟩]
  once := false
  frameSize := 0
  scBoolOffset := 0
  scLockOffset := 0
  scMemoOffset := 0

/-- In a function the loop variable lies behind the locals. -/
theorem separate_smallFunction :
    (function smallFunction (fun _ => { functionScope := true }) 0 countingLoop).Separate := by
  have hsmall :
      (function smallFunction (fun _ => { functionScope := true }) 0 countingLoop).Small := by
    show 2 + 2 < 2 ^ 31
    decide
  have hframed : ∀ use ∈ countingLoop.uses, Framed use := by
    intro use huse
    rw [show countingLoop.uses = [(.lvar1, true)] from rfl] at huse
    rw [List.mem_singleton.mp huse]
    exact ⟨fun _ => rfl, fun _ => rfl⟩
  have hsparse :
      (function smallFunction (fun _ => { functionScope := true }) 0 countingLoop).Sparse := by
    refine ⟨?_, hframed, fun _ _ _ => rfl⟩
    show countingLoop.height ≤ 1
    decide
  exact (separate_iff _ hsmall).mpr hsparse

/-- The variable of a loop of a module lies at `fp[0]`, over the saved frame pointer. -/
theorem not_separate_countingLoop : ¬ (module countingLoop).Separate := by
  intro h
  have hslot : (0 : Int) ∈ (module countingLoop).loopSlots [⟨.lvar1, true, 0⟩] := by decide
  have hlive : [⟨.lvar1, true, 0⟩] ∈ (module countingLoop).inUse :=
    List.mem_cons_of_mem _ List.mem_cons_self
  exact (h.saved _ hlive 0 (List.mem_append_right _ hslot)).1 rfl

end CodeUnit

end N00b.Codegen
