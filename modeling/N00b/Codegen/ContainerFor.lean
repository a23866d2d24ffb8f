import N00b.Codegen.LoopCode
import N00b.Vm.Views

/-!
# Loops over a container

The code of `gen_container_for` keeps the length of a view, the count of the turns, the size of an
item and the place of the next item on the stack. The size comes from the low bits of the pointer to
the view; flags have 7 there, which makes a size of 128.

## Main results

* `deliversItems_iff`: with its variables out of the way, the loop delivers the items of the view
  exactly when these are bytes, or at most 31 flags of which none but the first is set.
-/

namespace N00b.Codegen

open N00b.Vm N00b.Lib Piece

/-! ## The parts of the code -/

def viewCode (li : LoopInfo) (container : ExprCode) : List Piece :=
  labelPieces li.label ++ [expr container, op (.tcall .view none)]

/-- The code between the view and the loop. -/
def containerSetup (li : LoopInfo) : List Piece :=
  lenVarInit li ++ [op (.popTo .r2), op .unsteal, op (.shlI 1), op (.pushImm 0), op (.pushFrom .r2)]

/-- The code before a container loop makes the view and sets the loop slots up. -/
theorem containerInit_eq (li : LoopInfo) (container : ExprCode) :
    containerInit li container = viewCode li container ++ containerSetup li := by
  simp [containerInit, viewCode, containerSetup]

/-- Where the loop lies if its statement starts at `base`. -/
def containerPlace (base : Nat) (li : LoopInfo) (lvar : Symbol) (container : ExprCode)
    (body : Stmt) : LoopPlace where
  base := base + sizeOf (viewCode li container)
  entry := base + sizeOf (containerInit li container)
  start := base + sizeOf (containerInit li container) + 1 + 1 +
    sizeOf (containerStep li lvar none)
  bodySize := body.size

/-- Where a container loop is compiled, its setup, head and step lie at the places the loop runs
through. -/
theorem container_lies {code : List Instr} {li : LoopInfo} {lvar : Symbol} {container : ExprCode}
    {body : Stmt} {ctx : GenCtx} {env : Enclosing} {scope loops : List Nat}
    (hready : Ready ctx env scope loops (Stmt.forIn li lvar none container body).bound)
    (hscoped : (Stmt.forIn li lvar none container body).Scoped scope loops)
    (hcode : BlockAt code ctx.counter
      ((genStmt (.forIn li lvar none container body) ctx).instructions.drop ctx.counter)) :
    let p := containerPlace ctx.counter li lvar container body
    p.Lies code (piecesCode (containerSetup li) p.base) [.gteNoPop]
      (piecesCode (containerStep li lvar none) (p.entry + 2)) 5 := by
  intro p
  have hblock := LoopPlace.blockAt_layout hready hscoped hcode
  rw [Stmt.layout] at hblock
  simp only [containerInit_eq] at hblock
  refine LoopPlace.lies_of_layout hblock ?_ ?_ rfl rfl ?_ rfl ?_
  · simp only [p, containerPlace, containerInit_eq]
  · simp only [p, containerPlace, containerInit_eq]
  · simp only [p, containerPlace, containerInit_eq, sizeOf_append]
    omega
  · rw [Layout.size_bind, Stmt.size_layout]
    rfl

/-! ## The places of the variables -/

section

variable {site : LoopSite} {li : LoopInfo} {lvar sym : Symbol} {container : ExprCode}
  {body : Stmt} {start top m : Nat} {f : Bool}

/-- The variable of a container loop lives in the stack slot that the frame layout gives it. -/
theorem container_lvar (hfits : site.Fits start top m)
    (hloop : site.loop = .forIn li lvar none container body) (hplaces : site.Places f li lvar) :
    lvar = .stack (start + m) := by
  have h := hplaces.lvar1
  rw [LoopSite.symbol, hfits.own, hloop] at h
  exact (Option.some.inj h).symm

/-- A loop variable is static data or a stack slot. -/
theorem static_or_stack {v : LoopVar} (h : site.symbol f v = some sym) :
    (∃ off, sym = .static 0 off) ∨ ∃ off, sym = .stack off := by
  by_cases hv : v.storage f = .stack
  · obtain ⟨slot, -, -, rfl⟩ := LoopSite.symbol_stack h hv
    exact .inr ⟨slot.offset, rfl⟩
  · exact .inl (LoopSite.symbol_static h hv)

/-- The index variable of a container loop is static data or a stack slot. -/
theorem container_ix (hplaces : site.Places f li lvar) (hsym : sym ∈ li.ixSyms) :
    (∃ off, sym = .static 0 off) ∨ ∃ off, sym = .stack off := by
  rcases List.mem_append.mp hsym with hsym | hsym
  · exact static_or_stack (hplaces.ix.trans (Option.mem_toList.mp hsym))
  · exact static_or_stack (hplaces.labelIx.trans (Option.mem_toList.mp hsym))

/-- Only the length with a label can lie on the stack: behind the loop variable, or at `fp[0]` if
`$last` is used as well. -/
theorem container_last (hfits : site.Fits start top m)
    (hloop : site.loop = .forIn li lvar none container body) (hplaces : site.Places f li lvar)
    (hsym : sym ∈ li.lastSyms) :
    (∃ off, sym = .static 0 off) ∨ sym = .stack 0 ∨ sym = .stack (start + m + 1) := by
  rcases List.mem_append.mp hsym with hsym | hsym
  · rw [Option.mem_toList, ← hplaces.last] at hsym
    exact .inl (LoopSite.symbol_static hsym (by rw [storage_last]; decide))
  · rw [Option.mem_toList] at hsym
    obtain ⟨slot, hslot, hvar, rfl⟩ := LoopSite.symbol_stack (hplaces.labelLast.trans hsym) rfl
    rw [hfits.own, hloop] at hslot
    refine .inr ?_
    cases hgiven : slot.given with
    | false => exact .inl (congrArg Symbol.stack ((Stmt.mem_ownSlots hslot).2 hgiven))
    | true =>
      obtain ⟨j, hj, hoff⟩ := Stmt.offset_of_given hslot hgiven
      rw [hvar] at hj
      simp only [Stmt.givenVars, LoopInfo.lenVars, LoopInfo.indexVars, hsym] at hj
      -- The length comes right behind the loop variable.
      have hone : j = 1 := by
        cases hlast : li.loopLast <;> cases hix : li.loopIx <;> cases hnamed : li.namedLoopIx <;>
          rw [hlast, hix, hnamed] at hj <;> rcases j with _ | _ | _ | j <;> first | rfl | cases hj
      exact .inr (congrArg Symbol.stack (by rw [hoff, hone, Nat.add_assoc]))

end

/-! ## The code on the list -/

section

variable {H : Type} {host : Host H} {top fp : Nat} {s : ListState H} {li : LoopInfo}
  {lvar : Symbol}

/-- Storing the length in `$last` leaves the operand stack as it finds it. -/
theorem run_lenVarInit {w : Word} {ws : List Word} (base : Nat)
    (hlast : ∀ sym ∈ li.lastSyms, Placed host top fp sym) (hops : s.operands = w :: ws)
    (hroom : ws.length + 3 ≤ top) :
    ∃ s', s.run host top fp (piecesCode (lenVarInit li) base) = some (.ok s') ∧
      s'.operands = w :: ws ∧ s'.host = s.host := by
  have hstore : ∀ sym ∈ li.lastSyms, ∃ s',
      s.run host top fp (piecesCode (symStore sym false) base) = some (.ok s') ∧
        s'.operands = w :: ws ∧ s'.host = s.host := by
    intro sym hsym
    exact ⟨_, run_symStore_keep base (hlast sym hsym) hops hroom, operands_setSym.trans hops,
      host_setSym⟩
  unfold lenVarInit
  cases hl : li.loopLast with
  | some sym => exact hstore sym (by simp [LoopInfo.lastSyms, hl])
  | none =>
    cases hn : li.namedLoopLast with
    | some sym => exact hstore sym (by simp [LoopInfo.lastSyms, hn])
    | none => exact ⟨s, rfl, hops, rfl⟩

/-- The setup turns a tagged view into a length, a zero index, an item size and a pointer. -/
theorem run_containerSetup {n v : Word} {kind : ItemKind} (base : Nat)
    (hlast : ∀ sym ∈ li.lastSyms, Placed host top fp sym) (hops : s.operands = [n, v])
    (htag : v &&& 7 = kind.tag) (hroom : 5 ≤ top) :
    ∃ s', s.run host top fp (piecesCode (containerSetup li) base) = some (.ok s') ∧
      s'.operands = [n, 0, kind.size, v &&& ~~~ 7] ∧ s'.host = s.host := by
  have hroom₁ : 1 < top := by omega
  have hroom₂ : 2 < top := by omega
  have hroom₃ : 3 < top := by omega
  have hshl : arithWord .shl (1#64) (v &&& 7#64) = .ok kind.size := by
    have hsize := kind.shl_tag
    rwa [← htag] at hsize
  obtain ⟨s₁, hs₁, hops₁, hhost₁⟩ := run_lenVarInit base hlast hops
    (by simpa using hroom.trans' (by omega))
  refine ⟨{ s₁ with
    operands := [n, 0, kind.size, v &&& ~~~ 7]
    regs := Function.update s₁.regs .r2 n }, ?_, rfl, hhost₁⟩
  rw [containerSetup, piecesCode_append, ListState.run_append hs₁]
  simp [ListState.run, ListState.exec, ListState.unary, ListState.push, ListState.result, hops₁,
    hshl, hroom₁, hroom₂, hroom₃]

/-- The code up to the loop where the length may lie in the slot of the view: whatever is there is
taken for the place of the items. -/
theorem run_containerSetup_over {n v : Word} (base : Nat)
    (hlast : ∀ sym ∈ li.lastSyms, Placed host top fp sym ∨
      ∃ off, sym = .stack off ∧ fp - off + 1 = top ∧ Refers host fp sym)
    (hops : s.operands = [n, v]) (hroom : 5 ≤ top) :
    ∃ s' size ptr, s.run host top fp (piecesCode (containerSetup li) base) = some (.ok s') ∧
      s'.operands = [n, 0, size, ptr] := by
  have hroom₁ : 1 < top := by omega
  have hroom₂ : 2 < top := by omega
  have hroom₃ : 3 < top := by omega
  have hstore : ∀ sym ∈ li.lastSyms, ∃ s' v',
      s.run host top fp (piecesCode (symStore sym false) base) = some (.ok s') ∧
        s'.operands = [n, v'] := by
    intro sym hsym
    rcases hlast sym hsym with hplaced | ⟨off, rfl, hslot, href⟩
    · exact ⟨_, v, run_symStore_keep base hplaced hops (by simpa using hroom.trans' (by omega)),
        operands_setSym.trans hops⟩
    · have hloc : host.locOf (host.refOf (.slot (fp - off))) = .slot (fp - off) := href
      have hout : ¬ top ≤ fp - off := by omega
      have hin : top ≤ fp - off + 2 := by omega
      have hplace : fp - off + 2 - top = 1 := by omega
      refine ⟨{ s with operands := [n, n] }, n, ?_, rfl⟩
      simp [symStore, symLoadRef, ListState.run, ListState.exec, ListState.unary, ListState.binary,
        ListState.push, ListState.store, hops, hloc, hout, hin, hplace, hroom₂, hroom₃]
  obtain ⟨s₁, v', hs₁, hops₁⟩ : ∃ s' v', s.run host top fp (piecesCode (lenVarInit li) base) =
      some (.ok s') ∧ s'.operands = [n, v'] := by
    unfold lenVarInit
    cases hl : li.loopLast with
    | some sym => exact hstore sym (by simp [LoopInfo.lastSyms, hl])
    | none =>
      cases hn : li.namedLoopLast with
      | some sym => exact hstore sym (by simp [LoopInfo.lastSyms, hn])
      | none => exact ⟨s, v, rfl, hops⟩
  have hshl : arithWord .shl (1#64) (v' &&& 7#64) = .ok (1#64 <<< (v' &&& 7#64).toNat) := by
    refine if_pos ?_
    rw [BitVec.toNat_and]
    exact lt_of_le_of_lt Nat.and_le_right (by decide)
  refine ⟨{ s₁ with
    operands := [n, 0, 1#64 <<< (v' &&& 7#64).toNat, v' &&& ~~~ 7]
    regs := Function.update s₁.regs .r2 n }, _, _, ?_, rfl⟩
  rw [containerSetup, piecesCode_append, ListState.run_append hs₁]
  simp [ListState.run, ListState.exec, ListState.unary, ListState.push, ListState.result, hops₁,
    hshl, hroom₁, hroom₂, hroom₃]

/-- Counting an iteration increments the index on top of the stack. -/
theorem run_iterationCount {w : Word} {ws : List Word} (base : Nat)
    (hsyms : ∀ sym ∈ li.ixSyms, Placed host top fp sym) (hops : s.operands = w :: ws)
    (hroom : ws.length + 3 ≤ top) :
    ∃ s', s.run host top fp (piecesCode (iterationCount li) base) = some (.ok s') ∧
      s'.operands = (w + 1) :: ws ∧ s'.host = s.host ∧ s'.regs = s.regs := by
  unfold iterationCount
  split
  next hix =>
    exact ⟨_, run_indexVarIncrement hix base hsyms hops hroom, operands_setSyms, host_setSyms,
      regs_setSyms⟩
  next =>
    have hlen : ws.length + 1 < top := by omega
    refine ⟨{ s with operands := (w + 1) :: ws }, ?_, rfl, rfl, rfl⟩
    simp [ListState.run, ListState.exec, ListState.push, ListState.binary, ListState.unary,
      ListState.result, arithWord, hops, hlen]

/-- Up to the load, a turn keeps the count and the length in registers and the size and the pointer
on the stack. -/
theorem run_countAndLoad {n ix size ptr : Word} (base : Nat)
    (hsyms : ∀ sym ∈ li.ixSyms, Placed host top fp sym) (hops : s.operands = [n, ix, size, ptr])
    (hroom : 5 ≤ top) :
    ∃ s' : ListState H, s'.operands = [size, ptr] ∧ s'.host = s.host ∧ s'.regs .r1 = ix + 1 ∧
      s'.regs .r2 = n ∧
      s.run host top fp (piecesCode ([op (.popTo .r2)] ++ iterationCount li ++
        [op (.popTo .r1), op (.loadFromView false)]) base) =
      s'.run host top fp [.loadFromView false] := by
  let s₁ : ListState H := { s with
    operands := [ix, size, ptr]
    regs := Function.update s.regs .r2 n }
  have hpop : s.run host top fp (piecesCode [op (.popTo .r2)] base) = some (.ok s₁) := by
    simp [ListState.run, ListState.exec, ListState.unary, hops, s₁]
  obtain ⟨s₂, hs₂, hops₂, hhost₂, hregs₂⟩ := run_iterationCount (s := s₁)
    (base + sizeOf [op (.popTo .r2)]) hsyms rfl hroom
  have hcount := (ListState.run_append hpop).trans hs₂
  rw [← piecesCode_append] at hcount
  refine ⟨{ s₂ with
    operands := [size, ptr]
    regs := Function.update s₂.regs .r1 (ix + 1) }, rfl, hhost₂, ?_, ?_, ?_⟩
  · simp
  · show Function.update s₂.regs .r1 (ix + 1) .r2 = n
    rw [Function.update_of_ne (by decide), hregs₂]
    simp [s₁]
  · rw [piecesCode_append, ListState.run_append hcount]
    simp [ListState.run, ListState.exec, ListState.unary, hops₂]

/-- After the load, a turn stores the item and puts the count and the length back. -/
theorem run_storeItem {n count size ptr w : Word} (base : Nat) (hlvar : Placed host top fp lvar)
    (hops : s.operands = [w, size, ptr]) (hr1 : s.regs .r1 = count) (hr2 : s.regs .r2 = n)
    (hroom : 5 ≤ top) :
    ∃ s', s.run host top fp (piecesCode (symStore lvar true ++
        [op (.pushFrom .r1), op (.pushFrom .r2)]) base) = some (.ok s') ∧
      s'.operands = [n, count, size, ptr] ∧ s'.host = s.host ∧ getSym fp lvar s' = w := by
  have hroom₂ : 2 < top := by omega
  have hroom₃ : 3 < top := by omega
  have hstore := run_symStore_pop base hlvar hops (by simpa using hroom.trans' (by omega))
  let s₁ := setSym fp lvar w { s with operands := [size, ptr] }
  refine ⟨{ s₁ with operands := [n, count, size, ptr] }, ?_, rfl, host_setSym,
    (getSym_congr rfl rfl).trans (getSym_setSym hlvar)⟩
  rw [piecesCode_append]
  refine (ListState.run_append hstore).trans ?_
  simp [ListState.run, ListState.exec, ListState.push, hr1, hr2, hroom₂, hroom₃, s₁]

end

/-! ## The whole loop -/

section

variable {H : Type}

/-- The runtime with the view of `n` items at `p`, and no other memory to read views from. -/
def viewHost (host : Host H) (mem : H → Word → BitVec 8) (kind : ItemKind) (p : Word) (n : Nat) :
    Host H :=
  host.withViews fun h => window (mem h) p (kind.extent n)

variable {host : Host H} {mem : H → Word → BitVec 8} {kind : ItemKind} {p n : Word}
  {top fp : Nat} {s : ListState H} {li : LoopInfo} {lvar : Symbol}

/-- A load that succeeds replaces the size and the pointer by the item and the advanced view. -/
theorem run_loadFromView {count size ptr w w' w'' : Word}
    (hops : s.operands = [size, ptr]) (hr1 : s.regs .r1 = count)
    (hload : loadFromView (window (mem s.host) p (kind.extent n.toNat)) false count size ptr =
      .ok [w, w', w'']) (hroom : 5 ≤ top) :
    s.run (viewHost host mem kind p n.toNat) top fp [.loadFromView false] =
      some (.ok { s with operands := [w, w', w''] }) := by
  have hroom' : 4 ≤ top := by omega
  have hroom'' : 5 ≤ top + 2 := by omega
  have hrange : List.range 3 = [0, 1, 2] := rfl
  simp [ListState.run, ListState.exec, ListState.binary, ListState.unary, ListState.hostCall, hops,
    viewHost, Host.withViews, hr1, hload, hroom', hroom'', Except.map, hrange]

/-- A load that fails stops the machine with its fault. -/
theorem run_loadFromView_error {count size ptr : Word} {f : Fault}
    (hops : s.operands = [size, ptr]) (hr1 : s.regs .r1 = count)
    (hload : loadFromView (window (mem s.host) p (kind.extent n.toNat)) false count size ptr =
      .error f) (hroom : 5 ≤ top) :
    s.run (viewHost host mem kind p n.toNat) top fp [.loadFromView false] = some (.halt f) := by
  have hroom' : 4 ≤ top := by omega
  have hroom'' : 5 ≤ top + 2 := by omega
  simp [ListState.run, ListState.exec, ListState.binary, ListState.unary, ListState.hostCall, hops,
    viewHost, Host.withViews, hr1, hload, hroom', hroom'', Except.map]

def SameItems (mem : H → Word → BitVec 8) (kind : ItemKind) (p : Word) (n : Nat) (h₀ h : H) :
    Prop :=
  ∀ k < n, kind.item (mem h) p k = kind.item (mem h₀) p k

/-- The variables of the loop lie outside of the operands from the slot `top` down. -/
structure ContainerVars (host : Host H) (top fp : Nat) (li : LoopInfo) (lvar : Symbol) : Prop where
  item : Placed host top fp lvar
  ix : ∀ sym ∈ li.ixSyms, Placed host top fp sym
  last : ∀ sym ∈ li.lastSyms, Placed host top fp sym

section

variable {u : CodeUnit} {site : LoopSite} {container : ExprCode} {body : Stmt} {st : VmState H}

/-- The variables of a compiled container loop lie outside the slots the loop works in, unless one
overlaps its operands. -/
theorem container_vars (hsite : site ∈ u.sites)
    (hloop : site.loop = .forIn li lvar none container body)
    (hplaces : site.Places u.inFunction li lvar)
    (hrefs : ∀ sym ∈ li.syms lvar, Refers host st.fp sym)
    (hout : ¬ Overlaps (li.syms lvar) st) :
    ContainerVars (viewHost host mem kind p n.toNat) (st.sp + 2) st.fp li lvar := by
  obtain ⟨m, hfits, -⟩ := CodeUnit.exists_fits hsite
  have habove : ∀ off, Symbol.stack off ∈ li.syms lvar → st.sp + 2 ≤ st.fp - off :=
    fun off hmem => Nat.le_of_not_lt fun hlt => hout ⟨off, hmem, hlt⟩
  have hplaced : ∀ sym ∈ li.syms lvar, ((∃ off, sym = .static 0 off) ∨ ∃ off, sym = .stack off) →
      Placed (viewHost host mem kind p n.toNat) (st.sp + 2) st.fp sym := by
    rintro sym hmem (⟨off, rfl⟩ | ⟨off, rfl⟩)
    · exact hrefs _ hmem
    · exact ⟨hrefs _ hmem, habove off hmem⟩
  refine ⟨hplaced _ List.mem_cons_self (.inr ⟨_, container_lvar hfits hloop hplaces⟩),
    fun sym hsym => hplaced sym (List.mem_cons_of_mem _ (List.mem_append_left _ hsym))
      (container_ix hplaces hsym), fun sym hsym =>
    hplaced sym (List.mem_cons_of_mem _ (List.mem_append_right _ hsym)) ?_⟩
  rcases container_last hfits hloop hplaces hsym with h | h | h
  · exact .inl h
  · exact .inr ⟨_, h⟩
  · exact .inr ⟨_, h⟩

/-- The length lies outside of the operands or in the slot of the view. -/
theorem container_last_over (hsite : site ∈ u.sites)
    (hloop : site.loop = .forIn li lvar none container body)
    (hplaces : site.Places u.inFunction li lvar) (hbelow : site.Below u st)
    (hrefs : ∀ sym ∈ li.syms lvar, Refers host st.fp sym) :
    ∀ sym ∈ li.lastSyms, Placed host (st.sp + 2) st.fp sym ∨
      ∃ off, sym = .stack off ∧ st.fp - off + 1 = st.sp + 2 ∧ Refers host st.fp sym := by
  obtain ⟨m, hfits, hle⟩ := CodeUnit.exists_fits hsite
  have hsp : st.sp + 2 + site.words + u.reserved ≤ st.fp := hbelow
  intro sym hsym
  have href := hrefs sym (List.mem_cons_of_mem _ (List.mem_append_right _ hsym))
  rcases container_last hfits hloop hplaces hsym with ⟨off, rfl⟩ | rfl | rfl
  · exact .inl href
  · exact .inl ⟨href, by omega⟩
  · by_cases habove : st.sp + 2 ≤ st.fp - (u.start.current + m + 1)
    · exact .inl ⟨href, habove⟩
    · exact .inr ⟨_, rfl, by omega, href⟩

end

/-- The slots of the loop before turn `k`. -/
def containerSlots (kind : ItemKind) (p n : Word) (k : Nat) : List Word :=
  [n, BitVec.ofNat 64 k, kind.size, kind.place p k]

/-- The head tells whether any items are left. -/
theorem run_containerHead {k : Nat} (hops : s.operands = containerSlots kind p n k)
    (hk : k ≤ n.toNat) (hroom : 5 ≤ top) :
    s.run host top fp [.gteNoPop] = some (.ok { s with
      operands := (if k < n.toNat then 0 else 1) :: containerSlots kind p n k }) := by
  have hroom' : 4 < top := by omega
  have hnat : (BitVec.ofNat 64 k).toNat = k := by
    rw [BitVec.toNat_ofNat, Nat.mod_eq_of_lt (lt_of_le_of_lt hk n.isLt)]
  have htest : ofBool (n.ule (BitVec.ofNat 64 k)) = if k < n.toNat then 0 else 1 := by
    rw [BitVec.ule, hnat]
    by_cases hlt : k < n.toNat
    · rw [if_pos hlt, decide_eq_false (by omega)]
      rfl
    · rw [if_neg hlt, decide_eq_true (by omega)]
      rfl
  rw [← htest]
  simp [ListState.run, ListState.exec, ListState.binary, ListState.unary, ListState.push, hops,
    containerSlots, hroom']

/-- The step counts the iteration, loads the item and stores it. -/
theorem containerStep_eq (li : LoopInfo) (lvar : Symbol) (base : Nat) :
    ∃ base', piecesCode (containerStep li lvar none) base =
      piecesCode ([op (.popTo .r2)] ++ iterationCount li ++
        [op (.popTo .r1), op (.loadFromView false)]) base ++
      piecesCode (symStore lvar true ++ [op (.pushFrom .r1), op (.pushFrom .r2)]) base' := by
  refine ⟨base + sizeOf ([op (.popTo .r2)] ++ iterationCount li ++
    [op (.popTo .r1), op (.loadFromView false)]), ?_⟩
  rw [← piecesCode_append]
  simp [containerStep]

/-- A container loop makes one turn for each item it can load, with the slots and the variable of
that item. -/
theorem container_turns {h₀ : H} {m : Nat} (base : Nat)
    (hvars : ContainerVars (viewHost host mem kind p n.toNat) top fp li lvar) (hm : m ≤ n.toNat)
    (h31 : kind = .bits → m ≤ 31) (hroom : 5 ≤ top) :
    LoopPlace.Turns (viewHost host mem kind p n.toNat) [.gteNoPop]
      (piecesCode (containerStep li lvar none) base) top fp m (containerSlots kind p n)
      (SameItems mem kind p n.toNat h₀)
      (fun k s => getSym fp lvar s = kind.loaded k (kind.item (mem h₀) p k)) := by
  intro k s hk hops hsame
  have hkn : k < n.toNat := hk.trans_le hm
  have hhead : s.run (viewHost host mem kind p n.toNat) top fp [.gteNoPop] = _ :=
    run_containerHead hops hkn.le hroom
  rw [if_pos hkn] at hhead
  obtain ⟨s₁, hops₁, hhost₁, hr1, hr2, hcount⟩ := run_countAndLoad
    (s := { s with operands := containerSlots kind p n k }) base hvars.ix rfl hroom
  have hload : s₁.run (viewHost host mem kind p n.toNat) top fp [.loadFromView false] = _ :=
    run_loadFromView hops₁ hr1 (loadFromView_item kind hkn fun h => hk.trans_le (h31 h)) hroom
  have hitem : kind.item (mem s₁.host) p k = kind.item (mem h₀) p k := by
    rw [hhost₁]
    exact hsame k hkn
  rw [hitem] at hload
  obtain ⟨base', hcode⟩ := containerStep_eq li lvar base
  obtain ⟨s₂, hs₂, hops₂, hhost₂, hget⟩ := run_storeItem
    (s := { s₁ with operands := [kind.loaded k (kind.item (mem h₀) p k), kind.size,
      kind.place p (k + 1)] }) base' hvars.item rfl hr1 hr2 hroom
  refine ⟨_, _, s₂, hhead, rfl, ?_, ?_, ?_, hget⟩
  · rw [hcode, ListState.run_append (hcount.trans hload)]
    exact hs₂
  · rw [hops₂, containerSlots]
    congr 2
    exact (BitVec.ofNat_add k 1).symm
  · rw [hhost₂]
    show SameItems mem kind p n.toNat h₀ s₁.host
    rw [hhost₁]
    exact hsame

/-- A loop over more than 31 bits stops the machine at the 32nd. -/
theorem container_stuck (base : Nat)
    (hvars : ContainerVars (viewHost host mem .bits p n.toNat) top fp li lvar) (hn : 31 < n.toNat)
    (hops : s.operands = containerSlots .bits p n 31) (hroom : 5 ≤ top) :
    ∃ s' ws, s.run (viewHost host mem .bits p n.toNat) top fp [.gteNoPop] = some (.ok s') ∧
      s'.operands = 0 :: ws ∧
      ({ s' with operands := ws } : ListState H).run (viewHost host mem .bits p n.toNat) top fp
        (piecesCode (containerStep li lvar none) base) = some (.halt .undefined) := by
  have hhead : s.run (viewHost host mem .bits p n.toNat) top fp [.gteNoPop] = _ :=
    run_containerHead hops hn.le hroom
  rw [if_pos hn] at hhead
  obtain ⟨s₁, hops₁, -, hr1, -, hcount⟩ := run_countAndLoad
    (s := { s with operands := containerSlots .bits p n 31 }) base hvars.ix rfl hroom
  have hload : s₁.run (viewHost host mem .bits p n.toNat) top fp [.loadFromView false] = _ :=
    run_loadFromView_error hops₁ hr1 (loadFromView_undefined hn) hroom
  obtain ⟨base', hcode⟩ := containerStep_eq li lvar base
  refine ⟨_, _, hhead, rfl, ?_⟩
  rw [hcode]
  exact ListState.run_append_halt _ (hcount.trans hload)

/-- The run ends behind the loop without the view, and enters the body once for each item, in order
and with the item in the loop variable. Of memory to read views from there is only the view. -/
def DeliversItems (host : Host H) (code : List Instr) (l : LoopPlace) (lvar : Symbol)
    (mem : H → Word → BitVec 8) (kind : ItemKind) (p n : Word) (st : VmState H) : Prop :=
  ∃ ts st', Rounds (step (viewHost host mem kind p n.toNat) code) l.Own l.Body st ts (.ok st') ∧
    ts.length = n.toNat ∧
    (∀ k t, ts[k]? = some t → symValue lvar t = kind.item (mem st.host) p k) ∧
    st'.pc = l.start + l.bodySize + 2 ∧ st'.sp = st.sp + 2

/-- When the loop starts, the view and its length are the top of the stack. -/
theorem shows_view {st : VmState H} :
    ∃ s, Shows (st.sp + 2) st.fp s st ∧ s.operands = [st.peek 0, st.peek 1] ∧ s.host = st.host := by
  refine ⟨st.toList (st.sp + 2), shows_toList (Nat.le_add_right _ _), ?_, rfl⟩
  rw [VmState.toList, Nat.add_sub_cancel_left]
  rfl

variable {container : ExprCode} {body : Stmt} {ctx : GenCtx} {env : Enclosing}
  {scope loops : List Nat} {code : List Instr} {st : VmState H}

section

variable {l : LoopPlace} {base : Nat}

/-- The setup leaves the slots of the first turn. -/
theorem container_init (base : Nat)
    (hn : st.peek 0 = n) (hp : st.peek 1 &&& ~~~ 7 = p) (htag : st.peek 1 &&& 7 = kind.tag)
    (hvars : ContainerVars (viewHost host mem kind p n.toNat) (st.sp + 2) st.fp li lvar)
    (hroom : 3 ≤ st.sp) :
    ∃ s s', Shows (st.sp + 2) st.fp s st ∧
      s.run (viewHost host mem kind p n.toNat) (st.sp + 2) st.fp
        (piecesCode (containerSetup li) base) = some (.ok s') ∧
      s'.operands = containerSlots kind p n 0 ∧ SameItems mem kind p n.toNat st.host s'.host := by
  obtain ⟨s, hs, hops, hhost⟩ := @shows_view _ st
  rw [hn] at hops
  obtain ⟨s₁, hinit, hops₁, hhost₁⟩ := run_containerSetup base hvars.last hops htag (by omega)
  refine ⟨s, s₁, hs, hinit, ?_, ?_⟩
  · rw [hops₁, hp]
    cases kind with
    | bytes log => simp [containerSlots, ItemKind.place]
    | bits => rfl
  · rw [hhost₁, hhost]
    exact fun k _ => rfl

/-- With its variables apart from its slots, a container loop delivers every item it can load. -/
theorem container_rounds
    (hlies : l.Lies code (piecesCode (containerSetup li) l.base) [.gteNoPop]
      (piecesCode (containerStep li lvar none) base) 5)
    (hpc : st.pc = l.base) (hn : st.peek 0 = n) (hp : st.peek 1 &&& ~~~ 7 = p)
    (htag : st.peek 1 &&& 7 = kind.tag)
    (hvars : ContainerVars (viewHost host mem kind p n.toNat) (st.sp + 2) st.fp li lvar)
    (hroom : 3 ≤ st.sp) (hvalues : st.sp + 2 ≤ stackSize) (h31 : kind = .bits → n.toNat ≤ 31)
    (hpass : ∀ t ts, Entered (step (viewHost host mem kind p n.toNat) code) l.Own l.Body st
      (t :: ts) → l.Passes (viewHost host mem kind p n.toNat) code (st.sp + 2)
        (SameItems mem kind p n.toNat st.host) t) :
    ∃ ts st', Rounds (step (viewHost host mem kind p n.toNat) code) l.Own l.Body st ts (.ok st') ∧
      ts.length = n.toNat ∧
      (∀ k t, ts[k]? = some t → symValue lvar t = kind.loaded k (kind.item (mem st.host) p k)) ∧
      st'.pc = l.start + l.bodySize + 2 ∧ st'.sp = st.sp + 2 := by
  obtain ⟨s, s₁, hs, hinit, hfirst, hsame⟩ := container_init l.base hn hp htag hvars hroom
  have hdone : ∀ s : ListState H, s.operands = containerSlots kind p n n.toNat →
      SameItems mem kind p n.toNat st.host s.host →
      ∃ s' w ws, s.run (viewHost host mem kind p n.toNat) (st.sp + 2) st.fp [.gteNoPop] =
        some (.ok s') ∧ s'.operands = w :: ws ∧ w ≠ 0 ∧ ws.length + 1 = 5 := by
    intro s hops _
    have hhead : s.run (viewHost host mem kind p n.toNat) (st.sp + 2) st.fp [.gteNoPop] = _ :=
      run_containerHead hops le_rfl (by omega)
    rw [if_neg (lt_irrefl _)] at hhead
    exact ⟨_, _, _, hhead, rfl, by decide, rfl⟩
  obtain ⟨ts, st', hrounds, hlen, hall, hend⟩ := hlies.rounds hvalues hs hpc hinit hfirst hsame
    (container_turns base hvars le_rfl h31 (by omega)) hdone hpass
  refine ⟨ts, st', hrounds, hlen, fun k t ht => ?_, hend⟩
  obtain ⟨s', hs', hget⟩ := hall k t ht
  rw [Shows.symValue_eq hs' hvars.item, hget]

/-- A loop over more than 31 bits ends in a fault. -/
theorem container_undefined
    (hlies : l.Lies code (piecesCode (containerSetup li) l.base) [.gteNoPop]
      (piecesCode (containerStep li lvar none) base) 5)
    (hpc : st.pc = l.base) (hn : st.peek 0 = n) (hp : st.peek 1 &&& ~~~ 7 = p)
    (htag : st.peek 1 &&& 7 = ItemKind.bits.tag)
    (hvars : ContainerVars (viewHost host mem .bits p n.toNat) (st.sp + 2) st.fp li lvar)
    (hroom : 3 ≤ st.sp) (hvalues : st.sp + 2 ≤ stackSize) (h31 : 31 < n.toNat)
    (hpass : ∀ t ts, Entered (step (viewHost host mem .bits p n.toNat) code) l.Own l.Body st
      (t :: ts) → l.Passes (viewHost host mem .bits p n.toNat) code (st.sp + 2)
        (SameItems mem .bits p n.toNat st.host) t) :
    ∃ ts, Rounds (step (viewHost host mem .bits p n.toNat) code) l.Own l.Body st ts
      (.halt .undefined) := by
  obtain ⟨s, s₁, hs, hinit, hfirst, hsame⟩ := container_init l.base hn hp htag hvars hroom
  exact hlies.rounds_stuck hvalues hs hpc hinit hfirst hsame
    (container_turns base hvars h31.le (fun _ => le_rfl) (by omega))
    (fun s hops _ => container_stuck base hvars h31 hops (by omega)) hpass

end

/-- Of flags there are at most 31, and none but the first is set. -/
def FirstFlagOnly (mem : H → Word → BitVec 8) (kind : ItemKind) (p n : Word) (st : VmState H) :
    Prop :=
  kind = .bits → n.toNat ≤ 31 ∧ ∀ k, 0 < k → k < n.toNat → kind.item (mem st.host) p k = 0

section

variable {l : LoopPlace} {base : Nat}

/-- With its variables apart from its slots, a container loop delivers its items iff a view of flags
has at most 31, of which only the first is set. -/
theorem deliversItems_iff_of_vars
    (hlies : l.Lies code (piecesCode (containerSetup li) l.base) [.gteNoPop]
      (piecesCode (containerStep li lvar none) base) 5)
    (hpc : st.pc = l.base) (hn : st.peek 0 = n) (hp : st.peek 1 &&& ~~~ 7 = p)
    (htag : st.peek 1 &&& 7 = kind.tag)
    (hvars : ContainerVars (viewHost host mem kind p n.toNat) (st.sp + 2) st.fp li lvar)
    (hroom : 3 ≤ st.sp) (hvalues : st.sp + 2 ≤ stackSize)
    (hpass : ∀ t ts, Entered (step (viewHost host mem kind p n.toNat) code) l.Own l.Body st
      (t :: ts) → l.Passes (viewHost host mem kind p n.toNat) code (st.sp + 2)
        (SameItems mem kind p n.toNat st.host) t) :
    DeliversItems host code l lvar mem kind p n st ↔ FirstFlagOnly mem kind p n st := by
  by_cases h31 : kind = .bits → n.toNat ≤ 31
  · obtain ⟨ts, st', hrounds, hlen, hall, hend⟩ := container_rounds hlies hpc hn hp htag hvars hroom
      hvalues h31 hpass
    have hlt : ∀ k t, ts[k]? = some t → k < n.toNat := by
      intro k t ht
      rw [← hlen]
      exact (List.getElem?_eq_some_iff.mp ht).1
    constructor
    · rintro ⟨ts', st'', hrounds', -, hitems, -⟩ hbits
      obtain ⟨rfl, -⟩ := hrounds'.unique hrounds
      refine ⟨h31 hbits, fun k h0 hk => ?_⟩
      have ht : ts'[k]? = some ts'[k] := List.getElem?_eq_getElem _
      have heq := (hall k _ ht).symm.trans (hitems k _ ht)
      have hk31 : kind = .bits → k < 31 := fun h => by have := h31 h; omega
      exact ((loaded_eq_iff kind hk31).mp heq hbits).resolve_left (by omega)
    · intro hcond
      refine ⟨ts, st', hrounds, hlen, fun k t ht => ?_, hend⟩
      have hk := hlt k t ht
      have hk31 : kind = .bits → k < 31 := fun h => by have := (hcond h).1; omega
      rw [hall k t ht, loaded_eq_iff kind hk31]
      intro hbits
      by_cases h0 : k = 0
      · exact .inl h0
      · exact .inr ((hcond hbits).2 k (by omega) (hlt k t ht))
  · rw [Classical.not_imp] at h31
    obtain ⟨rfl, h31⟩ := h31
    obtain ⟨ts, hhalt⟩ := container_undefined hlies hpc hn hp htag hvars hroom hvalues (by omega)
      hpass
    constructor
    · rintro ⟨ts', st'', hrounds', -⟩
      cases (hrounds'.unique hhalt).2
    · intro hcond
      exact absurd (hcond rfl).1 h31

/-- A loop over nothing ends at once, wherever its length and index lie. -/
theorem delivers_nothing
    (hlies : l.Lies code (piecesCode (containerSetup li) l.base) [.gteNoPop]
      (piecesCode (containerStep li lvar none) base) 5)
    (hpc : st.pc = l.base) (hn : st.peek 0 = 0)
    (hlast : ∀ sym ∈ li.lastSyms, Placed host (st.sp + 2) st.fp sym ∨
      ∃ off, sym = .stack off ∧ st.fp - off + 1 = st.sp + 2 ∧ Refers host st.fp sym)
    (hroom : 3 ≤ st.sp) (hvalues : st.sp + 2 ≤ stackSize)
    (hpass : ∀ t ts, Entered (step (viewHost host mem kind p 0) code) l.Own l.Body st
      (t :: ts) → l.Passes (viewHost host mem kind p 0) code (st.sp + 2) (fun _ => True) t) :
    DeliversItems host code l lvar mem kind p 0 st := by
  obtain ⟨s, hs, hops, -⟩ := @shows_view _ st
  rw [hn] at hops
  obtain ⟨s₁, size, ptr, hinit, hfirst⟩ :
      ∃ s' size ptr, s.run (viewHost host mem kind p 0) (st.sp + 2) st.fp
        (piecesCode (containerSetup li) l.base) = some (.ok s') ∧
        s'.operands = [0, 0, size, ptr] := run_containerSetup_over l.base hlast hops (by omega)
  have hdone : ∀ s : ListState H, s.operands = [0, 0, size, ptr] → True →
      ∃ s' w ws, s.run (viewHost host mem kind p 0) (st.sp + 2) st.fp [.gteNoPop] =
        some (.ok s') ∧ s'.operands = w :: ws ∧ w ≠ 0 ∧ ws.length + 1 = 5 := by
    intro s hops _
    have hroom' : 4 < st.sp + 2 := by omega
    refine ⟨{ s with operands := [1, 0, 0, size, ptr] }, 1, _, ?_, rfl, by decide, rfl⟩
    simp [ListState.run, ListState.exec, ListState.unary, ListState.binary, ListState.push, hops,
      hroom', ofBool, BitVec.ule]
  have hturns : LoopPlace.Turns (viewHost host mem kind p 0) [.gteNoPop]
      (piecesCode (containerStep li lvar none) base) (st.sp + 2) st.fp 0
      (fun _ => [0, 0, size, ptr]) (fun _ => True) (fun _ _ => True) :=
    fun k _ hk => absurd hk (Nat.not_lt_zero k)
  obtain ⟨ts, st', hrounds, hlen, -, hend⟩ := hlies.rounds hvalues hs hpc hinit hfirst trivial
    hturns hdone hpass
  refine ⟨ts, st', hrounds, hlen, fun k t ht => ?_, hend⟩
  rw [List.length_eq_zero_iff.mp hlen] at ht
  cases ht

end

/-- **The loop delivers the items** if none of its variables lies in the slots of its operands, or
there are no items, and of flags none but the first is set. Where none lies there it needs the
latter. -/
theorem deliversItems_iff {u : CodeUnit} {site : LoopSite}
    (hsite : site ∈ u.sites) (hloop : site.loop = .forIn li lvar none container body)
    (hplaces : site.Places u.inFunction li lvar)
    (hready : Ready ctx env scope loops (Stmt.forIn li lvar none container body).bound)
    (hscoped : (Stmt.forIn li lvar none container body).Scoped scope loops)
    (hcode : BlockAt code ctx.counter
      ((genStmt (.forIn li lvar none container body) ctx).instructions.drop ctx.counter))
    (hpc : st.pc = (containerPlace ctx.counter li lvar container body).base)
    (hn : st.peek 0 = n) (hp : st.peek 1 &&& ~~~ 7 = p) (htag : st.peek 1 &&& 7 = kind.tag)
    (hbelow : site.Below u st) (hrefs : ∀ sym ∈ li.syms lvar, Refers host st.fp sym)
    (hroom : 3 ≤ st.sp) (hvalues : st.sp + 2 ≤ stackSize)
    (hpass : ∀ t ts, Entered (step (viewHost host mem kind p n.toNat) code)
      (containerPlace ctx.counter li lvar container body).Own
      (containerPlace ctx.counter li lvar container body).Body st (t :: ts) →
      (containerPlace ctx.counter li lvar container body).Passes
        (viewHost host mem kind p n.toNat) code (st.sp + 2)
        (SameItems mem kind p n.toNat st.host) t) :
    ((Overlaps (li.syms lvar) st → n = 0) ∧ FirstFlagOnly mem kind p n st →
      DeliversItems host code (containerPlace ctx.counter li lvar container body) lvar mem kind p
        n st) ∧
    (DeliversItems host code (containerPlace ctx.counter li lvar container body) lvar mem kind p
        n st → ¬ Overlaps (li.syms lvar) st → FirstFlagOnly mem kind p n st) := by
  have hlies := container_lies hready hscoped hcode
  generalize containerPlace ctx.counter li lvar container body = l at hlies hpc hpass ⊢
  have hvars : ¬ Overlaps (li.syms lvar) st →
      ContainerVars (viewHost host mem kind p n.toNat) (st.sp + 2) st.fp li lvar :=
    container_vars hsite hloop hplaces hrefs
  refine ⟨?_, fun hdelivers hout =>
    (deliversItems_iff_of_vars hlies hpc hn hp htag (hvars hout) hroom hvalues hpass).mp hdelivers⟩
  rintro ⟨hover, hfirst⟩
  by_cases hout : Overlaps (li.syms lvar) st
  · obtain rfl := hover hout
    have hlast := container_last_over hsite hloop hplaces hbelow hrefs
    refine delivers_nothing hlies hpc hn hlast hroom hvalues fun t ts hent => ?_
    obtain ⟨v, hrun, hvpc, hvsp, hvfp, hvstack, -⟩ := hpass t ts hent
    exact ⟨v, hrun, hvpc, hvsp, hvfp, hvstack, id⟩
  · exact (deliversItems_iff_of_vars hlies hpc hn hp htag (hvars hout) hroom hvalues hpass).mpr
      hfirst

end

/-! ## An empty loop -/

/-- `for x in c { }`. -/
def emptyContainer : Stmt :=
  .forIn { branchInfo := 0 } (.stack 2) none (Node.simpleLit 0).exprCode .skip

/-- The loop in a function with one local. -/
def emptyContainerUnit : CodeUnit :=
  .function CodeUnit.smallFunction (fun _ => { functionScope := true }) 0 emptyContainer

def emptyContainerSite : LoopSite := ⟨emptyContainer, [], [⟨.lvar1, true, 2⟩], 0⟩

def emptyContainerPlace : LoopPlace :=
  containerPlace 0 { branchInfo := 0 } (.stack 2) (Node.simpleLit 0).exprCode .skip

/-- The state behind the view at address `0`, with the low bits `tag` and a length of 2. -/
def emptyContainerState (tag : Word) : VmState Unit :=
  { sampleState with pc := 2, stack := fun slot => if slot = 10 then 2 else tag }

/-- The sample loop may be compiled in the empty context. -/
theorem emptyContainer_ready :
    Ready {} ⟨fun _ => 0, fun _ => 0, fun _ => 0⟩ [] [] emptyContainer.bound :=
  ready_alone (List.nodup_singleton 0)

/-- The sample loop is a loop of the sample unit. -/
theorem emptyContainer_site : emptyContainerSite ∈ emptyContainerUnit.sites :=
  List.mem_cons_self

/-- The sample loop's variable lies where the frame layout puts it. -/
theorem emptyContainer_places :
    emptyContainerSite.Places true { branchInfo := 0 } (.stack 2) :=
  ⟨rfl, rfl, rfl, rfl, rfl⟩

/-- The frame of the sample state lies below its operands. -/
theorem emptyContainer_below (tag : Word) :
    emptyContainerSite.Below emptyContainerUnit (emptyContainerState tag) := by
  show 10 + 2 + 0 + 2 ≤ 20
  decide

theorem deliversItems_emptyContainer :
    DeliversItems oneVariable (genStmt emptyContainer {}).instructions emptyContainerPlace
      (.stack 2) (fun _ a => a.setWidth 8) (.bytes 0) 0 2 (emptyContainerState 0) := by
  have hp : (emptyContainerState 0).peek 1 &&& ~~~ 7 = 0 := by decide
  have htag : (emptyContainerState 0).peek 1 &&& 7 = (ItemKind.bytes 0).tag := by decide
  refine (deliversItems_iff emptyContainer_site rfl emptyContainer_places emptyContainer_ready
    trivial (blockAt_alone emptyContainer) rfl rfl hp htag (emptyContainer_below 0)
    (fun _ => oneVariable_refers) (by decide) (by decide) fun _ _ h =>
      LoopPlace.passes_empty rfl h.inside).1 ⟨fun h => absurd h (oneVariable_apart _), ?_⟩
  intro hbits
  cases hbits

/-- Two flags, both of them set: the second one comes as 2. -/
theorem not_deliversItems_emptyContainer :
    ¬ DeliversItems oneVariable (genStmt emptyContainer {}).instructions emptyContainerPlace
      (.stack 2) (fun _ _ => 3) .bits 0 2 (emptyContainerState 7) := by
  have hlies := container_lies emptyContainer_ready trivial
    (blockAt_alone emptyContainer)
  have hp : (emptyContainerState 7).peek 1 &&& ~~~ 7 = 0 := by decide
  have htag : (emptyContainerState 7).peek 1 &&& 7 = ItemKind.bits.tag := by decide
  have hvars : ContainerVars (viewHost oneVariable (fun _ _ => 3) .bits 0 (2 : Word).toNat)
      ((emptyContainerState 7).sp + 2) (emptyContainerState 7).fp { branchInfo := 0 } (.stack 2) :=
    container_vars emptyContainer_site rfl emptyContainer_places
      (fun _ => oneVariable_refers) (oneVariable_apart _)
  intro hdelivers
  have hfirst := (deliversItems_iff_of_vars hlies rfl rfl hp htag hvars (by decide) (by decide)
    fun _ _ h => LoopPlace.passes_empty rfl h.inside).mp hdelivers rfl
  exact absurd (hfirst.2 1 (by decide) (by decide)) (by decide)

end N00b.Codegen
