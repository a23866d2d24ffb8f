import N00b.Vm.Block

/-!
# The operand stack as a list

The machine keeps its operands in the array that also holds the frames. A piece of code without
jumps works on the operands below some slot `top`, on registers, and on variables, which lie in the
array from `top` on or outside of it. `ListState` has the operands as a list, and `ListState.exec`
makes one step on it, as long as the instruction stays with these operands and these variables.

## Main results

* `Shows.run`: the same for a block of code.
-/

namespace N00b.Vm

open N00b.Lib

/-! ## States -/

/-- A state with its operands as a list, the last one pushed first. `frame` is the array from the
slot on that the operands begin at. -/
structure ListState (H : Type) where
  operands : List Word
  frame : Nat → Word
  regs : Reg → Word
  statics : Nat → Nat → Word
  host : H

variable {H : Type}

namespace ListState

section

variable (host : Host H) (top fp : Nat)

/-- Pushes a word if there is a slot for it. -/
def push (w : Word) (s : ListState H) : Option (Next (ListState H) Fault) :=
  if s.operands.length < top then some (.ok { s with operands := w :: s.operands }) else none

/-- `*ptr = w`, for a variable or an operand. -/
def store (ptr w : Word) (s : ListState H) : Option (ListState H) :=
  match host.locOf ptr with
  | .slot addr =>
    if top ≤ addr then some { s with frame := Function.update s.frame addr w }
    else if top ≤ addr + s.operands.length then
      some { s with operands := s.operands.set (addr + s.operands.length - top) w }
    else none
  | .static m off =>
    some { s with statics := Function.update s.statics m (Function.update (s.statics m) off w) }
  | .heap p => some { s with host := host.write p w s.host }

/-- `*ptr`, for a variable. -/
def load (ptr : Word) (s : ListState H) : Option Word :=
  match host.locOf ptr with
  | .slot addr => if top ≤ addr then some (s.frame addr) else none
  | .static m off => some (s.statics m off)
  | .heap p => some (host.read p s.host)

/-- The operands of a call and the words in their place. -/
def hostCall (op : HostOp) (pops pushes : Nat) (s : ListState H) :
    Option (Next (ListState H) Fault) :=
  if pops ≤ s.operands.length ∧ s.operands.length + pushes ≤ top + pops then
    match host.call op (s.operands.take pops) s.host with
    | .error f => some (.halt f)
    | .ok (ws, h) => some (.ok { s with
        operands := (List.range pushes).map ws ++ s.operands.drop pops
        host := h })
  else none

def unary {α : Type} (s : ListState H) (k : Word → List Word → Option α) : Option α :=
  match s.operands with
  | a :: ws => k a ws
  | [] => none

/-- Takes the two operands on top; `b` is the topmost. -/
def binary {α : Type} (s : ListState H) (k : Word → Word → List Word → Option α) : Option α :=
  s.unary fun b ws => ({ s with operands := ws } : ListState H).unary fun a ws => k b a ws

def result (ws : List Word) (s : ListState H) :
    Except Fault Word → Option (Next (ListState H) Fault)
  | .ok w => some (.ok { s with operands := w :: ws })
  | .error f => some (.halt f)

/-- One instruction on the list. There is no result where it reads or writes other slots, where it
has no room, and for jumps and the instructions on attributes and types. -/
def exec (i : Instr) (s : ListState H) : Option (Next (ListState H) Fault) :=
  match i with
  | .nop => some (.ok s)
  | .moveSp arg =>
    if arg ≤ 0 ∧ (-arg).toNat ≤ s.operands.length then
      some (.ok { s with operands := s.operands.drop (-arg).toNat })
    else none
  | .pushImm w => s.push top w
  | .pushLocalObj arg => if top ≤ fp - arg then s.push top (s.frame (fp - arg)) else none
  | .pushLocalRef arg => s.push top (host.refOf (.slot (fp - arg)))
  | .pushStaticObj m arg => s.push top (s.statics m arg)
  | .pushStaticRef m arg => s.push top (host.refOf (.static m arg))
  | .dupTop => s.unary fun w _ => s.push top w
  | .pop => s.unary fun _ ws => some (.ok { s with operands := ws })
  | .deref => s.unary fun p ws =>
    (s.load host top p).map fun w => .ok { s with operands := w :: ws }
  | .arith op => s.binary fun b a ws => s.result ws (arithWord op a b)
  | .float op => s.hostCall host top (.float op) 2 1
  | .compare op => s.binary fun b a ws => s.result ws (.ok (ofBool (compareWord op a b)))
  | .subNoPop => s.binary fun b a _ =>
    match arithWord .sub a b with
    | .ok w => s.push top w
    | .error f => if s.operands.length < top then some (.halt f) else none
  | .shlI arg => s.unary fun a ws => s.result ws (arithWord .shl arg a)
  | .not => s.unary fun a ws => s.result ws (.ok (ofBool (a == 0)))
  | .abs => s.unary fun a ws =>
    let sign := a.sshiftRight 63
    s.result ws (.ok ((a ^^^ sign) + (sign &&& 1)))
  | .getSign => s.unary fun a ws => s.result ws (.ok (a.sshiftRight 63 ||| 1))
  | .swap => s.binary fun b a ws => some (.ok { s with operands := a :: b :: ws })
  | .gteNoPop => s.binary fun b a _ => s.push top (ofBool (b.ule a))
  | .cmpNoPop => s.binary fun b a _ => s.push top (ofBool (a == b))
  | .unsteal => s.unary fun a ws =>
    ({ s with operands := (a &&& ~~~ 7) :: ws } : ListState H).push top (a &&& 7)
  | .popTo r => s.unary fun w ws =>
    some (.ok { s with operands := ws, regs := Function.update s.regs r w })
  | .pushFrom r =>
    if r = .r3 ∧ top ≤ s.operands.length + 1 then none else s.push top (s.regs r)
  | .tcall fn ty =>
    if ty = some .bool ∧ fn ∈ [TypeFn.eq, .lt, .gt] then none
    else if s.operands.length + (fn.results - fn.operands) ≤ top then
      s.hostCall host top (.tcall fn ty) fn.operands fn.results
    else none
  | .loadFromView kv => s.binary fun b _ _ =>
    if s.operands.length + 2 ≤ top then
      s.hostCall host top (.view kv (s.regs .r1)) 2 (if kv && b == 8 then 4 else 3)
    else none
  | .assignToLoc => s.binary fun p w ws =>
    (({ s with operands := ws } : ListState H).store host top p w).map .ok
  | .pushConstObj _ | .jz _ | .jnz _ | .j _ | .pushObjType | .typeCmp | .loadFromAttr _
  | .assignAttr _ | .unpack _ => none

def run : List Instr → ListState H → Option (Next (ListState H) Fault)
  | [], s => some (.ok s)
  | i :: is, s =>
    match s.exec host top fp i with
    | some (.ok s') => run is s'
    | r => r

end

end ListState

/-- The operands of `s` are those of `st` below the slot `top`, and all else is the same. -/
structure Shows (top fp : Nat) (s : ListState H) (st : VmState H) : Prop where
  sp_add : st.sp + s.operands.length = top
  operand : ∀ i w, s.operands[i]? = some w → st.stack (st.sp + i) = w
  frame : ∀ a, top ≤ a → st.stack a = s.frame a
  regs : st.regs = s.regs
  statics : st.statics = s.statics
  host : st.host = s.host
  fp : st.fp = fp

/-- The state with the operands up to the slot `top` as a list. -/
def VmState.toList (top : Nat) (st : VmState H) : ListState H where
  operands := (List.range (top - st.sp)).map st.peek
  frame := st.stack
  regs := st.regs
  statics := st.statics
  host := st.host

/-- A machine shows its own stack. -/
theorem shows_toList {top : Nat} {st : VmState H} (h : st.sp ≤ top) :
    Shows top st.fp (st.toList top) st where
  sp_add := by
    simp only [VmState.toList, List.length_map, List.length_range]
    omega
  operand i w hw := by
    simp only [VmState.toList, List.getElem?_map, Option.map_eq_some_iff] at hw
    obtain ⟨j, hj, rfl⟩ := hw
    obtain ⟨-, rfl⟩ := List.getElem?_eq_some_iff.mp hj
    simp [VmState.peek]
  frame _ _ := rfl
  regs := rfl
  statics := rfl
  host := rfl
  fp := rfl

namespace Shows

variable {host : Host H} {top fp : Nat} {s s' : ListState H} {st : VmState H} {w : Word}
  {ws : List Word}

/-! ## One instruction -/

theorem peek (h : Shows top fp s st) {i : Nat} (hi : s.operands[i]? = some w) : st.peek i = w :=
  h.operand i w hi

theorem sp_pos (h : Shows top fp s st) (hroom : s.operands.length < top) : 1 ≤ st.sp := by
  have := h.sp_add
  omega

variable {n : Nat}

/-- With enough operands no check fails. -/
theorem values (h : Shows top fp s st) (htop : top ≤ stackSize)
    (hn : n ≤ s.operands.length) (k : StepResult H) : requireValues n st k = k := by
  have := h.sp_add
  rw [requireValues, if_pos (by omega)]

/-- With enough room none does either. -/
theorem slots (h : Shows top fp s st) (hn : s.operands.length + n ≤ top)
    (k : StepResult H) : requireSlots n st k = k := by
  have := h.sp_add
  rw [requireSlots, if_pos (by omega)]

theorem next (h : Shows top fp s st) : Shows top fp s st.next :=
  ⟨h.sp_add, h.operand, h.frame, h.regs, h.statics, h.host, h.fp⟩

/-- A push puts a word on the operands. -/
theorem push (h : Shows top fp s st) (hroom : s.operands.length < top) (w : Word) :
    Shows top fp { s with operands := w :: s.operands } (st.push w) where
  sp_add := by
    have := h.sp_add
    show st.sp - 1 + (s.operands.length + 1) = top
    omega
  operand i w' hw' := by
    have hpos := h.sp_pos hroom
    show Function.update st.stack (st.sp - 1) w (st.sp - 1 + i) = w'
    cases i with
    | zero =>
      obtain rfl := Option.some.inj hw'
      exact Function.update_self _ _ _
    | succ i =>
      rw [Function.update_of_ne (by omega), show st.sp - 1 + (i + 1) = st.sp + i by omega]
      exact h.operand i w' hw'
  frame a ha := by
    have := h.sp_add
    have hpos := h.sp_pos hroom
    show Function.update st.stack (st.sp - 1) w a = _
    rw [Function.update_of_ne (by omega)]
    exact h.frame a ha
  regs := h.regs
  statics := h.statics
  host := h.host
  fp := h.fp

/-- A drop takes some off. -/
theorem drop (h : Shows top fp s st) (hn : n ≤ s.operands.length) :
    Shows top fp { s with operands := s.operands.drop n } (st.drop n) where
  sp_add := by
    have := h.sp_add
    show st.sp + n + (s.operands.drop n).length = top
    rw [List.length_drop]
    omega
  operand i w hw := by
    rw [List.getElem?_drop] at hw
    show st.stack (st.sp + n + i) = w
    rw [Nat.add_assoc]
    exact h.operand _ w hw
  frame := h.frame
  regs := h.regs
  statics := h.statics
  host := h.host
  fp := h.fp

/-- The top operand is replaced. -/
theorem pokeTop (h : Shows top fp s st) {a : Word} (hops : s.operands = a :: ws) (w : Word) :
    Shows top fp { s with operands := w :: ws } (st.poke st.sp w) where
  sp_add := by
    have := h.sp_add
    rw [hops] at this
    exact this
  operand i w' hw' := by
    show Function.update st.stack st.sp w (st.sp + i) = w'
    cases i with
    | zero =>
      obtain rfl := Option.some.inj hw'
      exact Function.update_self _ _ _
    | succ i =>
      rw [Function.update_of_ne (by omega)]
      refine h.operand (i + 1) w' ?_
      rw [hops]
      exact hw'
  frame a ha := by
    have hsp := h.sp_add
    rw [hops, List.length_cons] at hsp
    show Function.update st.stack st.sp w a = _
    rw [Function.update_of_ne (by omega)]
    exact h.frame a ha
  regs := h.regs
  statics := h.statics
  host := h.host
  fp := h.fp

theorem replaceTop_zero (h : Shows top fp s st) {a : Word} (hops : s.operands = a :: ws)
    (w : Word) : Shows top fp { s with operands := w :: ws } (replaceTop 0 w st) :=
  h.pokeTop hops w

variable {a b : Word}

theorem replaceTop_one (h : Shows top fp s st) (hops : s.operands = b :: a :: ws)
    (w : Word) : Shows top fp { s with operands := w :: ws } (replaceTop 1 w st) := by
  have hdrop := h.drop (n := 1) (by rw [hops]; simp)
  rw [hops] at hdrop
  exact hdrop.pokeTop rfl w

theorem swap (h : Shows top fp s st) (hops : s.operands = b :: a :: ws) :
    Shows top fp { s with operands := a :: b :: ws } ((st.poke st.sp a).poke (st.sp + 1) b) := by
  have hsp := h.sp_add
  have hfirst := h.pokeTop hops a
  refine ⟨hfirst.sp_add, fun i w hw => ?_, fun c hc => ?_, h.regs, h.statics, h.host, h.fp⟩
  · show Function.update (st.poke st.sp a).stack (st.sp + 1) b (st.sp + i) = w
    by_cases hi : i = 1
    · subst hi
      obtain rfl := Option.some.inj hw
      exact Function.update_self _ _ _
    · rw [Function.update_of_ne (by omega)]
      refine hfirst.operand i w ?_
      rcases i with _ | _ | i
      · exact hw
      · exact absurd rfl hi
      · exact hw
  · show Function.update (st.poke st.sp a).stack (st.sp + 1) b c = _
    rw [hops, List.length_cons, List.length_cons] at hsp
    rw [Function.update_of_ne (by omega)]
    exact hfirst.frame c hc

theorem operands_eq (h : Shows top fp s st) (hn : n ≤ s.operands.length) :
    st.operands n = s.operands.take n := by
  refine List.ext_getElem (by simp [VmState.operands, hn]) fun i hi hi' => ?_
  rw [List.length_take] at hi'
  simp only [VmState.operands, List.getElem_map, List.getElem_range, List.getElem_take]
  exact h.peek (List.getElem?_eq_getElem (by omega))

/-- A load reads what the operands show. -/
theorem load_eq (h : Shows top fp s st) {ptr : Word} (hw : s.load host top ptr = some w) :
    load host ptr st = w := by
  unfold ListState.load at hw
  unfold Vm.load
  cases hloc : host.locOf ptr with
  | slot addr =>
    rw [hloc] at hw
    by_cases ha : top ≤ addr
    · cases (if_pos ha).symm.trans hw
      exact h.frame addr ha
    · cases (if_neg ha).symm.trans hw
  | static m off =>
    rw [hloc] at hw
    cases hw
    exact congrFun (congrFun h.statics m) off
  | heap p =>
    rw [hloc] at hw
    cases hw
    exact congrArg (host.read p) h.host

/-- **A store** writes to a symbol, or to an operand. -/
theorem store (h : Shows top fp s st) {ptr : Word} (hs : s.store host top ptr w = some s') :
    Shows top fp s' (store host ptr w st) := by
  have hlen := h.sp_add
  unfold ListState.store at hs
  unfold Vm.store
  cases hloc : host.locOf ptr with
  | slot addr =>
    rw [hloc] at hs
    by_cases ha : top ≤ addr
    · cases (if_pos ha).symm.trans hs
      refine ⟨h.sp_add, fun i w' hw' => ?_, fun a ha' => ?_, h.regs, h.statics, h.host, h.fp⟩
      · have hi : i < s.operands.length := (List.getElem?_eq_some_iff.mp hw').1
        show Function.update st.stack addr w (st.sp + i) = w'
        rw [Function.update_of_ne (by omega)]
        exact h.operand i w' hw'
      · show Function.update st.stack addr w a = Function.update s.frame addr w a
        by_cases haa : a = addr
        · rw [haa, Function.update_self, Function.update_self]
        · rw [Function.update_of_ne haa, Function.update_of_ne haa]
          exact h.frame a ha'
    · replace hs := (if_neg ha).symm.trans hs
      by_cases hin : top ≤ addr + s.operands.length
      · cases (if_pos hin).symm.trans hs
        refine ⟨by rw [List.length_set]; exact hlen, fun i w' hw' => ?_, fun a ha' => ?_, h.regs,
          h.statics, h.host, h.fp⟩
        · show Function.update st.stack addr w (st.sp + i) = w'
          by_cases hi : addr + s.operands.length - top = i
          · rw [hi] at hw'
            have hlt : i < s.operands.length := by
              simpa using (List.getElem?_eq_some_iff.mp hw').1
            rw [List.getElem?_set_self hlt] at hw'
            rw [show st.sp + i = addr by omega, Function.update_self]
            exact Option.some.inj hw'
          · rw [List.getElem?_set_ne hi] at hw'
            rw [Function.update_of_ne (by omega)]
            exact h.operand i w' hw'
        · show Function.update st.stack addr w a = _
          rw [Function.update_of_ne (by omega)]
          exact h.frame a ha'
      · cases (if_neg hin).symm.trans hs
  | static m off =>
    rw [hloc] at hs
    cases hs
    refine ⟨h.sp_add, h.operand, h.frame, h.regs, ?_, h.host, h.fp⟩
    rw [h.statics]
  | heap p =>
    rw [hloc] at hs
    cases hs
    refine ⟨h.sp_add, h.operand, h.frame, h.regs, h.statics, ?_, h.fp⟩
    rw [h.host]

theorem store_drop (ptr : Word) (n : Nat) :
    Vm.store host ptr w (st.drop n) = (Vm.store host ptr w st).drop n := by
  unfold Vm.store
  split <;> rfl

def Steps (top fp : Nat) (st : VmState H) (e : StepResult H) (r : Next (ListState H) Fault) :
    Prop :=
  match r with
  | .ok s' => ∃ st', e = .ok st' ∧ st'.pc = st.pc + 1 ∧ Shows top fp s' st'
  | .halt f => e = .halt f

variable {r : Next (ListState H) Fault}

/-- An instruction that pushes goes on with one operand more. -/
theorem steps_push (h : Shows top fp s st)
    (hr : s.push top w = some r) :
    Steps top fp st (requireSlots 1 st (.ok (st.push w).next)) r := by
  unfold ListState.push at hr
  split at hr
  next hroom =>
    cases hr
    exact ⟨_, h.slots hroom _, rfl, (h.push hroom w).next⟩
  next => cases hr

/-- A call of the host goes on with its results. -/
theorem steps_hostCall (h : Shows top fp s st) {op : HostOp} {pops pushes : Nat}
    (hr : s.hostCall host top op pops pushes = some r) :
    Steps top fp st (hostCall host op pops pushes st) r := by
  have hsp := h.sp_add
  unfold ListState.hostCall at hr
  split at hr
  case isFalse => cases hr
  case isTrue hroom =>
    unfold Vm.hostCall
    rw [h.operands_eq hroom.1, h.host]
    cases hcall : host.call op (s.operands.take pops) s.host with
    | error f =>
      rw [hcall] at hr
      cases hr
      rfl
    | ok r =>
      obtain ⟨words, hst⟩ := r
      rw [hcall] at hr
      cases hr
      refine ⟨_, rfl, rfl, ?_, fun i w hw => ?_, fun a ha => ?_, h.regs, h.statics, rfl, h.fp⟩
      · show st.sp + pops - pushes + _ = top
        simp only [List.length_append, List.length_map, List.length_range, List.length_drop]
        omega
      · show (if _ ≤ st.sp + pops - pushes + i ∧ st.sp + pops - pushes + i < _ then _ else _) = w
        by_cases hi : i < pushes
        · rw [if_pos (by omega), Nat.add_sub_cancel_left]
          rw [List.getElem?_append_left (by simpa using hi)] at hw
          simpa only [List.getElem?_map, List.getElem?_range hi, Option.map_some,
            Option.some.injEq] using hw
        · rw [if_neg (by omega)]
          rw [List.getElem?_append_right (by simpa using hi), List.getElem?_drop] at hw
          simp only [List.length_map, List.length_range] at hw
          rw [show st.sp + pops - pushes + i = st.sp + (pops + (i - pushes)) by omega]
          exact h.operand _ w hw
      · show (if _ ≤ a ∧ a < st.sp + pops - pushes + pushes then _ else _) = s.frame a
        rw [if_neg (by omega)]
        exact h.frame a ha

theorem steps_result_one (h : Shows top fp s st) (hops : s.operands = b :: a :: ws)
    {e : Except Fault Word} : s.result ws e = some r →
    Steps top fp st (match e with
      | .ok w => .ok (replaceTop 1 w st).next
      | .error f => .halt f) r := by
  intro hr
  cases e with
  | ok w =>
    cases hr
    exact ⟨_, rfl, rfl, (h.replaceTop_one hops w).next⟩
  | error f =>
    cases hr
    rfl

theorem steps_result_zero (h : Shows top fp s st) {a : Word} (hops : s.operands = a :: ws)
    {e : Except Fault Word} : s.result ws e = some r →
    Steps top fp st (match e with
      | .ok w => .ok (replaceTop 0 w st).next
      | .error f => .halt f) r := by
  intro hr
  cases e with
  | ok w =>
    cases hr
    exact ⟨_, rfl, rfl, (h.replaceTop_zero hops w).next⟩
  | error f =>
    cases hr
    rfl

theorem unary_eq_some {α : Type} {k : Word → List Word → Option α} {r : α}
    (hr : s.unary k = some r) : ∃ a ws, s.operands = a :: ws ∧ k a ws = some r := by
  unfold ListState.unary at hr
  split at hr
  next a ws hops => exact ⟨a, ws, hops, hr⟩
  next => cases hr

theorem binary_eq_some {α : Type} {k : Word → Word → List Word → Option α} {r : α}
    (hr : s.binary k = some r) :
    ∃ b a ws, s.operands = b :: a :: ws ∧ k b a ws = some r := by
  obtain ⟨b, ws, hops, hr⟩ := unary_eq_some hr
  obtain ⟨a, ws', rfl, hr⟩ := unary_eq_some hr
  exact ⟨b, a, ws', hops, hr⟩

/-- **Every instruction** does on the machine what it does on the operands. -/
theorem exec (h : Shows top fp s st) (htop : top ≤ stackSize) {i : Instr}
    (hr : s.exec host top fp i = some r) :
    Steps top fp st (execInstr host i st) r := by
  have hone : ∀ {a : Word} {ws : List Word}, s.operands = a :: ws →
      st.peek 0 = a ∧ ∀ k : StepResult H, requireValues 1 st k = k := by
    intro a ws hops
    exact ⟨h.peek (by rw [hops]; rfl), h.values htop (by rw [hops]; simp)⟩
  have htwo : ∀ {a b : Word} {ws : List Word}, s.operands = b :: a :: ws →
      st.peek 0 = b ∧ st.peek 1 = a ∧ ∀ k : StepResult H, requireValues 2 st k = k := by
    intro a b ws hops
    exact ⟨h.peek (by rw [hops]; rfl), h.peek (by rw [hops]; rfl),
      h.values htop (by rw [hops]; simp)⟩
  cases i with
  | nop =>
    cases hr
    exact ⟨_, rfl, rfl, h.next⟩
  | moveSp arg =>
    rw [ListState.exec] at hr
    split at hr
    case isFalse => cases hr
    case isTrue harg =>
      cases hr
      refine ⟨(st.drop (-arg).toNat).next, ?_, rfl, (h.drop harg.2).next⟩
      rw [execInstr, if_neg (by omega)]
  | pushImm w => exact h.steps_push hr
  | pushLocalObj arg =>
    rw [ListState.exec] at hr
    split at hr
    case isFalse => cases hr
    case isTrue hin =>
      rw [execInstr, h.fp, h.frame _ hin]
      exact h.steps_push hr
  | pushLocalRef arg =>
    rw [execInstr, h.fp]
    exact h.steps_push hr
  | pushStaticObj m arg =>
    rw [execInstr, h.statics]
    exact h.steps_push hr
  | pushStaticRef m arg => exact h.steps_push hr
  | dupTop =>
    obtain ⟨a, ws, hops, hr⟩ := unary_eq_some hr
    obtain ⟨ha, hv⟩ := hone hops
    rw [execInstr, hv, ha]
    exact h.steps_push hr
  | pop =>
    obtain ⟨a, ws, hops, hr⟩ := unary_eq_some hr
    obtain ⟨-, hv⟩ := hone hops
    cases hr
    have hdrop := h.drop (n := 1) (by rw [hops]; simp)
    rw [hops] at hdrop
    exact ⟨_, hv _, rfl, hdrop.next⟩
  | deref =>
    obtain ⟨p, ws, hops, hr⟩ := unary_eq_some hr
    obtain ⟨hp, hv⟩ := hone hops
    obtain ⟨w, hload, rfl⟩ := Option.map_eq_some_iff.mp hr
    rw [execInstr, hv, hp, h.load_eq hload]
    exact ⟨_, rfl, rfl, (h.replaceTop_zero hops w).next⟩
  | arith op =>
    obtain ⟨b, a, ws, hops, hr⟩ := binary_eq_some hr
    obtain ⟨hb, ha, hv⟩ := htwo hops
    rw [execInstr, hv, ha, hb]
    exact h.steps_result_one hops hr
  | float op =>
    have hlen : 2 ≤ s.operands.length := by
      by_contra hlen
      rw [ListState.exec, ListState.hostCall, if_neg (by omega)] at hr
      cases hr
    rw [execInstr, h.values htop hlen]
    exact h.steps_hostCall hr
  | compare op =>
    obtain ⟨b, a, ws, hops, hr⟩ := binary_eq_some hr
    obtain ⟨hb, ha, hv⟩ := htwo hops
    rw [execInstr, hv, ha, hb]
    exact h.steps_result_one hops hr
  | subNoPop =>
    obtain ⟨b, a, ws, hops, hr⟩ := binary_eq_some hr
    obtain ⟨hb, ha, hv⟩ := htwo hops
    rw [execInstr, hv, ha, hb]
    cases hsub : arithWord .sub a b with
    | ok w =>
      rw [hsub] at hr
      exact h.steps_push hr
    | error f =>
      rw [hsub] at hr
      by_cases hroom : s.operands.length < top
      · cases (if_pos hroom).symm.trans hr
        exact h.slots hroom _
      · cases (if_neg hroom).symm.trans hr
  | shlI _ | not | abs | getSign =>
    obtain ⟨a, ws, hops, hr⟩ := unary_eq_some hr
    obtain ⟨ha, hv⟩ := hone hops
    rw [execInstr, hv, ha]
    exact h.steps_result_zero hops hr
  | swap =>
    obtain ⟨b, a, ws, hops, hr⟩ := binary_eq_some hr
    obtain ⟨hb, ha, hv⟩ := htwo hops
    cases hr
    rw [execInstr, hv, ha, hb]
    exact ⟨_, rfl, rfl, (h.swap hops).next⟩
  | gteNoPop | cmpNoPop =>
    obtain ⟨b, a, ws, hops, hr⟩ := binary_eq_some hr
    obtain ⟨hb, ha, hv⟩ := htwo hops
    rw [execInstr, hv, ha, hb]
    exact h.steps_push hr
  | unsteal =>
    obtain ⟨a, ws, hops, hr⟩ := unary_eq_some hr
    obtain ⟨ha, hv⟩ := hone hops
    rw [execInstr, hv, ha]
    have hpoke := h.pokeTop hops (a &&& ~~~ 7)
    exact hpoke.steps_push hr
  | popTo r =>
    obtain ⟨w, ws, hops, hr⟩ := unary_eq_some hr
    obtain ⟨hw, hv⟩ := hone hops
    cases hr
    have hdrop := h.drop (n := 1) (by rw [hops]; simp)
    rw [hops] at hdrop
    rw [execInstr, hv, hw]
    refine ⟨_, rfl, rfl, hdrop.sp_add, hdrop.operand, hdrop.frame, ?_, hdrop.statics, hdrop.host,
      hdrop.fp⟩
    exact congrArg (Function.update · r w) h.regs
  | pushFrom r =>
    rw [ListState.exec] at hr
    split at hr
    case isTrue => cases hr
    case isFalse hroom =>
      rw [← h.regs] at hr
      cases r with
      | r3 =>
        have hroom' : s.operands.length + 2 ≤ top := by
          simp only [true_and] at hroom
          omega
        rw [execInstr, h.slots hroom', ← h.slots (by omega : s.operands.length + 1 ≤ top) (.ok _)]
        exact h.steps_push hr
      | r0 => exact h.steps_push hr
      | r1 => exact h.steps_push hr
      | r2 => exact h.steps_push hr
  | tcall fn ty =>
    rw [ListState.exec] at hr
    split at hr
    case isTrue => cases hr
    case isFalse hty =>
      split at hr
      case isFalse => cases hr
      case isTrue hroom =>
        have hlen : fn.operands ≤ s.operands.length := by
          by_contra hlen
          rw [ListState.hostCall, if_neg (fun h => hlen h.1)] at hr
          cases hr
        have hraw : (if ty = some .bool then rawTypeFn fn (st.peek 1) (st.peek 0) else none) =
            none := by
          split
          next hbool =>
            have hfn : fn ∉ [TypeFn.eq, .lt, .gt] := fun hfn => hty ⟨hbool, hfn⟩
            cases fn <;> simp_all [rawTypeFn]
          next => rfl
        rw [execInstr, h.values htop hlen, h.slots hroom, hraw]
        exact h.steps_hostCall hr
  | loadFromView kv =>
    obtain ⟨b, a, ws, hops, hr⟩ := binary_eq_some hr
    obtain ⟨hb, ha, hv⟩ := htwo hops
    split at hr
    case isFalse => cases hr
    case isTrue hroom =>
      rw [execInstr, hv, h.slots hroom, hb, h.regs]
      exact h.steps_hostCall hr
  | assignToLoc =>
    obtain ⟨p, w, ws, hops, hr⟩ := binary_eq_some hr
    obtain ⟨hp, hw, hv⟩ := htwo hops
    obtain ⟨s', hstore, rfl⟩ := Option.map_eq_some_iff.mp hr
    have hdrop := h.drop (n := 2) (by rw [hops]; simp)
    rw [hops] at hdrop
    rw [execInstr, hv, hp, hw, ← store_drop]
    exact ⟨_, rfl, by simp [VmState.next, VmState.drop], (hdrop.store hstore).next⟩
  | _ => cases hr

/-- What a block on the list says of the machine in the block of code `lo` to `hi`. -/
def Ends (host : Host H) (code : List Instr) (top fp lo hi : Nat) (st : VmState H)
    (r : Next (ListState H) Fault) : Prop :=
  match r with
  | .ok s' => ∃ st', Runs host code lo hi st (.ok st') ∧ st'.pc = hi ∧ Shows top fp s' st'
  | .halt f => Runs host code lo hi st (.halt f)

/-- So does straight code. -/
theorem run (h : Shows top fp s st) (htop : top ≤ stackSize) {code is : List Instr}
    (hcode : BlockAt code st.pc is)
    (hr : s.run host top fp is = some r) :
    Ends host code top fp st.pc (st.pc + is.length) st r := by
  induction is generalizing s st with
  | nil =>
    cases hr
    exact ⟨st, runs_leave rfl, rfl, h⟩
  | cons i is ih =>
    rw [ListState.run] at hr
    have hin : InBlock st.pc (st.pc + (i :: is).length) st := ⟨le_rfl, by simp⟩
    have hfetch : step host code st = execInstr host i st := by
      rw [step, hcode.head]
    cases hs : s.exec host top fp i with
    | none =>
      rw [hs] at hr
      cases hr
    | some e =>
      have hstep := h.exec htop hs
      rw [hs] at hr
      cases e with
      | halt f =>
        cases hr
        exact .halt hin (hfetch.trans hstep)
      | ok s' =>
        obtain ⟨st', hok, hpc, hshows⟩ := hstep
        have hrest := ih hshows (by rw [hpc]; exact hcode.tail) hr
        have hend : st'.pc + is.length = st.pc + (i :: is).length := by
          rw [hpc, List.length_cons]
          omega
        rw [hend] at hrest
        have hmono : ∀ u : VmState H, InBlock st'.pc (st.pc + (i :: is).length) u →
            InBlock st.pc (st.pc + (i :: is).length) u := InBlock.mono (by omega) le_rfl
        cases r with
        | halt f => exact .step hin (hfetch.trans hok) (RunIn.halt_mono hmono hrest)
        | ok s'' =>
          obtain ⟨st'', hrun, hpc', hshows'⟩ := hrest
          exact ⟨st'', .step hin (hfetch.trans hok) (hrun.seq hmono (runs_leave hpc')), hpc',
            hshows'⟩

end Shows

end N00b.Vm
