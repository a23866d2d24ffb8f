import N00b.Memory.StaticPool

/-!
# Memory layout of a module

`n00b_layout_module_symbols` gives each symbol of a module its place: an index into the table of
constants, a byte offset into the static memory of the module, or a slot of a stack frame.

The C types show in the model where they matter. `static_size` and the offsets of `once` functions
are `int32_t`, the `static_offset` of a symbol is `uint32_t`, and
`n00b_round_up_to_given_power_of_2` works on `uint64_t`.
-/

namespace N00b.Memory

open N00b.StaticPool (Word Heap Page CompileCtx addStaticObject addValueConst)

/-- The value an `int` holds after a conversion from a wider type. -/
def toInt32 (x : Int) : Int :=
  x.bmod (2 ^ 32)

def toUint64 (x : Int) : Nat :=
  (x % 2 ^ 64).toNat

/-- `n & ~modulus` clears the bits of `n & modulus`. -/
def roundUpToGivenPowerOf2 (power n : Nat) : Nat :=
  let modulus := power - 1
  let remainder := n &&& modulus
  if remainder = 0 then n else (n - remainder + power) % 2 ^ 64

/-! ## Symbols and modules -/

inductive SymbolKind where
  | module
  | func
  | externFunc
  | enumType
  | enumVal
  | attr
  | variable
  | formal
  deriving DecidableEq, Repr

inductive ConstValue where
  | box (val : Word)
  | object (obj : Word)

/-- `n00b_symbol_t`. `linked` is `linked_symbol != NULL`, and `stringTyped` is the answer of
`n00b_types_are_compat(sym->type, n00b_type_string(), NULL)`. -/
structure Symbol where
  name : String
  kind : SymbolKind
  linked : Bool
  declaredConst : Bool
  stringTyped : Bool
  value : Option ConstValue
  staticOffset : UInt32
  localModuleId : Nat

/-- `n00b_module_param_info_t`, with the kind of the symbol it is linked to. -/
structure ModuleParam where
  kind : SymbolKind
  paramIndex : Nat

/-- `n00b_fn_decl_t`, with the symbols of its `fn_scope`. -/
structure FnDecl where
  scope : List Symbol
  once : Bool
  frameSize : Int
  scBoolOffset : Int
  scLockOffset : Int
  scMemoOffset : Int

/-- The parts of `n00b_module_t` that the layout reads and writes. -/
structure Module where
  moduleId : Nat
  parameters : List ModuleParam
  globals : List Symbol
  moduleScope : List Symbol
  fnDefs : List FnDecl
  staticSize : Int

/-- The compilation context during the layout: the table of constants, or the fault that a store to
it ran into, and the names of the `n00b_err_const_not_provided` errors. -/
structure ConstState where
  consts : Except StaticPool.Fault CompileCtx
  errors : List String

variable (page : Page) (heap : Heap) (mutexSize : Nat)

/-! ## Static memory -/

/-- Returns the rounded end of the object, and adds the same value to `static_size`. -/
def layoutStaticObj (staticSize bytes alignment : Int) : Nat × Int :=
  let l := toInt32 (staticSize + bytes)
  let result := roundUpToGivenPowerOf2 (toUint64 alignment) (toUint64 l)
  (result, toInt32 (staticSize + result))

def layoutConstObj (value : Option ConstValue) (name : String) (st : ConstState) :
    UInt32 × ConstState :=
  match value with
  | none => (0, { st with errors := st.errors ++ [name] })
  | some v =>
    let res := do
      let ctx ← st.consts
      match v with
      | .box val => addValueConst page val ctx
      | .object obj => addStaticObject page heap obj ctx
    match res with
    | .ok (index, ctx) => (UInt32.ofNat index, { st with consts := .ok ctx })
    | .error fault => (0, { st with consts := .error fault })

def layoutStaticSym (moduleId : Nat) (sym : Symbol) (staticSize : Int) (st : ConstState) :
    Symbol × Int × ConstState :=
  if sym.linked then
    (sym, staticSize, st)
  else
    let sym := { sym with localModuleId := moduleId }
    match sym.kind with
    | .enumVal =>
      if sym.stringTyped then
        let (offset, st) := layoutConstObj page heap sym.value sym.name st
        ({ sym with staticOffset := offset }, staticSize, st)
      else
        (sym, staticSize, st)
    | .variable =>
      if sym.declaredConst then
        let (offset, st) := layoutConstObj page heap sym.value sym.name st
        ({ sym with staticOffset := offset }, staticSize, st)
      else
        let (offset, staticSize) := layoutStaticObj staticSize 8 8
        ({ sym with staticOffset := UInt32.ofNat offset }, staticSize, st)
    | _ => (sym, staticSize, st)

def layoutStatic (moduleId : Nat) : List Symbol → Int → ConstState →
    List Symbol × Int × ConstState
  | [], staticSize, st => ([], staticSize, st)
  | sym :: syms, staticSize, st =>
    let (sym, staticSize, st) := layoutStaticSym page heap moduleId sym staticSize st
    let (syms, staticSize, st) := layoutStatic moduleId syms staticSize st
    (sym :: syms, staticSize, st)

/-! ## Stack frames -/

/-- The symbols with their slots, `next_formal` and `next_local`. The loop of the source runs from
the last symbol to the first. -/
def layoutStack : List Symbol → List Symbol × Int × Int
  | [] => ([], -2, 1)
  | sym :: rest =>
    let (rest, nextFormal, nextLocal) := layoutStack rest
    if sym.name = "$result" then
      (sym :: rest, nextFormal, nextLocal)
    else
      match sym.kind with
      | .variable =>
        ({ sym with staticOffset := UInt32.ofInt nextLocal } :: rest, nextFormal,
          toInt32 (nextLocal + 1))
      | .formal =>
        ({ sym with staticOffset := UInt32.ofInt nextFormal } :: rest, toInt32 (nextFormal - 1),
          nextLocal)
      | _ => (sym :: rest, nextFormal, nextLocal)

/-! ## Modules -/

def layoutFunc (decl : FnDecl) (staticSize : Int) : FnDecl × Int :=
  let (scope, _, frameSize) := layoutStack decl.scope
  let decl := { decl with scope := scope, frameSize := frameSize }
  if decl.once then
    let (boolOffset, staticSize) := layoutStaticObj staticSize 1 8
    let (lockOffset, staticSize) := layoutStaticObj staticSize mutexSize 8
    let (memoOffset, staticSize) := layoutStaticObj staticSize 8 8
    ({ decl with
        scBoolOffset := toInt32 boolOffset
        scLockOffset := toInt32 lockOffset
        scMemoOffset := toInt32 memoOffset }, staticSize)
  else
    (decl, staticSize)

def layoutFuncs : List FnDecl → Int → List FnDecl × Int
  | [], staticSize => ([], staticSize)
  | decl :: decls, staticSize =>
    let (decl, staticSize) := layoutFunc mutexSize decl staticSize
    let (decls, staticSize) := layoutFuncs decls staticSize
    (decl :: decls, staticSize)

/-- The parameters with their indices, and `pix` after the loop. -/
def layoutParams : List ModuleParam → Int → List ModuleParam × Int
  | [], pix => ([], pix)
  | param :: params, pix =>
    if param.kind = .attr then
      let (params, pix) := layoutParams params pix
      (param :: params, pix)
    else
      let (params, pix') := layoutParams params (toInt32 (pix + 1))
      ({ param with paramIndex := (pix % 2 ^ 32).toNat } :: params, pix')

def layoutModuleSymbols (fctx : Module) (st : ConstState) : Module × ConstState :=
  let (parameters, pix) := layoutParams fctx.parameters 0
  let (_, staticSize) := layoutStaticObj fctx.staticSize ((toInt32 (pix + 7)).tdiv 8) 8
  let (globals, staticSize, st) := layoutStatic page heap fctx.moduleId fctx.globals staticSize st
  let (moduleScope, staticSize, st) :=
    layoutStatic page heap fctx.moduleId fctx.moduleScope staticSize st
  let (fnDefs, staticSize) := layoutFuncs mutexSize fctx.fnDefs staticSize
  ({ fctx with
      parameters := parameters
      globals := globals
      moduleScope := moduleScope
      fnDefs := fnDefs
      staticSize := staticSize }, st)

end N00b.Memory
