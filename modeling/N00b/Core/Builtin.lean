import Mathlib.Data.Nat.Basic

/-!
# The builtin data types

The enumeration `n00b_builtin_t` of `dt_objects.h` and the columns of the table
`n00b_base_type_info` (`object.nc`) that the type checker, the parser and the code generator
read: the name, the kind and whether values are stored unboxed.
-/

namespace N00b

/-- `n00b_builtin_t`, in the order of the header. -/
inductive Builtin where
  | error | void | nil | typespec | internalTlist
  | bool | i8 | byte | i32 | char | u32 | int | uint | f32 | f64
  | string | table | buffer | list | tuple | dict | set
  | ipv4 | duration | size | datetime | date | time | url | flags | callback
  | queue | ring | logring | stack | flist | sha | exception | tree | funcdef
  | ref | trueRef | internal | generic | keyword | vm | parseNode | bit
  | boxBool | boxI8 | boxByte | boxI32 | boxChar | boxU32 | boxInt | boxUint | boxF32 | boxF64
  | http | parser | grammar | terminal | ruleset | goptParser | goptCommand | goptOption
  | mutex | rwLock | condition | stream | message | bytering | textElement | boxProps | theme
  | regex | session | sessionState | sessionTrigger
  deriving DecidableEq, Repr

/-- `n00b_dt_kind_t`. -/
inductive Kind where
  | nil | primitive | internal | typeVar | list | dict | tuple | func | box | maybe | object
  | oneof
  deriving DecidableEq, Repr

namespace Builtin

/-- The column `dt_kind`. The rows of `vm` and `message` leave it at its zero, `nil`. -/
def kind : Builtin → Kind
  | error | void | vm | message => .nil
  | internalTlist | keyword | parseNode | bit => .internal
  | list | queue | ring | logring | stack | flist | tree => .list
  | dict | set => .dict
  | tuple => .tuple
  | funcdef => .func
  | trueRef | generic => .typeVar
  | boxBool | boxI8 | boxByte | boxI32 | boxChar | boxU32 | boxInt | boxUint | boxF32
  | boxF64 => .box
  | _ => .primitive

/-- The column `by_value`. -/
def byValue : Builtin → Bool
  | error | void | nil | bool | i8 | byte | i32 | char | u32 | int | uint | f32 | f64
  | internal => true
  | _ => false

/-- `n00b_type_unbox`. -/
def unbox : Builtin → Builtin
  | boxBool => bool | boxI8 => i8 | boxByte => byte | boxI32 => i32 | boxChar => char
  | boxU32 => u32 | boxInt => int | boxUint => uint | boxF32 => f32 | boxF64 => f64
  | b => b

/-- `n00b_type_is_box`. -/
def isBox (b : Builtin) : Bool := b.kind = .box

/-- `n00b_type_is_int_type`. -/
def isIntType (b : Builtin) : Bool := b.unbox ∈ [i8, byte, i32, char, u32, int, uint]

/-- `n00b_type_is_float_type`. -/
def isFloatType (b : Builtin) : Bool := b.unbox ∈ [f64, f32]

/-- `n00b_type_is_signed`. -/
def isSigned (b : Builtin) : Bool := b.unbox ∈ [i8, i32, char, int]

/-- The column `name`. -/
def name : Builtin → String
  | error => "error" | void => "void" | nil => "nil" | typespec => "typespec"
  | internalTlist => "internal_tlist" | bool => "bool" | i8 => "i8" | byte => "byte"
  | i32 => "i32" | char => "char" | u32 => "u32" | int => "int" | uint => "uint" | f32 => "f32"
  | f64 => "float" | string => "string" | table => "table" | buffer => "buffer"
  | list => "list" | tuple => "tuple" | dict => "dict" | set => "set" | ipv4 => "Address"
  | duration => "Duration" | size => "Size" | datetime => "Datetime" | date => "Date"
  | time => "Time" | url => "Url" | flags => "Flags" | callback => "callback"
  | queue => "Queue" | ring => "Ring" | logring => "Logring" | stack => "Stack"
  | flist => "Rlist" | sha => "Hash" | exception => "exception" | tree => "Tree"
  | funcdef => "function_definition" | ref => "memref" | trueRef => "ref"
  | internal => "internal" | generic => "mixed" | keyword => "keyword" | vm => "vm"
  | parseNode => "parse_node" | bit => "bit"
  | boxBool | boxI8 | boxByte | boxI32 | boxChar | boxU32 | boxInt | boxUint | boxF32
  | boxF64 => "box"
  | http => "Http" | parser => "Parser" | grammar => "Grammar" | terminal => "Terminal"
  | ruleset => "Ruleset" | goptParser => "Getopt_parser" | goptCommand => "Getopt_command"
  | goptOption => "Getopt_option" | mutex => "mutex" | rwLock => "rw_lock"
  | condition => "condition" | stream => "stream" | message => "" | bytering => "bytering"
  | textElement => "Text_element" | boxProps => "Box_props" | theme => "theme"
  | regex => "regex" | session => "session" | sessionState => "Session_state"
  | sessionTrigger => "Trigger"

/-- Every builtin, in the order of the header. -/
def all : List Builtin :=
  [error, void, nil, typespec, internalTlist, bool, i8, byte, i32, char, u32, int, uint, f32,
    f64, string, table, buffer, list, tuple, dict, set, ipv4, duration, size, datetime, date,
    time, url, flags, callback, queue, ring, logring, stack, flist, sha, exception, tree,
    funcdef, ref, trueRef, internal, generic, keyword, vm, parseNode, bit, boxBool, boxI8,
    boxByte, boxI32, boxChar, boxU32, boxInt, boxUint, boxF32, boxF64, http, parser, grammar,
    terminal, ruleset, goptParser, goptCommand, goptOption, mutex, rwLock, condition, stream,
    message, bytering, textElement, boxProps, theme, regex, session, sessionState,
    sessionTrigger]

end Builtin

end N00b
