import ByteLayout.Layout.Measured
import ByteLayout.Scalar.Codec
import ByteLayout.TypeTable

/-!
# Registries

A registry gives the type names their meaning on one target.  It is the table
of the target's byte order with the four word-sized names added: `long` is a
signed word, `ulong`, `machine_word` and `pointer` are unsigned words of the
architecture.

`derive` makes a registry for any architecture and order.  The built-in ones
are those of the supported targets, and `ofTarget` finds one of them.  Names
are looked up by their exact spelling.
-/

namespace ByteLayout

structure WordTypes where
  long : Scalar
  ulong : Scalar
  machineWord : Scalar
  pointer : Scalar
  deriving DecidableEq, Repr

namespace WordTypes

def of (w : WordSize) (o : ByteOrder) : WordTypes :=
  let signed : Scalar := match w with
    | .bits32 => ⟨.int32, o⟩
    | .bits64 => ⟨.int64, o⟩
  let unsigned : Scalar := match w with
    | .bits32 => ⟨.uint32, o⟩
    | .bits64 => ⟨.uint64, o⟩
  ⟨signed, unsigned, unsigned, unsigned⟩

def entries (w : WordTypes) : List (TypeName × Scalar) :=
  [(.long, w.long), (.ulong, w.ulong), (.machineWord, w.machineWord), (.pointer, w.pointer)]

end WordTypes

def TypeName.named (s : String) : Except Error TypeName :=
  match TypeName.ofString? s with
  | some n => .ok n
  | none => .error .unknownTypeName

structure Registry where
  target : Target
  addressSize : Nat
  table : TypeTable
  deriving DecidableEq, Repr

namespace Registry

/-- **The registry of an architecture in an order**, whether or not it runs in that order. -/
def derive (a : Architecture) (o : ByteOrder) : Registry :=
  let words := WordTypes.of a.wordSize o
  { target := ⟨a, o⟩
    addressSize := words.pointer.width
    table := (TypeTable.base o).derive words.entries }

/-- The registries of the supported targets, for each architecture the default order first. -/
def builtin : List Registry := Target.supported.map fun t => derive t.architecture t.order

def find? (t : Target) : Option Registry := builtin.find? fun r => decide (r.target = t)

def ofArchitecture (a : Architecture) : Registry := derive a a.defaultOrder

/-- The built-in registry of a target, refused if the architecture does not run in the order. -/
def ofTarget (t : Target) : Except Error Registry :=
  match find? t with
  | some r => .ok r
  | none => .error (.unknownIdentity (.target t))

/-! ### Looking names up -/

def get (r : Registry) (n : TypeName) : Option Scalar := r.table.get n

/-- The type of a name, refused if it has none. -/
def resolve (r : Registry) (n : TypeName) : Except Error Scalar :=
  match r.get n with
  | some s => .ok s
  | none => .error (.typeNotFound n.text r.target)

/-- **The type of the name that is spelled so**, refused if no name is or it has no type. -/
def lookup (r : Registry) (name : String) : Except Error Scalar :=
  match (TypeName.ofString? name).bind r.get with
  | some s => .ok s
  | none => .error (.typeNotFound name r.target)

def array (r : Registry) (name : String) (count : Nat) : BuildM Layout := do
  let s ← MonadExcept.ofExcept (r.lookup name)
  Layout.arrayOf (.scalar s) count

/-- Fields of named types with the types looked up. -/
def lookupFields (r : Registry) : List (String × String) → Except Error (List (String × Layout))
  | [] => .ok []
  | (field, name) :: rest => do
    let s ← r.lookup name
    let members ← r.lookupFields rest
    return (field, .scalar s) :: members

/-- **A struct of fields of named types.** Every type is looked up before any field is looked
at. -/
def struct (r : Registry) (fields : List (String × String)) : BuildM Fields := do
  let members ← MonadExcept.ofExcept (r.lookupFields fields)
  Fields.make members

/-! ### With measures -/

def measuredArray (r : Registry) (name : String) (count : Nat) : BuildM Measured := do
  let s ← MonadExcept.ofExcept (r.lookup name)
  Measured.arrayOf (.scalar (.ofPrimitive s.primitive s.order)) count

def lookupMeasured (r : Registry) :
    List (String × String) → Except Error (List (String × Measured))
  | [] => .ok []
  | (field, name) :: rest => do
    let s ← r.lookup name
    let members ← r.lookupMeasured rest
    return (field, .scalar (.ofPrimitive s.primitive s.order)) :: members

def measuredStruct (r : Registry) (fields : List (String × String)) : BuildM Measured := do
  let members ← MonadExcept.ofExcept (r.lookupMeasured fields)
  Measured.structOf members

/-! ### What is noted when the tables are made -/

/-- The notes of making the two base tables and then the built-in registries. -/
def startupEvents : List Event :=
  (ByteOrder.all.map fun o => .baseTable o (TypeTable.base o).size) ++
    Architecture.all.map fun a => .registries a a.orders (ofArchitecture a).addressSize

end Registry

end ByteLayout
