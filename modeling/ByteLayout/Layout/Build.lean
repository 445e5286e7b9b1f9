import ByteLayout.Error
import ByteLayout.Event

/-!
# Making layouts

Layouts are made by constructors that check what the type `Layout` leaves open:
no layout takes `2 ^ 64` bytes or more, and the fields of a struct have names,
no two the same.  What is refused is also noted, in `BuildM`, except for a
struct that grows too wide.

`Fields.make` looks at the fields in declaration order and stops at the first
that cannot stand.  A `Builder` collects fields one call at a time.  It goes on
after an array that cannot stand, without that field, and keeps the first such
error until `build`, which consults it before it looks at any name.
-/

namespace ByteLayout

-- Powers are those of the core library.
attribute [local instance (2000)] instPowNat

/-- The number of bytes that can be addressed. -/
def addressSpace : Nat := 2 ^ (64 : Nat)

/-- Steps that may be refused and that leave notes. -/
abbrev BuildM := EStateM Error (List Event)

def BuildM.note (e : Event) : BuildM Unit := modify (· ++ [e])

def BuildM.result (act : BuildM α) : Except Error α :=
  match act [] with
  | .ok a _ => .ok a
  | .error e _ => .error e

def BuildM.notes (act : BuildM α) : List Event :=
  match act [] with
  | .ok _ es => es
  | .error _ es => es

/-- **An array of `count` elements**, refused when it would fill the address space. -/
def Layout.arrayOf (element : Layout) (count : Nat) : BuildM Layout := do
  if element.width * count < addressSpace then return .array element count
  else
    BuildM.note (.arrayRejected count element)
    throw (.unsupportedComposition (.arrayOverflow count element))

/-- Lets a field pass that follows the names `seen`, which take `start` bytes: it needs a name of
its own, and its bytes have to be addressed. -/
def checkField (seen : List String) (start : Nat) (name : String) (width : Nat) :
    BuildM Unit := do
  if name = "" then
    BuildM.note .emptyFieldName
    throw (.unsupportedComposition .emptyFieldName)
  if name ∈ seen then
    BuildM.note (.duplicateField name)
    throw (.unsupportedComposition (.duplicateField name))
  if addressSpace ≤ start + width then
    throw (.unsupportedComposition (.structOverflow name))

namespace Fields

/-- The fields that follow the names `seen`, which take `start` bytes. -/
def makeFrom (seen : List String) (start : Nat) : List (String × Layout) → BuildM Fields
  | [] => return .nil
  | (name, type) :: rest => do
    checkField seen start name type.width
    let fields ← makeFrom (name :: seen) (start + type.width) rest
    return .cons name type fields

/-- **The fields of a struct**, refused at the first that has no name or an earlier one's, or
that would fill the address space. -/
def make (members : List (String × Layout)) : BuildM Fields := makeFrom [] 0 members

end Fields

/-! ### One field at a time -/

/-- Fields collected so far and the first error among them. -/
structure Builder where
  members : List (String × Layout)
  error? : Option Error
  deriving DecidableEq, Repr

namespace Builder

def empty : Builder := ⟨[], none⟩

def field (b : Builder) (name : String) (type : Layout) : Builder :=
  { b with members := b.members ++ [(name, type)] }

/-- Appends an array as a field; one that cannot stand is left out and its error kept, unless
there is an earlier one. -/
def array (b : Builder) (name : String) (element : Layout) (count : Nat) : BuildM Builder := do
  try
    let type ← element.arrayOf count
    return b.field name type
  catch e =>
    return { b with error? := some (b.error?.getD e) }

/-- The struct of the fields, unless an array could not stand. -/
def build (b : Builder) : BuildM Fields :=
  match b.error? with
  | some e => throw e
  | none => Fields.make b.members

inductive Step
  | field (name : String) (type : Layout)
  | array (name : String) (element : Layout) (count : Nat)
  deriving DecidableEq, Repr

def step (b : Builder) : Step → BuildM Builder
  | .field name type => return b.field name type
  | .array name element count => b.array name element count

def run (steps : List Step) : BuildM Fields := do
  let b ← steps.foldlM step empty
  b.build

end Builder

end ByteLayout
