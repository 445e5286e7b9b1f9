import ByteLayout.Layout.Build
import ByteLayout.Layout.Codec

/-!
# Layouts with their measures

A `Layout` has no numbers but counts: its widths and offsets are worked out
whenever they are asked for.  A `Measured` layout is one that keeps them.  Every
scalar, array and struct stores its width and every field its offset, and
`width`, `field?`, packing and unpacking read what is stored, without adding
anything up again.

The type does not say that the numbers are right.  They are put in by the
constructors, `MeasuredScalar.ofKind`, `arrayOf` and `structOf`, from the numbers
stored one level below, and these check what `Scalar.ofKind`, `Layout.arrayOf`
and `Fields.make` check, with the same errors and notes.
-/

namespace ByteLayout

/-- A scalar type as it is stored: a kind, a width and an order, which need not go together. -/
structure MeasuredScalar where
  kind : Kind
  width : Nat
  order : ByteOrder
  deriving DecidableEq, Repr

namespace MeasuredScalar

/-- The scalar type of a kind and a width, refused if the kind does not have the width. -/
def ofKind (k : Kind) (w : Nat) (o : ByteOrder) : Except Error MeasuredScalar :=
  if k.supportsWidth w then .ok ⟨k, w, o⟩
  else .error (.unsupportedComposition (.scalarWidth k w))

def ofPrimitive (p : Primitive) (o : ByteOrder) : MeasuredScalar := ⟨p.kind, p.width, o⟩

def withOrder (s : MeasuredScalar) (o : ByteOrder) : MeasuredScalar := { s with order := o }

/-- The primitive whose data is written and read.  What is not one of the smaller widths is taken
for the largest. -/
def primitive (s : MeasuredScalar) : Primitive :=
  match s.kind, s.width with
  | .signed, 1 => .int8
  | .signed, 2 => .int16
  | .signed, 4 => .int32
  | .signed, _ => .int64
  | .unsigned, 1 => .uint8
  | .unsigned, 2 => .uint16
  | .unsigned, 4 => .uint32
  | .unsigned, _ => .uint64
  | .float, 4 => .float32
  | .float, _ => .float64

def scalar (s : MeasuredScalar) : Scalar := ⟨s.primitive, s.order⟩

end MeasuredScalar

mutual

inductive Measured
  | scalar (s : MeasuredScalar)
  | array (element : Measured) (count width : Nat)
  | struct (fields : MeasuredFields) (width : Nat)

inductive MeasuredFields
  | nil
  | cons (name : String) (type : Measured) (offset : Nat) (rest : MeasuredFields)

end

deriving instance DecidableEq, Repr for Measured, MeasuredFields

/-- The number of bytes that is stored for a layout. -/
def Measured.width : Measured → Nat
  | .scalar s => s.width
  | .array _ _ width => width
  | .struct _ width => width

mutual

/-- The layout without its measures. -/
def Measured.layout : Measured → Layout
  | .scalar s => .scalar s.scalar
  | .array element count _ => .array element.layout count
  | .struct fields _ => .struct fields.layouts

def MeasuredFields.layouts : MeasuredFields → Fields
  | .nil => .nil
  | .cons name type _ rest => .cons name type.layout rest.layouts

end

structure MeasuredField where
  name : String
  type : Measured
  offset : Nat
  deriving DecidableEq, Repr

namespace MeasuredFields

def toList : MeasuredFields → List MeasuredField
  | .nil => []
  | .cons name type offset rest => ⟨name, type, offset⟩ :: rest.toList

/-- The first field of a name. -/
def field? (fs : MeasuredFields) (name : String) : Option MeasuredField :=
  fs.toList.find? (·.name == name)

/-- The offset that is stored for the first field of a name. -/
def offset? (fs : MeasuredFields) (name : String) : Option Nat :=
  (fs.field? name).map MeasuredField.offset

end MeasuredFields

/-! ### Making them -/

/-- **An array of `count` elements with its width**, refused when it would fill the address
space. -/
def Measured.arrayOf (element : Measured) (count : Nat) : BuildM Measured := do
  if element.width * count < addressSpace then
    return .array element count (element.width * count)
  else
    BuildM.note (.arrayRejected count element.layout)
    throw (.unsupportedComposition (.arrayOverflow count element.layout))

/-- The fields that follow the names `seen` and `start` bytes, each with the place where it starts,
and the place where the last one ends. -/
def MeasuredFields.makeFrom (seen : List String) (start : Nat) :
    List (String × Measured) → BuildM (MeasuredFields × Nat)
  | [] => return (.nil, start)
  | (name, type) :: rest => do
    checkField seen start name type.width
    let (fields, stop) ← makeFrom (name :: seen) (start + type.width) rest
    return (.cons name type start fields, stop)

/-- **A struct with its width and the offsets of its fields**, refused at the first field that
cannot stand. -/
def Measured.structOf (members : List (String × Measured)) : BuildM Measured := do
  let (fields, width) ← MeasuredFields.makeFrom [] 0 members
  return .struct fields width

/-- Fields with measures collected so far and the first error among them. -/
structure MeasuredBuilder where
  members : List (String × Measured)
  error? : Option Error
  deriving DecidableEq, Repr

namespace MeasuredBuilder

def empty : MeasuredBuilder := ⟨[], none⟩

def field (b : MeasuredBuilder) (name : String) (type : Measured) : MeasuredBuilder :=
  { b with members := b.members ++ [(name, type)] }

def array (b : MeasuredBuilder) (name : String) (element : Measured) (count : Nat) :
    BuildM MeasuredBuilder := do
  try
    let type ← element.arrayOf count
    return b.field name type
  catch e =>
    return { b with error? := some (b.error?.getD e) }

def build (b : MeasuredBuilder) : BuildM Measured :=
  match b.error? with
  | some e => throw e
  | none => Measured.structOf b.members

inductive Step
  | field (name : String) (type : Measured)
  | array (name : String) (element : Measured) (count : Nat)
  deriving DecidableEq, Repr

def step (b : MeasuredBuilder) : Step → BuildM MeasuredBuilder
  | .field name type => return b.field name type
  | .array name element count => b.array name element count

def run (steps : List Step) : BuildM Measured := do
  let b ← steps.foldlM step empty
  b.build

end MeasuredBuilder

/-! ### Packing and unpacking -/

mutual

/-- Writes a value over the next bytes, or nothing; the bytes of a composite are as many as it
has stored. -/
def Measured.packInto : Measured → Value → BufferM Unit
  | .scalar s, v => s.scalar.packInto v
  | .array element count width, v => do
    let vs ← MonadExcept.ofExcept v.expectList
    let bytes ← MonadExcept.ofExcept
      (Buffer.packMembers width count (fun vs => vs.forM element.packInto) vs)
    Buffer.put bytes
  | .struct fields width, v => do
    let vs ← MonadExcept.ofExcept v.expectList
    let bytes ← MonadExcept.ofExcept
      (Buffer.packMembers width fields.toList.length fields.packEach vs)
    Buffer.put bytes

def MeasuredFields.packEach : MeasuredFields → List Value → BufferM Unit
  | .nil, _ => return
  | .cons .., [] => return
  | .cons _ type _ rest, v :: vs => do
    type.packInto v
    rest.packEach vs

end

mutual

/-- The value that the next bytes are; a composite asks for as many as it has stored. -/
def Measured.unpackAt : Measured → BufferM Value
  | .scalar s => s.scalar.unpackAt
  | .array element count width => do
    let vs ← Buffer.unpackMembers width (Buffer.repeated count element.unpackAt)
    return .list vs
  | .struct fields width => do
    let vs ← Buffer.unpackMembers width fields.unpackEach
    return .list vs

def MeasuredFields.unpackEach : MeasuredFields → BufferM (List Value)
  | .nil => return []
  | .cons _ type _ rest => do
    let v ← type.unpackAt
    let vs ← rest.unpackEach
    return v :: vs

end

namespace Measured

def pack : Measured → Value → Except Error Bytes
  | .scalar s, v => Buffer.filled s.width (s.scalar.packInto v)
  | .array element count width, v => do
    let vs ← v.expectList
    Buffer.packMembers width count (fun vs => vs.forM element.packInto) vs
  | .struct fields width, v => do
    let vs ← v.expectList
    Buffer.packMembers width fields.toList.length fields.packEach vs

/-- The value of bytes, which have to be exactly as many as the layout has stored. -/
def unpack (t : Measured) (data : Bytes) : Except Error Value :=
  Buffer.exactly t.width data t.unpackAt

end Measured

end ByteLayout
