import ByteLayout.Layout.Basic
import ByteLayout.Target
import ByteLayout.Value

/-!
# What can go wrong

An error is the cause of a refusal: the name that was not found, the widths
that did not agree, the number that did not fit.  `Error.message` words every
cause, and it is the only place that does.
-/

namespace ByteLayout

inductive Flaw
  | scalarWidth (kind : Kind) (width : Nat)
  /-- The elements take more bytes than can be addressed. -/
  | arrayOverflow (count : Nat) (element : Layout)
  | emptyFieldName
  | duplicateField (name : String)
  /-- With this field the struct takes more bytes than can be addressed. -/
  | structOverflow (name : String)
  /-- With the padding there would be more bytes than can be addressed. -/
  | padOverflow (count : Nat)
  /-- With the padding there would be more bytes than can be stored. -/
  | padCapacity (count : Nat)
  deriving DecidableEq, Repr

inductive Unknown
  | architecture (name : String)
  | byteOrder (name : String)
  /-- The architecture does not run in the order. -/
  | target (target : Target)
  deriving DecidableEq, Repr

inductive Error
  | typeNotFound (name : String) (target : Target)
  /-- There are `actual` bytes where `expected` are needed. -/
  | lengthMismatch (expected actual : Nat)
  /-- The type has no pattern for the number. -/
  | valueOutOfRange (value : Number) (type : Primitive)
  /-- A floating point number was given where an integer is needed. -/
  | notIntegral (type : Primitive)
  | typeMismatch (expected : Shape)
  | arityMismatch (expected actual : Nat)
  | unsupportedComposition (flaw : Flaw)
  | unknownIdentity (what : Unknown)
  | unknownTypeName
  /-- A window of bytes does not lie within the buffer. -/
  | outOfBounds
  deriving DecidableEq, Repr

def Flaw.message : Flaw → String
  | scalarWidth kind width => kind.text ++ " scalar of width " ++ toString width
  | arrayOverflow count element =>
    "array of " ++ toString count ++ " elements of " ++ element.text ++ " overflows"
  | emptyFieldName => "struct field without a name"
  | duplicateField name => "duplicate field '" ++ name ++ "'"
  | structOverflow name => "struct width overflows at field '" ++ name ++ "'"
  | padOverflow count => "padding of " ++ toString count ++ " bytes overflows the buffer"
  | padCapacity count => "padding of " ++ toString count ++ " bytes exceeds the buffer capacity"

def Unknown.message : Unknown → String
  | architecture name => "architecture '" ++ name ++ "'"
  | byteOrder name => "byte order '" ++ name ++ "'"
  | target t => "no " ++ t.text ++ " registry"

def Primitive.described (p : Primitive) : String :=
  p.kind.text ++ " of " ++ toString p.width ++ " bytes"

/-- **The wording of every cause.** -/
def Error.message : Error → String
  | typeNotFound name target => "unknown " ++ target.text ++ " type: " ++ name
  | lengthMismatch expected actual =>
    "expected " ++ toString expected ++ " bytes, got " ++ toString actual
  | valueOutOfRange value type =>
    "value " ++ value.text ++ " is out of range for " ++ type.described
  | notIntegral type => "non-integral value supplied to " ++ type.described
  | typeMismatch expected => "expected a " ++ expected.text ++ " value"
  | arityMismatch expected actual =>
    "expected " ++ toString expected ++ " values, got " ++ toString actual
  | unsupportedComposition flaw => "unsupported composition - " ++ flaw.message
  | unknownIdentity what => "unknown architecture or byte order - " ++ what.message
  | unknownTypeName => "Matching variant not found"
  | outOfBounds => "window outside the buffer"

end ByteLayout
