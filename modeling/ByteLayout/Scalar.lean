import ByteLayout.Order
import ByteLayout.Primitive

/-!
# Scalar types

A scalar type is a primitive type written in one byte order.
-/

namespace ByteLayout

structure Scalar where
  primitive : Primitive
  order : ByteOrder
  deriving DecidableEq, Repr

namespace Scalar

def kind (s : Scalar) : Kind := s.primitive.kind

def width (s : Scalar) : Nat := s.primitive.width

def withOrder (s : Scalar) (o : ByteOrder) : Scalar := { s with order := o }

/-- The primitive and, in brackets, the order: `uint32 (big-endian)`. -/
def text (s : Scalar) : String := s.primitive.text ++ " (" ++ s.order.text ++ ")"

end Scalar

end ByteLayout
