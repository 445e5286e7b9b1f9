import ByteLayout.Buffer

/-!
# Primitives in a buffer

`readAt` and `writeAt` pass machine data of a primitive type between the buffer
and the program, in either byte order.  The data keeps every bit: a word is
written as its digits and a pattern of floating point is a word like any other.
-/

namespace ByteLayout.Primitive

/-- The data that the next bytes are; the offset moves past them. -/
def readAt (p : Primitive) (o : ByteOrder) : BufferM p.Carrier := do
  let bytes ← Buffer.take p.width
  return p.ofWord (Bytes.decode o bytes)

/-- Writes data over the next bytes; the offset moves past them. -/
def writeAt (p : Primitive) (o : ByteOrder) (x : p.Carrier) : BufferM Unit :=
  Buffer.put (Bytes.encode o p.width (p.word x))

def read (p : Primitive) (o : ByteOrder) : BufferM p.Carrier := Buffer.atStart (p.readAt o)

def write (p : Primitive) (o : ByteOrder) (x : p.Carrier) : BufferM Unit :=
  Buffer.atStart (p.writeAt o x)

/-- **The value of machine data**: integers as integers, floating point in double precision. -/
def value : (p : Primitive) → p.Carrier → Value
  | int8, x => .int (Int8.toInt x)
  | uint8, x => .int (UInt8.toNat x)
  | int16, x => .int (Int16.toInt x)
  | uint16, x => .int (UInt16.toNat x)
  | int32, x => .int (Int32.toInt x)
  | uint32, x => .int (UInt32.toNat x)
  | int64, x => .int (Int64.toInt x)
  | uint64, x => .int (UInt64.toNat x)
  | float32, x => .ofBinary32 x
  | float64, x => .float x

end ByteLayout.Primitive
