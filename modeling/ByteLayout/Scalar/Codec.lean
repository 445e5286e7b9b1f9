import ByteLayout.Buffer

/-!
# Numbers as scalars

A scalar type writes a number in two steps: `Primitive.encode` finds the word
for the number, or says why there is none, and the byte order lays out its
digits.  Reading goes back: every word of the width is the word of some number,
and `Primitive.decode` gives it.

An integer type takes the integers of its range and no floating point number.
A floating point type takes both; an integer is rounded once, and a number that
single precision would round to an infinity is refused, though an infinity is
not.  The number is looked at before the bytes are, so a number that does not
fit is the cause even where the bytes would not fit either.
-/

namespace ByteLayout

-- Powers are those of the core library.
attribute [local instance (2000)] instPowNat

/-- The number of a value, where a scalar is expected. -/
def Value.expectNumber : Value → Except Error Number
  | .number x => .ok x
  | .list _ => .error (.typeMismatch .scalar)

namespace Primitive

/-- The word of an integer in two's complement, modulo the width. -/
def wrap (p : Primitive) (n : Int) : Nat := (n % 2 ^ (8 * p.width)).toNat

/-- The integer that a word is in two's complement: with a sign, the upper half of the words is
negative. -/
def unwrap (p : Primitive) (n : Nat) : Int :=
  if p.kind = .signed ∧ 2 ^ (8 * p.width - 1) ≤ n then n - 2 ^ (8 * p.width) else n

/-- Whether the integer is in the range of an integer type. -/
def holds (p : Primitive) (n : Int) : Bool :=
  p.minValue?.any (· ≤ n) && p.maxValue?.any (n ≤ ·)

/-- **The word for an integer.** -/
def encodeInt (p : Primitive) (n : Int) : Except Error Nat :=
  match p with
  | float32 => .ok (Binary.ofInt .binary32 n).toNat
  | float64 => .ok (Binary.ofInt .binary64 n).toNat
  | p => if p.holds n then .ok (p.wrap n) else .error (.valueOutOfRange (.int n) p)

/-- **The word for a floating point number.** -/
def encodeFloat (p : Primitive) (x : Binary64) : Except Error Nat :=
  match p with
  | float32 =>
    if x.isFinite && x.narrow.isInfinite then .error (.valueOutOfRange (.float x) .float32)
    else .ok x.narrow.toNat
  | float64 => .ok x.toNat
  | p => .error (.notIntegral p)

def encode (p : Primitive) : Number → Except Error Nat
  | .int n => p.encodeInt n
  | .float x => p.encodeFloat x

/-- **The number that a word is.** -/
def decode (p : Primitive) (n : Nat) : Number :=
  match p with
  | float32 => .float (Binary.ofNat n : Binary32).widen
  | float64 => .float (Binary.ofNat n)
  | p => .int (p.unwrap n)

end Primitive

namespace Scalar

def ofKind (k : Kind) (w : Nat) (o : ByteOrder) : Except Error Scalar :=
  match Primitive.ofKind? k w with
  | some p => .ok ⟨p, o⟩
  | none => .error (.unsupportedComposition (.scalarWidth k w))

def encode (s : Scalar) (v : Value) : Except Error Bytes := do
  let x ← v.expectNumber
  let n ← s.primitive.encode x
  return Bytes.encode s.order s.width n

def decode (s : Scalar) (bytes : Bytes) : Value :=
  .number (s.primitive.decode (Bytes.decode s.order bytes))

/-- Writes a value over the next bytes. -/
def packInto (s : Scalar) (v : Value) : BufferM Unit := do
  let bytes ← MonadExcept.ofExcept (s.encode v)
  Buffer.put bytes

/-- The value that the next bytes are. -/
def unpackAt (s : Scalar) : BufferM Value := do
  let bytes ← Buffer.take s.width
  return s.decode bytes

def pack (s : Scalar) (v : Value) : Except Error Bytes := Buffer.filled s.width (s.packInto v)

def unpack (s : Scalar) (data : Bytes) : Except Error Value :=
  Buffer.exactly s.width data s.unpackAt

end Scalar

end ByteLayout
