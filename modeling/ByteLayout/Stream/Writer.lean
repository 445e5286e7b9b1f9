import ByteLayout.Layout.Codec
import ByteLayout.Registry

/-!
# Writing by name

A writer appends values of named types to the bytes it has.  A value is packed
on its own before anything is appended, so a refused step leaves the bytes as
they were.
-/

namespace ByteLayout

-- Powers are those of the core library.
attribute [local instance (2000)] instPowNat

structure Writer where
  bytes : Bytes
  registry : Registry
  deriving DecidableEq, Repr

abbrev WriteM := EStateM Error Writer

/-- The number of bytes that can be stored in one run. -/
def storageLimit : Nat := 2 ^ (63 : Nat) - 1

namespace Writer

def new (r : Registry) : Writer := ⟨[], r⟩

def length (w : Writer) : Nat := w.bytes.length

def isEmpty (w : Writer) : Bool := w.bytes.isEmpty

def append (bytes : Bytes) : WriteM Unit :=
  modify fun w => { w with bytes := w.bytes ++ bytes }

def writeScalar (s : Scalar) (v : Value) : WriteM Unit := do
  let bytes ← MonadExcept.ofExcept (s.pack v)
  append bytes

def writeLayout (T : Layout) (v : Value) : WriteM Unit := do
  let bytes ← MonadExcept.ofExcept (T.pack v)
  append bytes

/-- Appends a value as the type of a name. -/
def writeName (n : TypeName) (v : Value) : WriteM Unit := do
  let w ← get
  let s ← MonadExcept.ofExcept (w.registry.resolve n)
  writeScalar s v

/-- Appends a value as the type that is spelled so. -/
def write (name : String) (v : Value) : WriteM Unit := do
  let w ← get
  let s ← MonadExcept.ofExcept (w.registry.lookup name)
  writeScalar s v

/-- **Appends `n` zero bytes**, refused when there would be more bytes than can be addressed, or
else more than can be stored. -/
def pad (n : Nat) : WriteM Unit := do
  let w ← get
  if addressSpace ≤ w.length + n then throw (.unsupportedComposition (.padOverflow n))
  if storageLimit < w.length + n then throw (.unsupportedComposition (.padCapacity n))
  append (List.replicate n 0)

end Writer

end ByteLayout
