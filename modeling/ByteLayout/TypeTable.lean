import ByteLayout.Scalar
import ByteLayout.TypeName

/-!
# Tables of types

A table gives a scalar type to some of the type names.  It is never changed:
`derive` makes a new one with some entries replaced, the last of several for
one name winning.  `base` is the table of an order that holds on every
architecture; it leaves out the names that are as wide as a machine word.
-/

namespace ByteLayout

/-- A scalar type, or none, for each type name, at the name's place. -/
structure TypeTable where
  slots : Vector (Option Scalar) TypeName.count
  deriving DecidableEq, Repr

namespace TypeTable

def empty : TypeTable := ⟨Vector.replicate TypeName.count none⟩

def get (t : TypeTable) (n : TypeName) : Option Scalar := t.slots[n.index]

def insert (t : TypeTable) (n : TypeName) (s : Scalar) : TypeTable :=
  ⟨t.slots.set n.index (some s)⟩

/-- **The table with entries replaced or added**, later ones winning over earlier ones. -/
def derive (t : TypeTable) (entries : List (TypeName × Scalar)) : TypeTable :=
  entries.foldl (fun t e => t.insert e.1 e.2) t

def ofList (entries : List (TypeName × Scalar)) : TypeTable := empty.derive entries

def contains (t : TypeTable) (n : TypeName) : Bool := (t.get n).isSome

/-- The names with a type, in declaration order. -/
def toList (t : TypeTable) : List (TypeName × Scalar) :=
  TypeName.all.filterMap fun n => (t.get n).map (n, ·)

def size (t : TypeTable) : Nat := (t.slots.toList.filter Option.isSome).length

def isEmpty (t : TypeTable) : Bool := t.size == 0

@[simp] theorem get_empty : ∀ n : TypeName, empty.get n = none := by
  intro n
  simp [empty, get]

theorem get_insert : ∀ (t : TypeTable) (m n : TypeName) (s : Scalar),
    (t.insert m s).get n = if m = n then some s else t.get n := by
  intro t m n s
  by_cases h : m = n
  · simp [insert, get, h]
  · have hi : m.index ≠ n.index := fun e => h (TypeName.index_injective m n e)
    have hv : m.index.val ≠ n.index.val := fun e => hi (Fin.ext e)
    simp [insert, get, h, Vector.getElem_set_ne, hv]

/-! ### The names that mean the same everywhere -/

/-- The primitive that a name stands for on every architecture, if it does. -/
def fixed? : TypeName → Option Primitive
  | .int8 | .char => some .int8
  | .uint8 | .uchar | .byte => some .uint8
  | .int16 | .short => some .int16
  | .uint16 | .ushort | .word => some .uint16
  | .int32 | .int => some .int32
  | .uint32 | .uint | .dword => some .uint32
  | .int64 | .longLong => some .int64
  | .uint64 | .ulongLong | .qword => some .uint64
  | .float32 | .float => some .float32
  | .float64 | .double => some .float64
  | .long | .ulong | .machineWord | .pointer => none

/-- The table of the names that mean the same on every architecture, in one order. -/
def base (o : ByteOrder) : TypeTable :=
  ofList (TypeName.all.filterMap fun n => (fixed? n).map fun p => (n, ⟨p, o⟩))

end TypeTable

end ByteLayout
