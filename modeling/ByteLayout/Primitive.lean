import ByteLayout.Binary.Round

/-!
# Primitive types

There are ten primitive types: integers of one, two, four and eight bytes, with
and without a sign, and floating point numbers of four and eight.  A primitive
is known by its kind and its width, and `ofKind?` finds it from them.

`Primitive.Carrier` is the type that a machine has for the data of a primitive,
and `word` and `ofWord` are the passage between such data and words of `width`
bytes.
-/

namespace ByteLayout

-- Powers are those of the core library.
attribute [local instance (2000)] instPowNat

inductive Kind
  | signed
  | unsigned
  | float
  deriving DecidableEq, Repr

namespace Kind

def all : List Kind := [signed, unsigned, float]

def text : Kind → String
  | signed => "signed-int"
  | unsigned => "unsigned-int"
  | float => "float"

/-- The widths, in bytes, that a kind has. -/
def widths : Kind → List Nat
  | signed => [1, 2, 4, 8]
  | unsigned => [1, 2, 4, 8]
  | float => [4, 8]

def supportsWidth (k : Kind) (w : Nat) : Bool := k.widths.contains w

end Kind

inductive Primitive
  | int8
  | uint8
  | int16
  | uint16
  | int32
  | uint32
  | int64
  | uint64
  | float32
  | float64
  deriving DecidableEq, Repr

namespace Primitive

def all : List Primitive :=
  [int8, uint8, int16, uint16, int32, uint32, int64, uint64, float32, float64]

def kind : Primitive → Kind
  | int8 | int16 | int32 | int64 => .signed
  | uint8 | uint16 | uint32 | uint64 => .unsigned
  | float32 | float64 => .float

def width : Primitive → Nat
  | int8 | uint8 => 1
  | int16 | uint16 => 2
  | int32 | uint32 | float32 => 4
  | int64 | uint64 | float64 => 8

theorem width_pos : ∀ p : Primitive, 0 < p.width := by
  intro p
  cases p <;> decide

def ofKind? (k : Kind) (w : Nat) : Option Primitive :=
  all.find? fun p => decide (p.kind = k ∧ p.width = w)

/-- **Kind and width name a primitive.** -/
theorem ofKind?_kind_width : ∀ p : Primitive, ofKind? p.kind p.width = some p := by
  intro p
  cases p <;> decide

theorem eq_of_ofKind? {k : Kind} {w : Nat} {p : Primitive} (h : ofKind? k w = some p) :
    p.kind = k ∧ p.width = w := by
  have := List.find?_some h
  simpa using this

/-- **There is a primitive of every width that a kind supports, and of no other.** -/
theorem isSome_ofKind? : ∀ (k : Kind) (w : Nat), (ofKind? k w).isSome = k.supportsWidth w := by
  intro k w
  by_cases h : w = 1 ∨ w = 2 ∨ w = 4 ∨ w = 8
  · rcases h with rfl | rfl | rfl | rfl <;> cases k <;> decide
  · have h1 : w ≠ 1 := fun e => h (.inl e)
    have h2 : w ≠ 2 := fun e => h (.inr (.inl e))
    have h4 : w ≠ 4 := fun e => h (.inr (.inr (.inl e)))
    have h8 : w ≠ 8 := fun e => h (.inr (.inr (.inr e)))
    have hs : k.supportsWidth w = false := by
      cases k <;> simp [Kind.supportsWidth, Kind.widths, h1, h2, h4, h8]
    rw [hs, Option.isSome_eq_false_iff, Option.isNone_iff_eq_none, ofKind?, List.find?_eq_none]
    intro p _ hp
    have hw : p.width = w := (of_decide_eq_true hp).2
    cases p <;> simp_all [width]

def isInteger (p : Primitive) : Bool := p.kind != .float

def minValue? (p : Primitive) : Option Int :=
  match p.kind with
  | .signed => some (-2 ^ (8 * p.width - 1))
  | .unsigned => some 0
  | .float => none

def maxValue? (p : Primitive) : Option Int :=
  match p.kind with
  | .signed => some (2 ^ (8 * p.width - 1) - 1)
  | .unsigned => some (2 ^ (8 * p.width) - 1)
  | .float => none

/-- The name, such as `uint32`: the family and the width in bits. -/
def text (p : Primitive) : String :=
  let stem := match p.kind with
    | .signed => "int"
    | .unsigned => "uint"
    | .float => "float"
  stem ++ toString (8 * p.width)

/-! ### Machine data -/

/-- The machine type that holds the data of a primitive. -/
def Carrier : Primitive → Type
  | int8 => Int8
  | uint8 => UInt8
  | int16 => Int16
  | uint16 => UInt16
  | int32 => Int32
  | uint32 => UInt32
  | int64 => Int64
  | uint64 => UInt64
  | float32 => Binary32
  | float64 => Binary64

instance : (p : Primitive) → DecidableEq p.Carrier
  | int8 => inferInstanceAs (DecidableEq Int8)
  | uint8 => inferInstanceAs (DecidableEq UInt8)
  | int16 => inferInstanceAs (DecidableEq Int16)
  | uint16 => inferInstanceAs (DecidableEq UInt16)
  | int32 => inferInstanceAs (DecidableEq Int32)
  | uint32 => inferInstanceAs (DecidableEq UInt32)
  | int64 => inferInstanceAs (DecidableEq Int64)
  | uint64 => inferInstanceAs (DecidableEq UInt64)
  | float32 => inferInstanceAs (DecidableEq Binary32)
  | float64 => inferInstanceAs (DecidableEq Binary64)

/-- The word that machine data is. -/
def word : (p : Primitive) → p.Carrier → Nat
  | int8, x => Int8.toBitVec x |>.toNat
  | uint8, x => UInt8.toNat x
  | int16, x => Int16.toBitVec x |>.toNat
  | uint16, x => UInt16.toNat x
  | int32, x => Int32.toBitVec x |>.toNat
  | uint32, x => UInt32.toNat x
  | int64, x => Int64.toBitVec x |>.toNat
  | uint64, x => UInt64.toNat x
  | float32, x => Binary.toNat x
  | float64, x => Binary.toNat x

/-- The machine data that a word is; bits past the width are ignored. -/
def ofWord : (p : Primitive) → Nat → p.Carrier
  | int8, n => Int8.ofBitVec (BitVec.ofNat 8 n)
  | uint8, n => UInt8.ofNat n
  | int16, n => Int16.ofBitVec (BitVec.ofNat 16 n)
  | uint16, n => UInt16.ofNat n
  | int32, n => Int32.ofBitVec (BitVec.ofNat 32 n)
  | uint32, n => UInt32.ofNat n
  | int64, n => Int64.ofBitVec (BitVec.ofNat 64 n)
  | uint64, n => UInt64.ofNat n
  | float32, n => (Binary.ofNat n : Binary32)
  | float64, n => (Binary.ofNat n : Binary64)

theorem word_lt : ∀ (p : Primitive) (x : p.Carrier), p.word x < 256 ^ p.width := by
  intro p x
  cases p with
  | int8 => exact (Int8.toBitVec x).isLt
  | uint8 => exact (UInt8.toBitVec x).isLt
  | int16 => exact (Int16.toBitVec x).isLt
  | uint16 => exact (UInt16.toBitVec x).isLt
  | int32 => exact (Int32.toBitVec x).isLt
  | uint32 => exact (UInt32.toBitVec x).isLt
  | int64 => exact (Int64.toBitVec x).isLt
  | uint64 => exact (UInt64.toBitVec x).isLt
  | float32 => exact Binary.toNat_lt (F := .binary32) x
  | float64 => exact Binary.toNat_lt (F := .binary64) x

theorem ofNat_toNat_bits (v : BitVec w) : BitVec.ofNat w v.toNat = v := by simp

/-- **Machine data is its word.** -/
theorem ofWord_word : ∀ (p : Primitive) (x : p.Carrier), p.ofWord (p.word x) = x := by
  intro p x
  cases p with
  | int8 => exact congrArg Int8.ofBitVec (ofNat_toNat_bits (Int8.toBitVec x))
  | uint8 => exact UInt8.ofNat_toNat
  | int16 => exact congrArg Int16.ofBitVec (ofNat_toNat_bits (Int16.toBitVec x))
  | uint16 => exact UInt16.ofNat_toNat
  | int32 => exact congrArg Int32.ofBitVec (ofNat_toNat_bits (Int32.toBitVec x))
  | uint32 => exact UInt32.ofNat_toNat
  | int64 => exact congrArg Int64.ofBitVec (ofNat_toNat_bits (Int64.toBitVec x))
  | uint64 => exact UInt64.ofNat_toNat
  | float32 => exact Binary.ofNat_toNat (F := .binary32) x
  | float64 => exact Binary.ofNat_toNat (F := .binary64) x

theorem word_ofWord {p : Primitive} {n : Nat} (h : n < 256 ^ p.width) :
    p.word (p.ofWord n) = n := by
  cases p with
  | float32 => exact Binary.toNat_ofNat (F := .binary32) n h
  | float64 => exact Binary.toNat_ofNat (F := .binary64) n h
  | _ => exact Nat.mod_eq_of_lt h

end Primitive

end ByteLayout
