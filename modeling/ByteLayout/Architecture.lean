import ByteLayout.Order

/-!
# Processor architectures

An architecture fixes the width of a machine word, which is also the width of
an address, and the byte orders in which it runs: a default one and, except for
the x86 family, the other one as well.
-/

namespace ByteLayout

inductive Architecture
  | arm
  | arm64
  | mips
  | mips64
  | x86
  | x86_64
  | ppc
  | ppc64
  deriving DecidableEq, Repr

inductive WordSize
  | bits32
  | bits64
  deriving DecidableEq, Repr

def WordSize.bytes : WordSize → Nat
  | bits32 => 4
  | bits64 => 8

namespace Architecture

def all : List Architecture := [arm, arm64, mips, mips64, x86, x86_64, ppc, ppc64]

def index (a : Architecture) : Nat := a.ctorIdx

def sort (as : List Architecture) : List Architecture :=
  as.mergeSort fun a b => decide (a.index ≤ b.index)

def text : Architecture → String
  | arm => "ARM"
  | arm64 => "ARM64"
  | mips => "MIPS"
  | mips64 => "MIPS64"
  | x86 => "X86"
  | x86_64 => "X86_64"
  | ppc => "PPC"
  | ppc64 => "PPC64"

/-- **Every name of an architecture**, the printed one first.  Even up to case, no name belongs
to two architectures. -/
def spellings : Architecture → List String
  | arm => ["ARM", "armv7"]
  | arm64 => ["ARM64", "aarch64"]
  | mips => ["MIPS"]
  | mips64 => ["MIPS64"]
  | x86 => ["X86", "i386", "i686", "ia32"]
  | x86_64 => ["X86_64", "x86-64", "amd64", "x64"]
  | ppc => ["PPC", "powerpc"]
  | ppc64 => ["PPC64", "powerpc64"]

theorem text_mem_spellings : ∀ a : Architecture, a.text ∈ a.spellings := by
  intro a
  cases a <;> simp [text, spellings]

def wordSize : Architecture → WordSize
  | arm | mips | x86 | ppc => .bits32
  | arm64 | mips64 | x86_64 | ppc64 => .bits64

def addressSize (a : Architecture) : Nat := a.wordSize.bytes

def defaultOrder : Architecture → ByteOrder
  | arm | arm64 | ppc | ppc64 => .bigEndian
  | mips | mips64 | x86 | x86_64 => .littleEndian

/-- The other order, where the architecture can be switched to it. -/
def alternateOrder? : Architecture → Option ByteOrder
  | x86 | x86_64 => none
  | a => some a.defaultOrder.opposite

/-- The orders in which the architecture runs, the default one first. -/
def orders (a : Architecture) : List ByteOrder := a.defaultOrder :: a.alternateOrder?.toList

def supports (a : Architecture) (o : ByteOrder) : Bool := a.orders.contains o

end Architecture

end ByteLayout
