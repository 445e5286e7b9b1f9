import ByteLayout.Architecture

/-!
# Targets

A target is an architecture running in a byte order.
-/

namespace ByteLayout

structure Target where
  architecture : Architecture
  order : ByteOrder
  deriving DecidableEq, Repr

namespace Target

/-- The architecture in its default order. -/
def ofArchitecture (a : Architecture) : Target := ⟨a, a.defaultOrder⟩

def isSupported (t : Target) : Bool := t.architecture.supports t.order

/-- Every supported target: for each architecture the default order first. -/
def supported : List Target := Architecture.all.flatMap fun a => a.orders.map (Target.mk a)

/-- The architecture and, in brackets, the order: `ARM (big-endian)`. -/
def text (t : Target) : String := t.architecture.text ++ " (" ++ t.order.text ++ ")"

end Target

end ByteLayout
