import ByteLayout.Layout.Basic
import ByteLayout.Architecture

/-!
# What is noted

Making types and tables leaves notes for whoever debugs a description: which
definition was refused and why, and which tables were made.  `Event` lists what
is worth a note, `Event.line` is the line that is written for it.
-/

namespace ByteLayout

inductive Event
  /-- An array takes more bytes than can be addressed. -/
  | arrayRejected (count : Nat) (element : Layout)
  | emptyFieldName
  | duplicateField (name : String)
  /-- The table of the names that mean the same on every architecture was made for an order. -/
  | baseTable (order : ByteOrder) (size : Nat)
  /-- The registries of an architecture were made, one for each of its orders. -/
  | registries (architecture : Architecture) (orders : List ByteOrder) (addressSize : Nat)
  deriving DecidableEq, Repr

namespace Event

def message : Event → String
  | arrayRejected count element =>
    "rejected array definition: " ++ toString count ++ " elements of " ++ element.text ++
      " overflow"
  | emptyFieldName => "rejected struct definition: empty field name"
  | duplicateField name => "rejected struct definition: duplicate field '" ++ name ++ "'"
  | baseTable order size =>
    "built " ++ order.text ++ " base table with " ++ toString size ++ " types"
  | registries architecture orders addressSize =>
    "built " ++ architecture.text ++ " registries (" ++
      String.intercalate ", " (orders.map ByteOrder.text) ++ "), ADDRESS_SIZE " ++
      toString addressSize

/-- The line for an event; all events are of the level for debugging. -/
def line (e : Event) : String := "DEBUG " ++ e.message

end Event

end ByteLayout
