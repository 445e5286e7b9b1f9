/-!
# Byte order

A number of several bytes is written either most significant byte first or
least significant byte first.  `ByteOrder` names the two, `opposite` swaps
them, and `spellings` lists every name under which an order is known; the first
of them is the one that is printed.
-/

namespace ByteLayout

inductive ByteOrder
  | bigEndian
  | littleEndian
  deriving DecidableEq, Repr

namespace ByteOrder

def all : List ByteOrder := [bigEndian, littleEndian]

def opposite : ByteOrder → ByteOrder
  | bigEndian => littleEndian
  | littleEndian => bigEndian

@[simp] theorem opposite_opposite : ∀ o : ByteOrder, o.opposite.opposite = o := by
  intro o
  cases o <;> rfl

theorem eq_or_eq_opposite : ∀ o o' : ByteOrder, o' = o ∨ o' = o.opposite := by
  intro o o'
  cases o <;> cases o' <;> simp [opposite]

def text : ByteOrder → String
  | bigEndian => "big-endian"
  | littleEndian => "little-endian"

/-- **Every name of an order**, the printed one first.  No name belongs to both orders. -/
def spellings : ByteOrder → List String
  | bigEndian => ["big-endian", "be", "big"]
  | littleEndian => ["little-endian", "le", "little"]

theorem text_mem_spellings : ∀ o : ByteOrder, o.text ∈ o.spellings := by
  intro o
  cases o <;> simp [text, spellings]

end ByteOrder

end ByteLayout
