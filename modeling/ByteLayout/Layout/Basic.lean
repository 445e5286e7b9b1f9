import ByteLayout.Scalar

/-!
# Layouts

A layout says how a value lies in a run of bytes.  It is a scalar type, an
array of a fixed number of elements, or a struct of named fields; arrays and
structs nest to any depth.  Members lie back to back in declaration order, so
the width of a layout is the product or the sum of the widths in it and a field
starts where the fields before it end: `entries` carries the starts along, and
`entries_getElem?` says the `i`-th of them is the width of the `i` fields
before it.

The type itself puts no bound on widths and no condition on names.
`ByteLayout.Layout.Build` has the constructors that check both, and
`ByteLayout.Layout.Measured` the layouts that keep their widths and offsets.
-/

namespace ByteLayout

mutual

inductive Layout
  | scalar (s : Scalar)
  | array (element : Layout) (count : Nat)
  | struct (fields : Fields)

inductive Fields
  | nil
  | cons (name : String) (type : Layout) (rest : Fields)

end

deriving instance DecidableEq, Repr for Layout, Fields

mutual

/-- The number of bytes that a layout takes. -/
def Layout.width : Layout → Nat
  | .scalar s => s.width
  | .array element count => element.width * count
  | .struct fields => fields.width

def Fields.width : Fields → Nat
  | .nil => 0
  | .cons _ type rest => type.width + rest.width

end

structure Entry where
  name : String
  type : Layout
  offset : Nat
  deriving DecidableEq, Repr

namespace Fields

def length : Fields → Nat
  | .nil => 0
  | .cons _ _ rest => rest.length + 1

def ofList : List (String × Layout) → Fields
  | [] => .nil
  | (name, type) :: rest => .cons name type (ofList rest)

def toList : Fields → List (String × Layout)
  | .nil => []
  | .cons name type rest => (name, type) :: rest.toList

@[simp] theorem toList_ofList : ∀ l : List (String × Layout), (ofList l).toList = l := by
  intro l
  induction l with
  | nil => rfl
  | cons a l ih => rw [ofList, toList, ih]

@[simp] theorem ofList_toList : ∀ fs : Fields, ofList fs.toList = fs
  | .nil => rfl
  | .cons name type rest => by rw [toList, ofList, ofList_toList rest]

@[simp] theorem length_toList : ∀ fs : Fields, fs.toList.length = fs.length
  | .nil => rfl
  | .cons name type rest => by rw [toList, List.length_cons, length_toList rest, length]

def names (fs : Fields) : List String := fs.toList.map Prod.fst

/-- The fields with the places where they start, the first one starting at `start`. -/
def entriesFrom (start : Nat) : Fields → List Entry
  | .nil => []
  | .cons name type rest => ⟨name, type, start⟩ :: rest.entriesFrom (start + type.width)

/-- **The fields with the places where they start**: each starts where the one before it
ends. -/
def entries (fs : Fields) : List Entry := fs.entriesFrom 0

/-- The first field of a name. -/
def field? (fs : Fields) (name : String) : Option Entry := fs.entries.find? (·.name == name)

def offset? (fs : Fields) (name : String) : Option Nat := (fs.field? name).map Entry.offset

/-- The number of bytes that the first `i` fields take. -/
def widthBefore : Fields → Nat → Nat
  | .nil, _ => 0
  | .cons .., 0 => 0
  | .cons _ type rest, i + 1 => type.width + rest.widthBefore i

theorem entriesFrom_getElem? : ∀ (fs : Fields) (start i : Nat),
    (fs.entriesFrom start)[i]? =
      fs.toList[i]?.map fun f => ⟨f.1, f.2, start + fs.widthBefore i⟩
  | .nil, start, i => by simp [entriesFrom, toList]
  | .cons name type rest, start, 0 => by simp [entriesFrom, toList, widthBefore]
  | .cons name type rest, start, i + 1 => by
    simp only [entriesFrom, toList, widthBefore, List.getElem?_cons_succ, entriesFrom_getElem? rest]
    cases rest.toList[i]? <;> simp [Nat.add_assoc]

/-- **The field at place `i` starts after the `i` fields before it.** -/
theorem entries_getElem? (fs : Fields) (i : Nat) :
    fs.entries[i]? = fs.toList[i]?.map fun f => ⟨f.1, f.2, fs.widthBefore i⟩ := by
  simp [entries, entriesFrom_getElem?]

theorem length_entriesFrom : ∀ (fs : Fields) (start : Nat),
    (fs.entriesFrom start).length = fs.length
  | .nil, _ => rfl
  | .cons _ type rest, start => by
    rw [entriesFrom, List.length_cons, length_entriesFrom rest, length]

end Fields

def Layout.scalar? : Layout → Option Scalar
  | .scalar s => some s
  | .array .. => none
  | .struct _ => none

def Layout.fields? : Layout → Option Fields
  | .scalar _ => none
  | .array .. => none
  | .struct fs => some fs

/-! ### Text -/

mutual

/-- The text of a layout: `uint8 (big-endian)`, `[T; 4]`, and the fields of a struct in braces.
-/
def Layout.text : Layout → String
  | .scalar s => s.text
  | .array element count => "[" ++ element.text ++ "; " ++ toString count ++ "]"
  | .struct fields => "struct \x7b" ++ String.intercalate "," fields.texts ++ " \x7d"

/-- Each field with its type, after a blank. -/
def Fields.texts : Fields → List String
  | .nil => []
  | .cons name type rest => (" " ++ name ++ ": " ++ type.text) :: rest.texts

end

end ByteLayout
