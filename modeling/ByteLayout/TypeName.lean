/-!
# Names of types

The names that a target can give a meaning to are a closed set: the primitive
types, four types as wide as the machine word, and further names for primitives
as programs write them.  A name is spelled in exactly one way; `ofString?`
reads that spelling and nothing else.
-/

namespace ByteLayout

inductive TypeName
  | int8
  | uint8
  | int16
  | uint16
  | int32
  | uint32
  | int64
  | uint64
  | float32
  | float64
  | long
  | ulong
  | machineWord
  | pointer
  | byte
  | char
  | uchar
  | short
  | ushort
  | int
  | uint
  | longLong
  | ulongLong
  | word
  | dword
  | qword
  | float
  | double
  deriving DecidableEq, Repr

namespace TypeName

def all : List TypeName :=
  [int8, uint8, int16, uint16, int32, uint32, int64, uint64, float32, float64, long, ulong,
    machineWord, pointer, byte, char, uchar, short, ushort, int, uint, longLong, ulongLong, word,
    dword, qword, float, double]

def count : Nat := 28

theorem length_all : all.length = count := rfl

theorem mem_all : ∀ n : TypeName, n ∈ all := by
  intro n
  cases n <;> decide

def index (n : TypeName) : Fin count := ⟨n.ctorIdx, by cases n <;> decide⟩

/-- **A name stands at its place in the list of all.** -/
theorem all_getElem?_index : ∀ n : TypeName, all[n.index.val]? = some n := by
  intro n
  cases n <;> rfl

theorem index_injective : ∀ m n : TypeName, m.index = n.index → m = n := by
  intro m n h
  have hm := all_getElem?_index m
  rw [h, all_getElem?_index n] at hm
  exact (Option.some.inj hm).symm

def text : TypeName → String
  | int8 => "int8"
  | uint8 => "uint8"
  | int16 => "int16"
  | uint16 => "uint16"
  | int32 => "int32"
  | uint32 => "uint32"
  | int64 => "int64"
  | uint64 => "uint64"
  | float32 => "float32"
  | float64 => "float64"
  | long => "long"
  | ulong => "ulong"
  | machineWord => "machine_word"
  | pointer => "pointer"
  | byte => "byte"
  | char => "char"
  | uchar => "uchar"
  | short => "short"
  | ushort => "ushort"
  | int => "int"
  | uint => "uint"
  | longLong => "long_long"
  | ulongLong => "ulong_long"
  | word => "word"
  | dword => "dword"
  | qword => "qword"
  | float => "float"
  | double => "double"

def ofString? (s : String) : Option TypeName := all.find? fun n => n.text == s

/-- **A name is read from its spelling.** -/
theorem ofString?_text : ∀ n : TypeName, ofString? n.text = some n := by
  intro n
  cases n <;> decide +kernel

/-- **Nothing but its spelling is read as a name.** -/
theorem ofString?_eq_some_iff {s : String} {n : TypeName} : ofString? s = some n ↔ n.text = s := by
  constructor
  · intro h
    have := List.find?_some h
    simpa using this
  · intro h
    rw [← h, ofString?_text]

/-- Whether the width of the type is that of the machine word. -/
def isWordSized : TypeName → Bool
  | long | ulong | machineWord | pointer => true
  | _ => false

end TypeName

end ByteLayout
