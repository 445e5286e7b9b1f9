import ByteLayout.Layout.Codec
import ByteLayout.Registry

/-!
# Reading by name

A reader walks a run of bytes with a registry at hand and takes values of named
types from it.  Its steps are those of a buffer that is only read: each one
either takes its value and moves past it, or is refused and leaves the place
where it was.  `transactional` makes one step of several.
-/

namespace ByteLayout

structure Reader where
  buffer : Buffer
  registry : Registry
  deriving DecidableEq, Repr

abbrev ReadM := EStateM Error Reader

namespace Reader

def new (data : Bytes) (r : Registry) : Reader := ⟨⟨data, 0⟩, r⟩

/-- The place of the reader, counted from the start. -/
def position (r : Reader) : Nat := r.buffer.offset

def length (r : Reader) : Nat := r.buffer.data.length

def isEmpty (r : Reader) : Bool := r.buffer.data.isEmpty

def remaining (r : Reader) : Nat := r.buffer.remaining

def hasMore (r : Reader) : Bool := decide (r.position < r.length)

/-- A step on the buffer as a step of the reader. -/
def onBuffer (act : BufferM α) : ReadM α := fun r =>
  match act r.buffer with
  | .ok a b => .ok a { r with buffer := b }
  | .error e b => .error e { r with buffer := b }

/-- Moves to a place, at most the end. -/
def seek (place : Nat) : ReadM Unit := do
  let r ← get
  if r.length < place then throw (.lengthMismatch place r.length)
  set { r with buffer := { r.buffer with offset := place } }

def skip (n : Nat) : ReadM Unit := onBuffer do
  Buffer.require n
  Buffer.advance n

/-- **Steps as one step**: if they are refused, the reader is back where it was. -/
def transactional (act : EStateM ε Reader α) : EStateM ε Reader α := fun r =>
  match act r with
  | .ok a s => .ok a s
  | .error e s => .error e { s with buffer := { s.buffer with offset := r.position } }

def readScalar (s : Scalar) : ReadM Value := onBuffer s.unpackAt

def readLayout (T : Layout) : ReadM Value := onBuffer T.unpackAt

def readFields (fs : Fields) : ReadM (List Value) := onBuffer fs.unpackAt

/-- The value of a type name. -/
def readName (n : TypeName) : ReadM Value := do
  let r ← get
  let s ← MonadExcept.ofExcept (r.registry.resolve n)
  readScalar s

/-- The value of the type that is spelled so. -/
def read (name : String) : ReadM Value := do
  let r ← get
  let s ← MonadExcept.ofExcept (r.registry.lookup name)
  readScalar s

def readEach : List String → ReadM (List Value)
  | [] => return []
  | name :: names => do
    let v ← read name
    let vs ← readEach names
    return v :: vs

/-- **One value for each name, or none at all.** -/
def readNames (names : List String) : ReadM (List Value) := transactional (readEach names)

end Reader

end ByteLayout
