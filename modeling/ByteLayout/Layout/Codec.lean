import ByteLayout.Scalar.Codec

/-!
# Values as layouts

A value is packed by walking its layout.  A scalar goes straight into the
buffer.  An array or a struct wants a list with one value for each member; the
members are packed one after the other into zero bytes of their own, and only
the finished bytes are put into the buffer, so a member that is refused leaves
no trace.

Unpacking asks first for the bytes of the whole layout, so a run that is too
short is reported with the width of the outermost layout; then the members are
taken one after the other.  `unpack` wants exactly the bytes of the layout,
`unpackAt` takes them from the middle of a buffer.
-/

namespace ByteLayout

/-- The members of a value, where a list is expected. -/
def Value.expectList : Value → Except Error (List Value)
  | .list vs => .ok vs
  | .number _ => .error (.typeMismatch .list)

def expectCount (n : Nat) (vs : List Value) : Except Error Unit :=
  if vs.length = n then .ok () else .error (.arityMismatch n vs.length)

namespace Buffer

def repeated : Nat → BufferM α → BufferM (List α)
  | 0, _ => return []
  | n + 1, act => do
    let a ← act
    let as ← repeated n act
    return a :: as

/-- The bytes of `count` members of `width` bytes together, which `each` packs. -/
def packMembers (width count : Nat) (each : List Value → BufferM Unit) (vs : List Value) :
    Except Error Bytes := do
  expectCount count vs
  filled width (each vs)

/-- What `each` takes from the next `width` bytes. -/
def unpackMembers (width : Nat) (each : BufferM α) : BufferM α := do
  require width
  transaction each

end Buffer

mutual

/-- **Writes a value over the next bytes**, or nothing. -/
def Layout.packInto : Layout → Value → BufferM Unit
  | .scalar s, v => s.packInto v
  | .array element count, v => do
    let vs ← MonadExcept.ofExcept v.expectList
    let bytes ← MonadExcept.ofExcept
      (Buffer.packMembers (element.width * count) count (fun vs => vs.forM element.packInto) vs)
    Buffer.put bytes
  | .struct fields, v => do
    let vs ← MonadExcept.ofExcept v.expectList
    let bytes ← MonadExcept.ofExcept
      (Buffer.packMembers fields.width fields.length fields.packEach vs)
    Buffer.put bytes

def Fields.packEach : Fields → List Value → BufferM Unit
  | .nil, _ => return
  | .cons .., [] => return
  | .cons _ type rest, v :: vs => do
    type.packInto v
    rest.packEach vs

end

mutual

/-- **The value that the next bytes are**; the offset moves past them. -/
def Layout.unpackAt : Layout → BufferM Value
  | .scalar s => s.unpackAt
  | .array element count => do
    let vs ← Buffer.unpackMembers (element.width * count)
      (Buffer.repeated count element.unpackAt)
    return .list vs
  | .struct fields => do
    let vs ← Buffer.unpackMembers fields.width fields.unpackEach
    return .list vs

def Fields.unpackEach : Fields → BufferM (List Value)
  | .nil => return []
  | .cons _ type rest => do
    let v ← type.unpackAt
    let vs ← rest.unpackEach
    return v :: vs

end

/-! ### On bytes of their own -/

def Fields.pack (fs : Fields) (vs : List Value) : Except Error Bytes :=
  Buffer.packMembers fs.width fs.length fs.packEach vs

/-- **The bytes of a value.** -/
def Layout.pack : Layout → Value → Except Error Bytes
  | .scalar s, v => s.pack v
  | .array element count, v => do
    let vs ← v.expectList
    Buffer.packMembers (element.width * count) count (fun vs => vs.forM element.packInto) vs
  | .struct fields, v => do
    let vs ← v.expectList
    fields.pack vs

/-- **The value of bytes**, which have to be exactly as many as the layout is wide. -/
def Layout.unpack (T : Layout) (data : Bytes) : Except Error Value :=
  Buffer.exactly T.width data T.unpackAt

namespace Fields

/-- Writes one value for each field over the next bytes, or nothing. -/
def packInto (fs : Fields) (vs : List Value) : BufferM Unit := do
  let bytes ← MonadExcept.ofExcept (fs.pack vs)
  Buffer.put bytes

/-- The value of each field, from the next bytes; the offset moves past them. -/
def unpackAt (fs : Fields) : BufferM (List Value) :=
  Buffer.unpackMembers fs.width fs.unpackEach

def unpack (fs : Fields) (data : Bytes) : Except Error (List Value) :=
  Buffer.exactly fs.width data fs.unpackAt

def unpackNamed (fs : Fields) (data : Bytes) : Except Error (List (String × Value)) := do
  let vs ← fs.unpack data
  return fs.names.zip vs

end Fields

end ByteLayout
