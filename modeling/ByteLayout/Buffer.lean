import ByteLayout.Bytes
import ByteLayout.Error
import ByteLayout.Steps

/-!
# Buffers

A buffer is a run of bytes with an offset into it, and `BufferM` is what can be
done to one: steps that may change bytes and offset and may be refused.  A
refusal keeps the buffer as it then is, so a step leaves nothing behind only if
it is written that way.

`take` and `put` are the two steps everything else is made of: the next `n`
bytes are taken out, or bytes are written over the next ones, and the offset
moves past them.  Both first ask for enough bytes to remain, counting none when
the offset lies past the end; then the offset moves by `advance`, which insists
that the window it passes lies in the buffer.  `take_apply` and `put_apply`
give the three outcomes.  The second check is beyond the first only for a
window without bytes past the end.

`filled` runs a step on zero bytes of its own.
-/

namespace ByteLayout

structure Buffer where
  data : Bytes
  offset : Nat
  deriving DecidableEq, Repr

abbrev BufferM := EStateM Error Buffer

namespace Buffer

/-- The number of bytes between the offset and the end, none if the offset is past it. -/
def remaining (b : Buffer) : Nat := b.data.length - b.offset

def next (b : Buffer) (n : Nat) : Bytes := (b.data.drop b.offset).take n

/-- The bytes with those from the offset on written over. -/
def splice (b : Buffer) (bytes : Bytes) : Bytes :=
  b.data.take b.offset ++ bytes ++ b.data.drop (b.offset + bytes.length)

def require (n : Nat) : BufferM Unit := do
  let b ← get
  if b.remaining < n then throw (.lengthMismatch n b.remaining)

/-- Moves the offset past the next `n` bytes, which have to lie in the buffer. -/
def advance (n : Nat) : BufferM Unit := do
  let b ← get
  if b.data.length < b.offset + n then throw .outOfBounds
  set { b with offset := b.offset + n }

/-- The next `n` bytes; the offset moves past them. -/
def take (n : Nat) : BufferM Bytes := do
  require n
  let b ← get
  advance n
  return b.next n

/-- Writes over the next bytes; the offset moves past them. -/
def put (bytes : Bytes) : BufferM Unit := do
  require bytes.length
  let b ← get
  advance bytes.length
  modify fun c => { c with data := b.splice bytes }

/-- A step taken from the start of the buffer; the offset stays where it was. -/
def atStart (act : BufferM α) : BufferM α := fun b =>
  match act { b with offset := 0 } with
  | .ok a c => .ok a { c with offset := b.offset }
  | .error e c => .error e { c with offset := b.offset }

/-- The bytes that a step makes of `n` zero bytes. -/
def filled (n : Nat) (act : BufferM Unit) : Except Error Bytes :=
  match act ⟨List.replicate n 0, 0⟩ with
  | .ok _ b => .ok b.data
  | .error e _ => .error e

/-- What a step gives on a run of bytes, from its start. -/
def evaluate (data : Bytes) (act : BufferM α) : Except Error α :=
  match act ⟨data, 0⟩ with
  | .ok a _ => .ok a
  | .error e _ => .error e

def exactly (width : Nat) (data : Bytes) (act : BufferM α) : Except Error α :=
  if data.length = width then evaluate data act else .error (.lengthMismatch width data.length)

/-! ### What the steps do -/

open Steps

theorem require_apply (n : Nat) (b : Buffer) :
    require n b =
      if b.remaining < n then .error (.lengthMismatch n b.remaining) b else .ok () b := by
  rw [require, bind_apply, get_apply]
  exact branch_apply _ _ _ _

theorem advance_apply (n : Nat) (b : Buffer) :
    advance n b =
      if b.data.length < b.offset + n then .error .outOfBounds b
      else .ok () { b with offset := b.offset + n } := by
  rw [advance, bind_apply, get_apply]
  by_cases h : b.data.length < b.offset + n <;> simp [h] <;> rfl

/-- **The outcomes of taking bytes.** -/
theorem take_apply (n : Nat) (b : Buffer) :
    take n b =
      if b.remaining < n then .error (.lengthMismatch n b.remaining) b
      else if b.data.length < b.offset + n then .error .outOfBounds b
      else .ok (b.next n) { b with offset := b.offset + n } := by
  rw [take, bind_apply, require_apply]
  by_cases h : b.remaining < n
  · simp only [if_pos h]
  · simp only [if_neg h, bind_apply, get_apply, advance_apply]
    by_cases g : b.data.length < b.offset + n
    · simp only [if_pos g]
    · simp only [if_neg g, pure_apply]

/-- **The outcomes of writing bytes.** -/
theorem put_apply (bytes : Bytes) (b : Buffer) :
    put bytes b =
      if b.remaining < bytes.length then .error (.lengthMismatch bytes.length b.remaining) b
      else if b.data.length < b.offset + bytes.length then .error .outOfBounds b
      else .ok () ⟨b.splice bytes, b.offset + bytes.length⟩ := by
  rw [put, bind_apply, require_apply]
  by_cases h : b.remaining < bytes.length
  · simp only [if_pos h]
  · simp only [if_neg h, bind_apply, get_apply, advance_apply]
    by_cases g : b.data.length < b.offset + bytes.length
    · simp only [if_pos g]
    · simp only [if_neg g, modify_apply]

theorem length_splice {b : Buffer} {bytes : Bytes}
    (h : b.offset + bytes.length ≤ b.data.length) : (b.splice bytes).length = b.data.length := by
  simp only [splice, List.length_append, List.length_take, List.length_drop]
  omega

end Buffer

end ByteLayout
