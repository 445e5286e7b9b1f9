import ByteLayout.Proofs.Layout.Nested
import ByteLayout.Proofs.Layout.Soundness
import ByteLayout.Proofs.Primitive.Machine
import ByteLayout.Proofs.Stream.Calls
import ByteLayout.Proofs.Stream.Programs

/-!
# Within bounds

`outOfBounds` is no refusal like the others.  It stands for a window that does
not lie in the buffer, after the bytes were counted and found enough: a mistake
of the library and not of its caller.

`Operation` are the ways to pack and unpack on a buffer, and `Overruns` tells
when one comes to such a window.  The count of bytes stops at zero, so an offset
past the end counts as one with no bytes after it.  For a composite without
width that is enough, and there is no place for its empty window.  Every other
operation `Stays` within bounds, whatever the offset, and no number in it grows
out of those it was given: not the offsets, nor the widths, nor the integers at
the ends of a range.

`outOfBounds_iff_overruns` says this of every operation, of what is packed and
unpacked within, and of readers and writers in any state they can come to.
-/

namespace ByteLayout

-- Powers are those of the core library.
attribute [local instance (2000)] instPowNat

theorem Error.ne_outOfBounds_of_isOfValue {e : Error} (h : e.isOfValue) : e ≠ .outOfBounds := by
  rintro rfl
  cases h

theorem Layout.pack_error_ne {T : Layout} {v : Value} {e : Error} (h : T.pack v = .error e) :
    e ≠ .outOfBounds := by
  rw [pack_eq_encode] at h
  exact Error.ne_outOfBounds_of_isOfValue (isOfValue_of_encode h)

/-! ### One step on a buffer -/

namespace Buffer

/-- **What comes of a step that stays within bounds**: done, it leaves as many bytes, and an offset
that is no further than it was, or than the end; refused, it leaves the buffer, and it is not for a
window outside. -/
def Stays (b : Buffer) : EStateM.Result Error Buffer α → Prop
  | .ok _ c => c.data.length = b.data.length ∧ c.offset ≤ max b.offset b.data.length
  | .error e c => c = b ∧ e ≠ .outOfBounds

/-- Nothing but the value is lost. -/
theorem stays_discard {act : BufferM α} {b : Buffer} (h : b.Stays (act b)) :
    b.Stays (discard act b) := by
  show b.Stays (EStateM.map (Function.const α PUnit.unit) act b)
  rw [EStateM.map]
  cases ha : act b with
  | ok a c =>
    rw [ha] at h
    exact h
  | error e c =>
    rw [ha] at h
    exact h

/-- A result that is there or not, whatever it is. -/
def attempt (r : Except Error α) : BufferM Unit := discard (MonadExcept.ofExcept r)

theorem stays_attempt {r : Except Error α} (h : ∀ e, r = .error e → e ≠ .outOfBounds)
    (b : Buffer) : b.Stays (attempt r b) := by
  apply stays_discard
  rw [Steps.ofExcept_apply]
  cases r with
  | ok a => exact ⟨rfl, Nat.le_max_left _ _⟩
  | error e => exact ⟨rfl, h e rfl⟩

theorem stays_takes {act : BufferM α} {width : Nat} {f : Bytes → α} (h : Takes act width f)
    (b : Buffer) : b.Stays (act b) := by
  rw [h b]
  by_cases hb : b.remaining < width
  · rw [if_pos hb]
    exact ⟨rfl, nofun⟩
  · rw [if_neg hb]
    refine ⟨rfl, ?_⟩
    rw [remaining] at hb
    show b.offset + width ≤ _
    omega

theorem Takes.exactly_error_ne {act : BufferM α} {width : Nat} {f : Bytes → α} {data : Bytes}
    {e : Error} (h : Takes act width f) (he : Buffer.exactly width data act = .error e) :
    e ≠ .outOfBounds := by
  rintro rfl
  rw [h.exactly] at he
  split at he <;> cases he

theorem stays_put {bytes : Bytes} {b : Buffer}
    (h : b.offset ≤ b.data.length ∨ 0 < bytes.length) : b.Stays (put bytes b) := by
  rw [put_apply]
  by_cases hb : b.remaining < bytes.length
  · rw [if_pos hb]
    exact ⟨rfl, nofun⟩
  · have hin := inside_of_enough hb h
    rw [if_neg hb, if_neg (Nat.not_lt.mpr hin)]
    exact ⟨length_splice hin, Nat.le_trans hin (Nat.le_max_right _ _)⟩

theorem stays_atStart {act : BufferM α} (h : ∀ b : Buffer, b.Stays (act b)) (b : Buffer) :
    b.Stays (atStart act b) := by
  have hb := h { b with offset := 0 }
  rw [atStart]
  cases ha : act { b with offset := 0 } with
  | ok a c =>
    rw [ha] at hb
    exact ⟨hb.1, Nat.le_max_left _ _⟩
  | error e c =>
    rw [ha] at hb
    obtain ⟨rfl, he⟩ := hb
    exact ⟨rfl, he⟩

/-- **No bytes are to be put, and past the end.** -/
structure Overrun (packed : Except Error Bytes) (width : Nat) (b : Buffer) : Prop where
  empty : width = 0
  accepted : ∃ bytes, packed = .ok bytes
  past : b.data.length < b.offset

section

variable {packed : Except Error Bytes} {width : Nat} {b : Buffer}
  (hw : ∀ bytes, packed = .ok bytes → bytes.length = width)
include hw

theorem putResult_of_overrun (h : Overrun packed width b) :
    putResult packed b = .error .outOfBounds b := by
  obtain ⟨rfl, ⟨bytes, rfl⟩, hb⟩ := h
  have hl := hw bytes rfl
  rw [putResult_ok, put_apply, hl, if_neg (Nat.not_lt_zero _), Nat.add_zero, if_pos hb]

theorem stays_putResult (he : ∀ e, packed = .error e → e ≠ .outOfBounds)
    (h : ¬Overrun packed width b) : b.Stays (putResult packed b) := by
  cases packed with
  | error e => exact ⟨rfl, he e rfl⟩
  | ok bytes =>
    have hl := hw bytes rfl
    refine stays_put ?_
    by_cases hb : b.data.length < b.offset
    · have hne : width ≠ 0 := fun h0 => h ⟨h0, ⟨bytes, rfl⟩, hb⟩
      omega
    · exact .inl (Nat.not_lt.mp hb)

end

theorem length_of_take {n : Nat} {b c : Buffer} {bytes : Bytes} (h : take n b = .ok bytes c) :
    bytes.length = n := by
  rw [take_apply] at h
  split at h
  · cases h
  · split at h
    · cases h
    · rename_i hb _
      rw [← (EStateM.Result.ok.inj h).1]
      exact length_next_of_enough hb

end Buffer

/-! ### Every operation -/

/-- **The ways to pack and unpack.** -/
inductive Operation
  | pack (T : Layout) (v : Value)
  | packScalar (s : Scalar) (v : Value)
  | packFields (fs : Fields) (vs : List Value)
  | packInto (T : Layout) (v : Value)
  | packScalarInto (s : Scalar) (v : Value)
  | packFieldsInto (fs : Fields) (vs : List Value)
  | unpack (T : Layout)
  | unpackScalar (s : Scalar)
  | unpackFields (fs : Fields)
  | unpackNamed (fs : Fields)
  | unpackAt (T : Layout)
  | unpackScalarAt (s : Scalar)
  | unpackFieldsAt (fs : Fields)
  | read (p : Primitive) (o : ByteOrder)
  | readAt (p : Primitive) (o : ByteOrder)
  | write (p : Primitive) (o : ByteOrder) (x : p.Carrier)
  | writeAt (p : Primitive) (o : ByteOrder) (x : p.Carrier)

namespace Operation

/-- Carries out an operation on a buffer.  Those that make bytes leave it alone, and those that ask
for exact bytes are given all that it has. -/
def run : Operation → BufferM Unit
  | pack T v => Buffer.attempt (T.pack v)
  | packScalar s v => Buffer.attempt (s.pack v)
  | packFields fs vs => Buffer.attempt (fs.pack vs)
  | packInto T v => T.packInto v
  | packScalarInto s v => s.packInto v
  | packFieldsInto fs vs => fs.packInto vs
  | unpack T => do
    let b ← get
    Buffer.attempt (T.unpack b.data)
  | unpackScalar s => do
    let b ← get
    Buffer.attempt (s.unpack b.data)
  | unpackFields fs => do
    let b ← get
    Buffer.attempt (fs.unpack b.data)
  | unpackNamed fs => do
    let b ← get
    Buffer.attempt (fs.unpackNamed b.data)
  | unpackAt T => discard T.unpackAt
  | unpackScalarAt s => discard s.unpackAt
  | unpackFieldsAt fs => discard fs.unpackAt
  | read p o => discard (p.read o)
  | readAt p o => discard (p.readAt o)
  | write p o x => p.write o x
  | writeAt p o x => p.writeAt o x

/-- **The operations that leave the bounds**: an array or a struct is packed past the end, and it
has no width. -/
def Overruns : Operation → Buffer → Prop
  | packInto T v, b => T.scalar? = none ∧ Buffer.Overrun (T.pack v) T.width b
  | packFieldsInto fs vs, b => Buffer.Overrun (fs.pack vs) fs.width b
  | _, _ => False

theorem pack_length {T : Layout} {v : Value} {bytes : Bytes} (h : T.pack v = .ok bytes) :
    bytes.length = T.width :=
  Layout.encode_length T v bytes (Layout.pack_eq_encode T v ▸ h)

theorem packInto_run (T : Layout) (v : Value) :
    (packInto T v).run = Buffer.putResult (T.pack v) := by
  rw [Layout.pack_eq_encode]
  exact Layout.packInto_eq T v

/-- The fields of a struct are packed as the struct is. -/
theorem packFieldsInto_run (fs : Fields) (vs : List Value) :
    (packFieldsInto fs vs).run = (packInto (.struct fs) (.list vs)).run := rfl

theorem overrun_run {op : Operation} {b : Buffer} (h : op.Overruns b) :
    op.run b = .error .outOfBounds b := by
  cases op with
  | packInto T v =>
    rw [packInto_run]
    exact Buffer.putResult_of_overrun (fun _ => pack_length) h.2
  | packFieldsInto fs vs =>
    rw [packFieldsInto_run, packInto_run]
    exact Buffer.putResult_of_overrun (fun _ => pack_length) h
  | _ => exact h.elim

theorem stays_writeAt (p : Primitive) (o : ByteOrder) (x : p.Carrier) (b : Buffer) :
    b.Stays (p.writeAt o x b) := by
  refine Buffer.stays_put (.inr ?_)
  rw [Bytes.length_encode]
  exact p.width_pos

theorem unpackNamed_error_ne {fs : Fields} {data : Bytes} {e : Error}
    (h : fs.unpackNamed data = .error e) : e ≠ .outOfBounds := by
  rw [Fields.unpackNamed] at h
  cases hv : fs.unpack data with
  | ok vs =>
    rw [hv] at h
    cases h
  | error e' =>
    rw [hv] at h
    obtain rfl := Except.error.inj h
    exact (Layout.takes_fields_unpackAt fs).exactly_error_ne hv

theorem stays_packInto {T : Layout} {v : Value} {b : Buffer}
    (h : ¬Buffer.Overrun (T.pack v) T.width b) : b.Stays ((packInto T v).run b) := by
  rw [packInto_run]
  exact Buffer.stays_putResult (fun _ => pack_length) (fun _ => Layout.pack_error_ne) h

theorem scalar_not_overrun (s : Scalar) (packed : Except Error Bytes) (b : Buffer) :
    ¬Buffer.Overrun packed s.width b :=
  fun h => absurd h.empty (Nat.ne_of_gt s.primitive.width_pos)

/-- **Every other operation stays within bounds.** -/
theorem stays_run {op : Operation} {b : Buffer} (h : ¬op.Overruns b) : b.Stays (op.run b) := by
  cases op with
  | pack T v => exact Buffer.stays_attempt (fun _ => Layout.pack_error_ne) b
  | packScalar s v => exact Buffer.stays_attempt (fun _ => Layout.pack_error_ne (T := .scalar s)) b
  | packFields fs vs =>
    exact Buffer.stays_attempt (fun _ => Layout.pack_error_ne (T := .struct fs) (v := .list vs)) b
  | packInto T v =>
    refine stays_packInto fun hv => ?_
    cases T with
    | scalar s => exact scalar_not_overrun s _ b hv
    | array element count => exact h ⟨rfl, hv⟩
    | struct fs => exact h ⟨rfl, hv⟩
  | packScalarInto s v => exact stays_packInto (T := .scalar s) (scalar_not_overrun s _ b)
  | packFieldsInto fs vs => exact stays_packInto (T := .struct fs) (v := .list vs) h
  | unpack T => exact Buffer.stays_attempt (fun _ => T.takes_unpackAt.exactly_error_ne) b
  | unpackScalar s =>
    exact Buffer.stays_attempt (fun _ => (Layout.takes_unpackAt (.scalar s)).exactly_error_ne) b
  | unpackFields fs =>
    exact Buffer.stays_attempt (fun _ => (Layout.takes_fields_unpackAt fs).exactly_error_ne) b
  | unpackNamed fs => exact Buffer.stays_attempt (fun _ => unpackNamed_error_ne) b
  | unpackAt T => exact Buffer.stays_discard (Buffer.stays_takes T.takes_unpackAt b)
  | unpackScalarAt s =>
    exact Buffer.stays_discard (Buffer.stays_takes (Layout.takes_unpackAt (.scalar s)) b)
  | unpackFieldsAt fs =>
    exact Buffer.stays_discard (Buffer.stays_takes (Layout.takes_fields_unpackAt fs) b)
  | read p o =>
    exact Buffer.stays_discard (Buffer.stays_atStart (Buffer.stays_takes (p.takes_readAt o)) b)
  | readAt p o => exact Buffer.stays_discard (Buffer.stays_takes (p.takes_readAt o) b)
  | write p o x => exact Buffer.stays_atStart (stays_writeAt p o x) b
  | writeAt p o x => exact stays_writeAt p o x b

/-- Within a composite that was made, nothing is packed past the end, and no place in it is past
what can be addressed. -/
theorem packs_inside {T U : Layout} {v w : Value} {b : Buffer} (hT : T.Constructible)
    (h : Layout.Packs T v U w b) :
    b.offset + U.width ≤ b.data.length ∧ b.data.length < addressSpace ∧
      ¬(packInto U w).Overruns b := by
  obtain ⟨hroom, hlen⟩ := h.inside
  refine ⟨hroom, Nat.lt_of_le_of_lt hlen hT.wellFormed.width_lt, ?_⟩
  rintro ⟨-, hpast⟩
  have := hpast.past
  omega

end Operation

/-! ### The ends of a range -/

theorem Primitive.minValue?_fits (p : Primitive) :
    ∀ n ∈ p.minValue?, -2 ^ (127 : Nat) ≤ n ∧ n < 2 ^ (127 : Nat) := by
  cases p <;> decide

theorem Primitive.maxValue?_fits (p : Primitive) :
    ∀ n ∈ p.maxValue?, -2 ^ (127 : Nat) ≤ n ∧ n < 2 ^ (127 : Nat) := by
  cases p <;> decide

/-! ### Writers -/

namespace Writer

/-- **What comes of a call that stays within bounds**: done, it leaves the bytes that there were and
more after them, and refused, it leaves the writer, and it is not for a window outside. -/
def Grows (w : Writer) : EStateM.Result Error Writer α → Prop
  | .ok _ w' => w'.registry = w.registry ∧ w.bytes <+: w'.bytes
  | .error e w' => w' = w ∧ e ≠ .outOfBounds

theorem packed_error_ne {x : Except Error Scalar} {v : Value} {e : Error}
    (hx : ∀ e, x = .error e → e ≠ .outOfBounds) (h : (do let s ← x; s.pack v) = .error e) :
    e ≠ .outOfBounds := by
  cases x with
  | error e' =>
    obtain rfl := Except.error.inj h
    exact hx e' rfl
  | ok s => exact Layout.pack_error_ne (T := .scalar s) h

theorem lookup_error_ne {r : Registry} {name : String} {e : Error}
    (h : r.lookup name = .error e) : e ≠ .outOfBounds := by
  rintro rfl
  rw [Registry.lookup] at h
  split at h <;> cases h

theorem resolve_error_ne {r : Registry} {n : TypeName} {e : Error}
    (h : r.resolve n = .error e) : e ≠ .outOfBounds := by
  rintro rfl
  rw [Registry.resolve] at h
  split at h <;> cases h

theorem padFault?_ne {length n : Nat} {e : Error} (h : padFault? length n = some e) :
    e ≠ .outOfBounds := by
  rintro rfl
  rw [padFault?] at h
  split at h
  · cases h
  · split at h <;> cases h

theorem Call.bytes_error_ne {c : Call} {w : Writer} {e : Error} (h : c.bytes w = .error e) :
    e ≠ .outOfBounds := by
  cases c with
  | write name v => exact packed_error_ne (fun _ => lookup_error_ne) h
  | writeName n v => exact packed_error_ne (fun _ => resolve_error_ne) h
  | writeScalar s v => exact Layout.pack_error_ne (T := .scalar s) h
  | writeLayout T v => exact Layout.pack_error_ne h
  | pad n =>
    rw [bytes] at h
    split at h
    · rename_i e' he
      obtain rfl := Except.error.inj h
      exact padFault?_ne he
    · cases h

theorem Call.grows_run (c : Call) (w : Writer) : w.Grows (c.run w) := by
  rw [c.run_apply]
  cases h : c.bytes w with
  | ok bytes => exact ⟨rfl, List.prefix_append _ _⟩
  | error e => exact ⟨rfl, c.bytes_error_ne h⟩

/-- Padding that is done fits in the storage that there is. -/
theorem pad_ok {n : Nat} {w w' : Writer} (h : pad n w = .ok () w') :
    w'.length = w.length + n ∧ w'.length ≤ storageLimit := by
  have hl : (w.bytes ++ List.replicate n 0).length = w.length + n := by
    rw [List.length_append, List.length_replicate, length]
  rw [pad_apply] at h
  cases hf : padFault? w.length n with
  | some e =>
    rw [hf] at h
    cases h
  | none =>
    rw [hf] at h
    obtain rfl := (EStateM.Result.ok.inj h).2
    exact ⟨hl, Nat.le_trans (Nat.le_of_eq hl) (padFault?_eq_none.mp hf)⟩

end Writer

/-! ### All of it -/

/-- **A window outside the buffer is met by an overrun and by nothing else.**  An overrun leaves the
buffer, and every other operation stays within bounds.  Packing and unpacking a composite keep to
its bytes at any depth; as many bytes are taken as were asked for; the ends of a range are found
within 128 bits; and readers and writers stay within bounds in every state they come to. -/
theorem outOfBounds_iff_overruns :
    (∀ (op : Operation) (b : Buffer),
      (op.Overruns b → op.run b = .error .outOfBounds b) ∧
      (¬op.Overruns b → b.Stays (op.run b))) ∧
    (∀ (T U : Layout) (v w : Value) (b : Buffer), T.Constructible → Layout.Packs T v U w b →
      b.offset + U.width ≤ b.data.length ∧ b.data.length < addressSpace ∧
        ¬(Operation.packInto U w).Overruns b) ∧
    (∀ (T U : Layout) (b c : Buffer), Layout.Unpacks T b U c →
      ¬c.remaining < U.width ∧ c.data = b.data ∧
        c.offset + U.width ≤ max b.offset b.data.length) ∧
    (∀ (n : Nat) (b c : Buffer) (bytes : Bytes), Buffer.take n b = .ok bytes c →
      bytes.length = n) ∧
    (∀ p : Primitive, (0 < 8 * p.width ∧ 8 * p.width < 127) ∧
      (∀ n ∈ p.minValue?, -2 ^ (127 : Nat) ≤ n ∧ n < 2 ^ (127 : Nat)) ∧
      ∀ n ∈ p.maxValue?, -2 ^ (127 : Nat) ≤ n ∧ n < 2 ^ (127 : Nat)) ∧
    (∀ (data : Bytes) (g : Registry) (α : Type) (p : Reader.Program α),
      ∀ call ∈ p.calls (.new data g),
        call.2.position ≤ call.2.length ∧ Reader.Steady call.2 (call.1.run call.2)) ∧
    (∀ (w : Writer) (c : Writer.Call), w.Grows (c.run w)) ∧
    ∀ (n : Nat) (w w' : Writer), Writer.pad n w = .ok () w' →
      w'.length = w.length + n ∧ w'.length ≤ storageLimit := by
  refine ⟨fun _ _ => ⟨Operation.overrun_run, Operation.stays_run⟩,
    fun _ _ _ _ _ => Operation.packs_inside, fun _ _ _ _ h => h.inside,
    fun _ _ _ _ => Buffer.length_of_take, ?_, ?_, fun w c => c.grows_run w,
    fun _ _ _ => Writer.pad_ok⟩
  · intro p
    have hpos := p.width_pos
    have hle := p.width_le
    exact ⟨by omega, p.minValue?_fits, p.maxValue?_fits⟩
  · intro data g α p call hcall
    have hm := p.moved_calls (r := .new data g) (Nat.zero_le _) call hcall
    exact ⟨hm.inside, call.1.steady_run hm.inside⟩

/-- No points are packed one place past the end and at the end, and two points within `tagged`.
A tag is unpacked by itself, a reader comes to a call after one that was refused, and a writer
pads. -/
theorem outOfBounds_iff_overruns_tagged :
    let point : Layout := .struct (.cons "x" (.scalar ⟨.int16, .bigEndian⟩)
      (.cons "y" (.scalar ⟨.float32, .littleEndian⟩) .nil))
    let noPoints : Operation := .packInto (.array Layout.tagged 0) (.list [])
    noPoints.run ⟨[7], 2⟩ = .error .outOfBounds ⟨[7], 2⟩ ∧
    Buffer.Stays ⟨[7], 1⟩ (noPoints.run ⟨[7], 1⟩) ∧
    ¬(Operation.packInto point (.list [.number (.int (-3)), .number (.int 4)])).Overruns
      ⟨[0, 1, 0, 0, 128, 191, 0, 0, 0, 0, 0, 0], 6⟩ ∧
    ¬Buffer.remaining ⟨List.replicate 14 0, 1⟩ < 1 ∧
    [2, 3].length = 2 ∧
    Reader.Steady ⟨⟨[7], 0⟩, .ofArchitecture .arm⟩
      ((Reader.Call.skip 1).run ⟨⟨[7], 0⟩, .ofArchitecture .arm⟩) ∧
    Writer.length ⟨[7, 0, 0], .ofArchitecture .arm⟩ ≤ storageLimit := by
  intro point noPoints
  obtain ⟨hop, hpacks, hunpacks, htake, -, hreader, -, hpad⟩ := outOfBounds_iff_overruns
  have hdeep : Layout.Packs Layout.tagged
      (Layout.taggedOf (.int 2) (.int 1) (.int (-1)) (.int (-3)) (.int 4))
      point (.list [.number (.int (-3)), .number (.int 4)])
      ⟨[0, 1, 0, 0, 128, 191, 0, 0, 0, 0, 0, 0], 6⟩ :=
    .deep (@Layout.Packs.member _ _ _ _ _ 1 rfl rfl rfl rfl)
      (@Layout.Packs.member _ _ _ _ _ 1 rfl rfl rfl rfl)
  have htag : Layout.Unpacks Layout.tagged ⟨List.replicate 14 0, 1⟩
      (.scalar ⟨.uint8, .bigEndian⟩) ⟨List.replicate 14 0, 1⟩ :=
    @Layout.Unpacks.member _ _ _ _ _ 0 (by decide) rfl rfl
  refine ⟨(hop noPoints ⟨[7], 2⟩).1 ⟨rfl, rfl, ⟨[], rfl⟩, by decide⟩, (hop noPoints ⟨[7], 1⟩).2 ?_,
    (hpacks _ _ _ _ _ Layout.tagged_constructible hdeep).2.2, (hunpacks _ _ _ _ htag).1,
    htake 2 ⟨[1, 2, 3], 1⟩ ⟨[1, 2, 3], 3⟩ _ rfl, ?_, ?_⟩
  · rintro ⟨-, hpast⟩
    exact absurd hpast.past (by decide)
  · exact (hreader [7] (.ofArchitecture .arm) Unit
      (.call (.skip 2) fun _ => .call (.skip 1) fun _ => .done ()) _
      (.tail _ (.head _))).2
  · exact (hpad 2 ⟨[7], .ofArchitecture .arm⟩ _ rfl).2

end ByteLayout
