import ByteLayout.Proofs.Scalar.Integers

/-!
# Scalars and machine data

Where the type of the data is known, the data is read and written as it is.
Where a scalar type is at hand, packing and unpacking go by values, and the type
finds the machine data from its kind and its width.  The two ways agree:
`packInto_value` says that packing the value of data is writing the data, and
`unpackAt_value` that unpacking is reading the data and taking its value.

Both are facts about words.  `encode_value` finds the word of the data from its
value, and `decode_eq_value` takes the word of the bytes for the same data as
reading does.  Single precision is left out, as a signalling NaN has a quiet one
for its value.
-/

namespace ByteLayout

-- Powers are those of the core library.
attribute [local instance (2000)] instPowNat

namespace Primitive

variable {p : Primitive}

theorem eq_float64 (hs : p ≠ .float32) (hi : ¬p.isInteger) : p = .float64 := by
  cases p with
  | float64 => rfl
  | float32 => exact absurd rfl hs
  | _ => exact absurd rfl hi

end Primitive

namespace Scalar

theorem eq_of_kind_width {s : Scalar} {p : Primitive} (hk : s.kind = p.kind)
    (hw : s.width = p.width) : s.primitive = p := by
  have h := s.primitive.ofKind?_kind_width
  rw [show s.primitive.kind = p.kind from hk, show s.primitive.width = p.width from hw,
    p.ofKind?_kind_width] at h
  exact (Option.some.inj h).symm

section

variable {p : Primitive} (o : ByteOrder)

/-! ### Words -/

theorem encode_int_of_holds (hi : p.isInteger) {n : Int} (h : p.holds n) :
    (Scalar.mk p o).encode (.int n) = .ok (Bytes.encode o p.width (p.wrap n)) := by
  show (do let k ← p.encode (.int n); return Bytes.encode o p.width k) = _
  rw [Primitive.encode_eq, Primitive.fault?_int_of_holds h, Primitive.wordOf_int hi]
  rfl

theorem encode_int_of_not_holds (hi : p.isInteger) {n : Int} (h : ¬p.holds n) :
    (Scalar.mk p o).encode (.int n) = .error (.valueOutOfRange (.int n) p) := by
  show (do let k ← p.encode (.int n); return Bytes.encode o p.width k) = _
  rw [Primitive.encode_eq, Primitive.fault?_int_of_not_holds hi h]
  rfl

/-- **The bytes for the value of data** are the digits of its word. -/
theorem encode_value (hp : p ≠ .float32) (x : p.Carrier) :
    (Scalar.mk p o).encode (p.value x) = .ok (Bytes.encode o p.width (p.word x)) := by
  by_cases hi : p.isInteger
  · have hx := p.word_lt_two_pow x
    rw [Primitive.value_eq hi, encode_int_of_holds o hi (Primitive.holds_unwrap hi hx),
      Primitive.wrap_unwrap hx]
  · obtain rfl := Primitive.eq_float64 hp hi
    rfl

/-- **The value of bytes** is the value of the data that they are. -/
theorem decode_eq_value (hp : p ≠ .float32) {bytes : Bytes} (h : bytes.length = p.width) :
    (Scalar.mk p o).decode bytes = p.value (p.ofWord (Bytes.decode o bytes)) := by
  by_cases hi : p.isInteger
  · have hk : Bytes.decode o bytes < 2 ^ (8 * p.width) := decode_lt (s := ⟨p, o⟩) h
    rw [Primitive.value_ofWord hi hk, decode, Primitive.decode_of_isInteger hi]
    rfl
  · obtain rfl := Primitive.eq_float64 hp hi
    rfl

/-! ### Access to a buffer -/

theorem packInto_value (hp : p ≠ .float32) (x : p.Carrier) (b : Buffer) :
    (Scalar.mk p o).packInto (p.value x) b = p.writeAt o x b := by
  rw [packInto, encode_value o hp]
  rfl

theorem unpackAt_value (hp : p ≠ .float32) (b : Buffer) :
    (Scalar.mk p o).unpackAt b = match p.readAt o b with
      | .ok x c => .ok (p.value x) c
      | .error e c => .error e c := by
  have hu : Buffer.Takes (Scalar.mk p o).unpackAt p.width (Scalar.mk p o).decode :=
    (Buffer.takes_take p.width_pos).map (Scalar.mk p o).decode
  rw [hu, p.takes_readAt]
  by_cases hb : b.remaining < p.width
  · simp only [if_pos hb]
  · simp only [if_neg hb, decode_eq_value o hp (Buffer.length_next_of_enough hb)]

/-- **An integer is written as the data with its value, or not at all.** -/
theorem packInto_int (hi : p.isInteger) (n : Int) :
    (∃ x : p.Carrier, p.value x = .int n ∧ (∀ y, p.value y = .int n → y = x) ∧
      ∀ b, (Scalar.mk p o).packInto (.int n) b = p.writeAt o x b) ∨
    ((∀ x, p.value x ≠ .int n) ∧
      ∀ b, (Scalar.mk p o).packInto (.int n) b = .error (.valueOutOfRange (.int n) p) b) := by
  have hp : p ≠ .float32 := by
    rintro rfl
    cases hi
  by_cases h : p.holds n
  · obtain ⟨x, hx⟩ := (Primitive.holds_iff_value hi n).mp h
    refine .inl ⟨x, hx, fun y hy => Primitive.value_injective hi (hy.trans hx.symm), fun b => ?_⟩
    rw [← hx, packInto_value o hp]
  · refine .inr ⟨fun x hx => h ((Primitive.holds_iff_value hi n).mpr ⟨x, hx⟩), fun b => ?_⟩
    rw [packInto, encode_int_of_not_holds o hi h]
    rfl

end

/-- **A scalar type goes to a buffer as the machine type of its kind and width does.**  The value of
data is packed as the data is written, and unpacking is reading and then taking the value: with the
same outcome, the same bytes and the same offset in every buffer.  An integer, of whatever size, is
written as the one data with its value; if there is none it is refused, and the buffer stays. -/
theorem access_eq_machine {s : Scalar} {p : Primitive} (hk : s.kind = p.kind)
    (hw : s.width = p.width) (hs : p ≠ .float32) :
    (∀ (x : p.Carrier) (b : Buffer), s.packInto (p.value x) b = p.writeAt s.order x b) ∧
      (∀ b : Buffer, s.unpackAt b = match p.readAt s.order b with
        | .ok x c => .ok (p.value x) c
        | .error e c => .error e c) ∧
      (p.isInteger → ∀ n : Int,
        (∃ x : p.Carrier, p.value x = .int n ∧ (∀ y, p.value y = .int n → y = x) ∧
          ∀ b, s.packInto (.int n) b = p.writeAt s.order x b) ∨
        ((∀ x, p.value x ≠ .int n) ∧
          ∀ b, s.packInto (.int n) b = .error (.valueOutOfRange (.int n) p) b)) := by
  obtain ⟨q, o⟩ := s
  obtain rfl : q = p := eq_of_kind_width hk hw
  exact ⟨packInto_value o hs, unpackAt_value o hs, packInto_int o⟩

/-- A negative integer is packed and unpacked at an offset, the first one past the range is refused
before the offset is looked at, and a signalling NaN of double precision keeps its pattern. -/
theorem access_eq_machine_int16 :
    let s : Scalar := ⟨.int16, .bigEndian⟩
    let d : Scalar := ⟨.float64, .littleEndian⟩
    let x : Binary64 := .ofNat 0x7ff0000000000001
    (s.kind = Primitive.int16.kind ∧ s.width = Primitive.int16.width ∧
      Primitive.int16 ≠ .float32 ∧ Primitive.int16.isInteger ∧
      s.packInto (.int (-2)) ⟨[1, 2, 3], 1⟩ = .ok () ⟨[1, 255, 254], 3⟩ ∧
      s.unpackAt ⟨[1, 255, 254], 1⟩ = .ok (.int (-2)) ⟨[1, 255, 254], 3⟩ ∧
      s.unpackAt ⟨[1, 255, 254], 2⟩ = .error (.lengthMismatch 2 1) ⟨[1, 255, 254], 2⟩ ∧
      s.packInto (.int 32768) ⟨[1, 2, 3], 9⟩ =
        .error (.valueOutOfRange (.int 32768) .int16) ⟨[1, 2, 3], 9⟩) ∧
    d.kind = Primitive.float64.kind ∧ d.width = Primitive.float64.width ∧
      Primitive.float64 ≠ .float32 ∧
      d.packInto (.float x) ⟨List.replicate 8 7, 0⟩ = .ok () ⟨[1, 0, 0, 0, 0, 0, 240, 127], 8⟩ ∧
      d.unpackAt ⟨[1, 0, 0, 0, 0, 0, 240, 127], 0⟩ =
        .ok (.float x) ⟨[1, 0, 0, 0, 0, 0, 240, 127], 8⟩ := by
  intro s d x
  have hs : Primitive.int16 ≠ .float32 := by decide
  have hd : Primitive.float64 ≠ .float32 := by decide
  obtain ⟨hpack, hunpack, hint⟩ := access_eq_machine (s := s) (p := .int16) rfl rfl hs
  obtain ⟨hpackd, hunpackd, -⟩ := access_eq_machine (s := d) (p := .float64) rfl rfl hd
  refine ⟨⟨rfl, rfl, hs, rfl, ?_, ?_, ?_, ?_⟩, rfl, rfl, hd, ?_, ?_⟩
  · exact (hpack (-2 : Int16) ⟨[1, 2, 3], 1⟩).trans rfl
  · exact (hunpack ⟨[1, 255, 254], 1⟩).trans rfl
  · exact (hunpack ⟨[1, 255, 254], 2⟩).trans rfl
  · obtain ⟨y, hy, -⟩ | ⟨-, h⟩ := hint rfl 32768
    · have hv : Int16.toInt y = 32768 := Number.int.inj (Value.number.inj hy)
      have hlt := Int16.toInt_lt y
      omega
    · exact h _
  · have hx : Bytes.encode .littleEndian 8 x.toNat = [1, 0, 0, 0, 0, 0, 240, 127] := by decide
    have hput : Primitive.float64.writeAt .littleEndian x =
      Buffer.put [1, 0, 0, 0, 0, 0, 240, 127] := congrArg Buffer.put hx
    refine (hpackd x ⟨List.replicate 8 7, 0⟩).trans ?_
    rw [hput]
    rfl
  · exact (hunpackd ⟨[1, 0, 0, 0, 0, 0, 240, 127], 0⟩).trans rfl

end Scalar

end ByteLayout
