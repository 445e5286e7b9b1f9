import ByteLayout.Proofs.Layout.Encoding

/-!
# Packing into the middle of a buffer

Packing in place has three outcomes, and `Buffer.Splices` lists them.  A value
that is not packed at all is refused for the same reason, however short the
buffer.  Bytes that do not fit are refused for their number.  Otherwise they
take the place of the next ones, and the bytes before and after stay.  A refusal
leaves the buffer as it was.

`putResult_splices` has the three outcomes for any bytes, and `packInto_splices`
for those of a layout, a scalar and the fields of a struct.  They leave out the
one case where nothing is to be written and the offset lies past the end.
-/

namespace ByteLayout

namespace Buffer

/-- **The outcomes of putting what was packed over the next `width` bytes.** -/
structure Splices (act : BufferM Unit) (packed : Except Error Bytes) (width : Nat) (b : Buffer) :
    Prop where
  /-- What is wrong with the value is said first, whether or not its bytes would fit. -/
  refused : ∀ e, packed = .error e → act b = .error e b
  /-- Bytes that are more than remain are not written. -/
  short : ∀ bytes, packed = .ok bytes → b.remaining < bytes.length →
    act b = .error (.lengthMismatch width b.remaining) b
  /-- Bytes that fit are written, and nothing else is. -/
  done : ∀ bytes, packed = .ok bytes → ¬b.remaining < bytes.length →
    ∃ data, act b = .ok () ⟨data, b.offset + width⟩ ∧
      data = b.data.take b.offset ++ bytes ++ b.data.drop (b.offset + width) ∧
      data.length = b.data.length ∧ b.offset + width ≤ b.data.length

/-- **What was packed is put in whole or not at all.** -/
theorem putResult_splices {packed : Except Error Bytes} {width : Nat} {b : Buffer}
    (hw : ∀ bytes, packed = .ok bytes → bytes.length = width)
    (hb : b.offset ≤ b.data.length ∨ 0 < width) : Splices (putResult packed) packed width b where
  refused := by
    rintro e rfl
    exact putResult_error e b
  short := by
    rintro bytes rfl h
    rw [putResult_ok, put_apply, if_pos h, hw bytes rfl]
  done := by
    rintro bytes rfl h
    have hl := hw bytes rfl
    have hin := inside_of_enough h (hl ▸ hb)
    refine ⟨b.splice bytes, ?_, by rw [splice, hl], length_splice hin, hl ▸ hin⟩
    rw [putResult_ok, put_apply, if_neg h, if_neg (Nat.not_lt.mpr hin), hl]

end Buffer

namespace Layout

/-- **Packing in place is packing, and then a splice.**  It is all or nothing: a refusal at any
depth of the value, or for want of room, leaves every byte and the offset. -/
theorem packInto_splices (b : Buffer) :
    (∀ (T : Layout) (v : Value), b.offset ≤ b.data.length ∨ 0 < T.width →
      Buffer.Splices (T.packInto v) (T.pack v) T.width b) ∧
    (∀ (s : Scalar) (v : Value), Buffer.Splices (s.packInto v) (s.pack v) s.width b) ∧
    ∀ (fs : Fields) (vs : List Value), b.offset ≤ b.data.length ∨ 0 < fs.width →
      Buffer.Splices (fs.packInto vs) (fs.pack vs) fs.width b := by
  have layout : ∀ (T : Layout) (v : Value), b.offset ≤ b.data.length ∨ 0 < T.width →
      Buffer.Splices (T.packInto v) (T.pack v) T.width b := by
    intro T v hb
    rw [packInto_eq, pack_eq_encode]
    exact Buffer.putResult_splices (encode_length T v) hb
  refine ⟨layout, ?_, ?_⟩
  · intro s v
    exact layout (scalar s) v (.inr s.primitive.width_pos)
  · intro fs vs hb
    exact layout (struct fs) (.list vs) hb

/-- Room for the 13 bytes between two others; a number that does not fit in the last point, with
hardly any room; and room for one byte. -/
theorem packInto_splices_tagged :
    tagged.packInto (taggedOf (.int 2) (.int 1) (.int (-1)) (.int (-3)) (.int 4))
        ⟨List.replicate 15 7, 1⟩ =
      .ok () ⟨[7, 2, 0, 1, 0, 0, 128, 191, 255, 253, 0, 0, 128, 64, 7], 14⟩ ∧
    tagged.packInto (taggedOf (.int 2) (.int 1) (.int (-1)) (.int 40000) (.int 4)) ⟨[7], 5⟩ =
      .error (.valueOutOfRange (.int 40000) .int16) ⟨[7], 5⟩ ∧
    tagged.packInto (taggedOf (.int 2) (.int 1) (.int (-1)) (.int (-3)) (.int 4)) ⟨[7, 7], 1⟩ =
      .error (.lengthMismatch 13 1) ⟨[7, 7], 1⟩ := by
  have hv : tagged.pack (taggedOf (.int 2) (.int 1) (.int (-1)) (.int (-3)) (.int 4)) =
      .ok [2, 0, 1, 0, 0, 128, 191, 255, 253, 0, 0, 128, 64] := rfl
  have hw : tagged.pack (taggedOf (.int 2) (.int 1) (.int (-1)) (.int 40000) (.int 4)) =
      .error (.valueOutOfRange (.int 40000) .int16) := rfl
  have h := fun b => (packInto_splices b).1 tagged
  obtain ⟨data, hok, rfl, -⟩ :=
    (h ⟨List.replicate 15 7, 1⟩ _ (.inl (by decide))).done _ hv (by decide)
  exact ⟨hok, (h ⟨[7], 5⟩ _ (.inr (by decide))).refused _ hw,
    (h ⟨[7, 7], 1⟩ _ (.inl (by decide))).short _ hv (by decide)⟩

end Layout

end ByteLayout
