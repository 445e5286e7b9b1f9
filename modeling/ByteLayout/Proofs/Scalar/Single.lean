import ByteLayout.Primitive.Access
import ByteLayout.Proofs.Binary.Classes
import ByteLayout.Proofs.Scalar.Rounding

/-!
# Single precision, pattern by pattern

What single precision makes of a double that it takes has the sign of the double
and is of the same kind, and every NaN and infinity is taken.  Of a NaN the top
of its payload is kept.  Unpacked again it is the NaN there was without the low
bits of its payload, and a quiet one if the payload was in the low bits alone.

There are two ways from a single to a value.  Bytes are unpacked by `widen`,
which loses nothing; a single at hand is converted as arithmetic does it, by
`promote`.  `ofBinary32_agrees_iff` says that the two agree but for signalling
NaNs: such a single comes back from its bytes, and not from the value it is
converted to.
-/

namespace ByteLayout

-- Powers are those of the core library.
attribute [local instance (2000)] instPowNat

/-- Data is written into zero bytes as the digits of its word. -/
theorem Primitive.filled_write (p : Primitive) (o : ByteOrder) (x : p.Carrier) :
    Buffer.filled p.width (p.write o x) = .ok (Bytes.encode o p.width (p.word x)) := by
  have hput : Buffer.put (Bytes.encode o p.width (p.word x)) ⟨List.replicate p.width 0, 0⟩ =
      .ok () ⟨Bytes.encode o p.width (p.word x), p.width⟩ := by
    simpa [Buffer.between] using Buffer.put_zeros (Bytes.encode o p.width (p.word x)) [] 0
  rw [Buffer.filled, write, Buffer.atStart, writeAt, hput]

namespace Scalar

theorem pattern_float32 (o : ByteOrder) (x : Binary32) :
    Bytes.pattern .binary32 o (Bytes.encode o 4 x.toNat) = x :=
  Bytes.pattern_encode Format.word_binary32 o x

/-! ### Bytes of a single -/

theorem unpack_float32 (o : ByteOrder) (x : Binary32) :
    (Scalar.mk .float32 o).unpack (Bytes.encode o 4 x.toNat) = .ok (.float x.widen) := by
  have hl : (Bytes.encode o 4 x.toNat).length = 4 := Bytes.length_encode _ _ _
  have hd : (Scalar.mk .float32 o).decode (Bytes.encode o 4 x.toNat) = .float x.widen :=
    congrArg (fun y : Binary32 => Value.float y.widen) (pattern_float32 o x)
  rw [Layout.scalar_unpack_eq, hd]
  exact if_pos hl

/-- **A single widened is packed to its own bytes.** -/
theorem pack_widen (o : ByteOrder) (x : Binary32) :
    (Scalar.mk .float32 o).pack (.float x.widen) = .ok (Bytes.encode o 4 x.toNat) := by
  have hfin : ¬(x.isFinite ∧ x.isInfinite) := by
    rintro ⟨hf, hi⟩
    exact Bool.false_ne_true ((Binary.isInfinite_of_isFinite hf).symm.trans hi)
  rw [pack_float32_float, Binary.narrow_widen, Binary.isFinite_widen]
  exact ⟨hfin, rfl⟩

theorem pack_ofBinary32 (o : ByteOrder) (x : Binary32) :
    (Scalar.mk .float32 o).pack (.ofBinary32 x) = .ok (Bytes.encode o 4 x.quieted.toNat) := by
  rw [Value.ofBinary32, Binary.promote_eq, pack_widen]

/-! ### Signs and kinds -/

/-- **Single precision keeps sign and kind of every double it takes**, and the top of the payload
of a NaN. -/
theorem pack_float32_kind (o : ByteOrder) (d : Binary64) :
    (d.isNaN ∨ d.isInfinite → ∃ bytes, (Scalar.mk .float32 o).pack (.float d) = .ok bytes) ∧
      ∀ bytes, (Scalar.mk .float32 o).pack (.float d) = .ok bytes →
        bytes.length = 4 ∧ (Bytes.pattern .binary32 o bytes).SameKind d ∧
          (d.isNaN → d.fraction.val / 2 ^ 29 ≠ 0 →
            (Bytes.pattern .binary32 o bytes).fraction.val = d.fraction.val / 2 ^ 29 ∧
              (Scalar.mk .float32 o).unpack bytes = .ok (.float (d.clearLow 29))) ∧
          (d.isNaN → d.fraction.val / 2 ^ 29 = 0 →
            (Bytes.pattern .binary32 o bytes).fraction.val = 0x400000 ∧
              (Scalar.mk .float32 o).unpack bytes =
                .ok (.float (.nan d.negative (2 ^ 51)))) := by
  constructor
  · intro h
    refine ⟨_, pack_float32_float.mpr ⟨?_, rfl⟩⟩
    rintro ⟨hf, -⟩
    rw [Binary.isNaN_of_isFinite hf, Binary.isInfinite_of_isFinite hf] at h
    simp at h
  · intro bytes hb
    obtain ⟨hf, rfl⟩ := pack_float32_float.mp hb
    rw [pattern_float32, unpack_float32]
    refine ⟨Bytes.length_encode _ _ _, Binary.sameKind_narrow hf, fun hn h0 => ?_, fun hn h0 => ?_⟩
    · have hpay : d.narrowPayload = d.fraction.val / 2 ^ 29 := if_neg h0
      rw [Binary.widen_narrow_of_isNaN hn, Binary.narrow_of_isNaN hn,
        Binary.fraction_nan _ d.narrowPayload_lt, hpay,
        Binary.clearLow_of_isSpecial 29 (Binary.isSpecial_of_isNaN hn)]
      exact ⟨rfl, rfl⟩
    · have hpay : d.narrowPayload = 0x400000 := if_pos h0
      rw [Binary.widen_narrow_of_isNaN hn, Binary.narrow_of_isNaN hn,
        Binary.fraction_nan _ d.narrowPayload_lt, hpay]
      exact ⟨rfl, rfl⟩

/-- A signalling NaN with a bit at the top of its payload stays signalling, one with low bits alone
becomes quiet, and the least infinity stays infinite. -/
theorem pack_float32_kind_signalling :
    let top : Binary64 := .ofNat 0xfff0000020000001
    let low : Binary64 := .ofNat 0x7ff0000000000001
    let least : Binary64 := .infinite true
    (top.isNaN ∧ top.fraction.val / 2 ^ 29 ≠ 0 ∧
      ∃ bytes, (Scalar.mk .float32 .bigEndian).pack (.float top) = .ok bytes ∧
        (Scalar.mk .float32 .bigEndian).unpack bytes = .ok (.float (top.clearLow 29))) ∧
      (low.isNaN ∧ low.fraction.val / 2 ^ 29 = 0 ∧
        ∃ bytes, (Scalar.mk .float32 .bigEndian).pack (.float low) = .ok bytes ∧
          (Scalar.mk .float32 .bigEndian).unpack bytes = .ok (.float (.nan false (2 ^ 51)))) ∧
      least.isInfinite ∧
        ∃ bytes, (Scalar.mk .float32 .bigEndian).pack (.float least) = .ok bytes ∧
          (Bytes.pattern .binary32 .bigEndian bytes).SameKind least := by
  intro top low least
  have htop : top.isNaN := by decide
  have hlow : low.isNaN := by decide
  have hleast : least.isInfinite := by decide
  have htop0 : top.fraction.val / 2 ^ 29 ≠ 0 := by decide
  have hlow0 : low.fraction.val / 2 ^ 29 = 0 := by decide
  obtain ⟨b, hb⟩ := (pack_float32_kind .bigEndian top).1 (.inl htop)
  obtain ⟨-, -, ht, -⟩ := (pack_float32_kind .bigEndian top).2 b hb
  obtain ⟨c, hc⟩ := (pack_float32_kind .bigEndian low).1 (.inl hlow)
  obtain ⟨-, -, -, hl⟩ := (pack_float32_kind .bigEndian low).2 c hc
  obtain ⟨e, he⟩ := (pack_float32_kind .bigEndian least).1 (.inr hleast)
  exact ⟨⟨htop, htop0, b, hb, (ht htop htop0).2⟩, ⟨hlow, hlow0, c, hc, (hl hlow hlow0).2⟩,
    hleast, e, he, ((pack_float32_kind .bigEndian least).2 e he).2.1⟩

/-! ### Two ways from a single to a value -/

/-- **Bytes keep every single, conversion all but the signalling NaNs.**  The value that the bytes
of a single are unpacked to packs to the same bytes again.  The value that the single is converted
to is another one exactly for a signalling NaN, and then its bytes are those of the quiet one. -/
theorem ofBinary32_agrees_iff (o : ByteOrder) (x : Binary32) :
    ∃ bytes, Buffer.filled 4 (Primitive.float32.write o x) = .ok bytes ∧
      Bytes.pattern .binary32 o bytes = x ∧
      (∃ v, (Scalar.mk .float32 o).unpack bytes = .ok v ∧
        (Scalar.mk .float32 o).pack v = .ok bytes ∧
          (v = .ofBinary32 x ↔ x.isSignalling = false)) ∧
      ∃ converted, (Scalar.mk .float32 o).pack (.ofBinary32 x) = .ok converted ∧
        Bytes.pattern .binary32 o converted = x.quieted ∧
          (converted = bytes ↔ x.isSignalling = false) := by
  rw [← Binary.quieted_eq_iff (by decide)]
  refine ⟨_, Primitive.filled_write .float32 o x, pattern_float32 o x,
    ⟨_, unpack_float32 o x, pack_widen o x, ?_⟩,
    _, pack_ofBinary32 o x, pattern_float32 o x.quieted, ?_⟩
  · rw [Value.ofBinary32, Binary.promote_eq, ← Binary.widen_inj, eq_comm]
    exact ⟨fun h => Number.float.inj (Value.number.inj h), congrArg Value.float⟩
  · constructor
    · intro h
      have hbytes : Bytes.encode o 4 x.quieted.toNat = Bytes.encode o 4 x.toNat := h
      rw [← pattern_float32 o x.quieted, hbytes, pattern_float32]
    · intro h
      rw [h]
      rfl

/-- The least signalling NaN is unpacked from its bytes as it is, but converted to a quiet one,
which packs to other bytes. -/
theorem ofBinary32_least_signalling :
    let x : Binary32 := .ofNat 0x7f800001
    Buffer.filled 4 (Primitive.float32.write .bigEndian x) = .ok [0x7f, 0x80, 0, 1] ∧
      (Scalar.mk .float32 .bigEndian).unpack [0x7f, 0x80, 0, 1] =
        .ok (.float (.ofNat 0x7ff0000020000000)) ∧
      Value.ofBinary32 x = .float (.ofNat 0x7ff8000020000000) ∧
      (Scalar.mk .float32 .bigEndian).unpack [0x7f, 0x80, 0, 1] ≠ .ok (.ofBinary32 x) ∧
      (Scalar.mk .float32 .bigEndian).pack (.ofBinary32 x) = .ok [0x7f, 0xc0, 0, 1] := by
  decide

end Scalar

end ByteLayout
