import ByteLayout.Proofs.Binary.Nearest
import ByteLayout.Proofs.Layout.Decoding

/-!
# Numbers packed as floating point

The bytes of a floating point type are a pattern, `Bytes.pattern`, and the
number it denotes is the packed one, rounded once.  For single precision the
halfway point past the largest number is `2 ^ 128 - 2 ^ 103`: a double from
there on is refused, and below it every double is packed as a nearest pattern
with its own sign.  Every integer of 128 bits lies below the halfway points of
both types, so none is refused, and it is rounded from itself and not from a
double.
-/

namespace ByteLayout

-- Powers are those of the core library.
attribute [local instance (2000)] instPowNat

/-- The pattern that bytes are in an order. -/
def Bytes.pattern (F : Format) (o : ByteOrder) (bytes : Bytes) : Binary F :=
  .ofNat (Bytes.decode o bytes)

theorem Bytes.pattern_encode {F : Format} {w : Nat}
    (h : 2 ^ (F.exponentBits + F.fractionBits + 1) = 256 ^ w) (o : ByteOrder) (x : Binary F) :
    Bytes.pattern F o (Bytes.encode o w x.toNat) = x := by
  rw [Bytes.pattern, Bytes.decode_encode_of_lt o (h ▸ x.toNat_lt), Binary.ofNat_toNat]

/-! ### The points past the largest numbers -/

namespace Format

theorem word_binary32 :
    2 ^ (binary32.exponentBits + binary32.fractionBits + 1) = 256 ^ Primitive.float32.width := by
  decide

theorem word_binary64 :
    2 ^ (binary64.exponentBits + binary64.fractionBits + 1) = 256 ^ Primitive.float64.width := by
  decide

theorem overflow_binary32 : binary32.overflow = 2 ^ (128 : Nat) - 2 ^ (103 : Nat) := by
  have hs : binary32.maxScale = 104 := by decide
  rw [overflow, hs, binary32]
  norm_num

theorem overflow_binary64_gt : 2 ^ (127 : Nat) < binary64.overflow := by
  have hs : binary64.maxScale = 971 := by decide
  have hz : (2 : ℚ) ^ (127 : Int) ≤ 2 ^ (971 : Int) := zpow_le_zpow_right₀ one_le_two (by decide)
  have hp : (0 : ℚ) < 2 ^ (971 : Int) := by positivity
  calc (2 : ℚ) ^ (127 : Nat) ≤ 2 ^ (971 : Int) := hz
    _ < (2 ^ (53 : Nat) - 1 / 2) * 2 ^ (971 : Int) := lt_mul_of_one_lt_left hp (by norm_num)
    _ = binary64.overflow := by rw [overflow, hs]; rfl

end Format

theorem abs_le_of_int128 {n : Int} (hl : -2 ^ (127 : Nat) ≤ n) (hh : n < 2 ^ (127 : Nat)) :
    |(n : ℚ)| ≤ 2 ^ (127 : Nat) := by
  have hl' : -(2 : ℚ) ^ (127 : Nat) ≤ n := by exact_mod_cast hl
  have hh' : (n : ℚ) < 2 ^ (127 : Nat) := by exact_mod_cast hh
  exact abs_le.mpr ⟨hl', hh'.le⟩

/-! ### The bytes of floating point -/

namespace Scalar

theorem pack_float32_int (o : ByteOrder) (n : Int) :
    (Scalar.mk .float32 o).pack (.int n) =
      .ok (Bytes.encode o 4 (Binary.ofInt .binary32 n).toNat) :=
  Layout.scalar_pack_ok.mpr ⟨rfl, rfl⟩

theorem pack_float64_int (o : ByteOrder) (n : Int) :
    (Scalar.mk .float64 o).pack (.int n) =
      .ok (Bytes.encode o 8 (Binary.ofInt .binary64 n).toNat) :=
  Layout.scalar_pack_ok.mpr ⟨rfl, rfl⟩

theorem pack_float32_refused (o : ByteOrder) {d : Binary64} (hf : d.isFinite)
    (hi : d.narrow.isInfinite) :
    (Scalar.mk .float32 o).pack (.float d) = .error (.valueOutOfRange (.float d) .float32) := by
  apply Layout.scalar_pack_error
  simp [Primitive.fault?, Primitive.isInteger, Primitive.kind, hf, hi]

theorem pack_float32_float {o : ByteOrder} {d : Binary64} {bytes : Bytes} :
    (Scalar.mk .float32 o).pack (.float d) = .ok bytes ↔
      ¬(d.isFinite ∧ d.narrow.isInfinite) ∧ bytes = Bytes.encode o 4 d.narrow.toNat := by
  have hfault : Primitive.fault? .float32 (.float d) = none ↔
      ¬(d.isFinite ∧ d.narrow.isInfinite) := by
    simp [Primitive.fault?, Primitive.isInteger, Primitive.kind]
  rw [← hfault]
  exact Layout.scalar_pack_ok

/-- **A number is packed as a pattern nearest to `r`**, with a given sign. -/
def PacksNearest (s : Scalar) (F : Format) (x : Number) (negative : Bool) (r : ℚ) : Prop :=
  ∃ bytes, s.pack (.number x) = .ok bytes ∧ bytes.length = s.width ∧
    (Bytes.pattern F s.order bytes).Nearest r ∧
    (Bytes.pattern F s.order bytes).negative = negative

theorem packsNearest_of_pattern {s : Scalar} {F : Format} {x : Number} {y : Binary F} {r : ℚ}
    (hF : 2 ^ (F.exponentBits + F.fractionBits + 1) = 256 ^ s.width)
    (h : s.pack (.number x) = .ok (Bytes.encode s.order s.width y.toNat)) (hy : y.Nearest r) :
    s.PacksNearest F x y.negative r := by
  refine ⟨_, h, Bytes.length_encode _ _ _, ?_⟩
  rw [Bytes.pattern_encode hF]
  exact ⟨hy, rfl⟩

theorem packsNearest_int {s : Scalar} {F : Format} (hE : 2 ≤ F.exponentBits)
    (hf : 0 < F.fractionBits) (hF : 2 ^ (F.exponentBits + F.fractionBits + 1) = 256 ^ s.width)
    {n : Int} (h : |(n : ℚ)| < F.overflow)
    (hp : s.pack (.int n) = .ok (Bytes.encode s.order s.width (Binary.ofInt F n).toNat)) :
    s.PacksNearest F (.int n) (decide (n < 0)) n := by
  have hn := packsNearest_of_pattern hF hp (Binary.nearest_ofInt hE hf h)
  rwa [Binary.ofInt, Binary.negative_round] at hn

theorem narrow_eq_convert {d : Binary64} (hd : d.isFinite) : d.narrow = d.convert .binary32 := by
  rw [Binary.narrow_of_isFinite hd, Binary.convert_of_isFinite _ hd]

theorem packsNearest_float32 (o : ByteOrder) {d : Binary64} (hd : d.isFinite)
    (h : |d.toRat| < Format.binary32.overflow) :
    (Scalar.mk .float32 o).PacksNearest .binary32 (.float d) d.negative d.toRat := by
  have hn := Binary.nearest_convert (G := .binary32) (by decide) (by decide) hd h
  rw [← narrow_eq_convert hd] at hn
  have hneg : d.narrow.negative = d.negative := by
    rw [Binary.narrow_of_isFinite hd, Binary.negative_round]
  have hfin : ¬(d.isFinite ∧ d.narrow.isInfinite) := by
    rintro ⟨-, hi⟩
    exact Bool.false_ne_true ((Binary.isInfinite_of_isFinite hn.finite).symm.trans hi)
  rw [← hneg]
  exact packsNearest_of_pattern Format.word_binary32 (pack_float32_float.mpr ⟨hfin, rfl⟩) hn

/-- **Single precision refuses from the halfway point on**, and nothing below it. -/
theorem pack_float32_refused_iff (o : ByteOrder) {d : Binary64} (hd : d.isFinite) :
    (Scalar.mk .float32 o).pack (.float d) = .error (.valueOutOfRange (.float d) .float32) ↔
      Format.binary32.overflow ≤ |d.toRat| := by
  constructor
  · intro h
    by_contra hlt
    obtain ⟨bytes, hb, -⟩ := packsNearest_float32 o hd (not_le.mp hlt)
    cases h.symm.trans hb
  · intro h
    apply pack_float32_refused o hd
    rw [narrow_eq_convert hd, Binary.convert_of_overflow (by decide) hd h]
    rfl

/-- **Floating point types round once, and to the nearest.**  A double that single precision would
round past its largest number is refused, at exactly the halfway point; every other finite double,
and every integer of 128 bits, is packed as a nearest pattern, with its own sign. -/
theorem pack_nearest (o : ByteOrder) :
    (∀ d : Binary64, d.isFinite →
      ((Scalar.mk .float32 o).pack (.float d) = .error (.valueOutOfRange (.float d) .float32) ↔
        2 ^ (128 : Nat) - 2 ^ (103 : Nat) ≤ |d.toRat|) ∧
      (|d.toRat| < 2 ^ (128 : Nat) - 2 ^ (103 : Nat) →
        (Scalar.mk .float32 o).PacksNearest .binary32 (.float d) d.negative d.toRat)) ∧
      ∀ n : Int, -2 ^ (127 : Nat) ≤ n → n < 2 ^ (127 : Nat) →
        (Scalar.mk .float32 o).PacksNearest .binary32 (.int n) (decide (n < 0)) n ∧
          (Scalar.mk .float64 o).PacksNearest .binary64 (.int n) (decide (n < 0)) n := by
  rw [← Format.overflow_binary32]
  constructor
  · intro d hd
    exact ⟨pack_float32_refused_iff o hd, packsNearest_float32 o hd⟩
  · intro n hl hh
    have ha := abs_le_of_int128 hl hh
    have h32 : |(n : ℚ)| < Format.binary32.overflow := by
      rw [Format.overflow_binary32]
      norm_num at ha ⊢
      linarith
    have h64 := lt_of_le_of_lt ha Format.overflow_binary64_gt
    exact ⟨packsNearest_int (by decide) (by decide) Format.word_binary32 h32 (pack_float32_int o n),
      packsNearest_int (by decide) (by decide) Format.word_binary64 h64 (pack_float64_int o n)⟩

/-- The double at the halfway point is refused, one halfway between two singles is packed, and so is
an integer that rounding to a double first would move to a halfway point. -/
theorem pack_nearest_halfway :
    let past : Binary64 := .ofNat 0x47effffff0000000
    let tie : Binary64 := .ofNat 0x3ff0000010000000
    let n : Int := 2 ^ (54 : Nat) + 2 ^ (30 : Nat) + 1
    (past.isFinite ∧ past.toRat = 2 ^ (128 : Nat) - 2 ^ (103 : Nat) ∧
      (Scalar.mk .float32 .bigEndian).pack (.float past) =
        .error (.valueOutOfRange (.float past) .float32)) ∧
      (tie.isFinite ∧ tie.toRat = 1 + 1 / 2 ^ (24 : Nat) ∧
        (Scalar.mk .float32 .bigEndian).PacksNearest .binary32 (.float tie) false tie.toRat) ∧
      -2 ^ (127 : Nat) ≤ n ∧ n < 2 ^ (127 : Nat) ∧
        (Scalar.mk .float32 .bigEndian).PacksNearest .binary32 (.int n) false n := by
  intro past tie n
  obtain ⟨hfloat, hint⟩ := pack_nearest .bigEndian
  have hpast : past.toRat = 2 ^ (128 : Nat) - 2 ^ (103 : Nat) := by
    have hm : past.significand = 2 ^ (53 : Nat) - 2 ^ (28 : Nat) := by decide
    have hq : past.scale = 75 := by decide
    have hn : past.negative = false := by decide
    rw [Binary.toRat, Binary.size, hm, hq, hn]
    norm_num
  have htie : tie.toRat = 1 + 1 / 2 ^ (24 : Nat) := by
    have hm : tie.significand = 2 ^ (52 : Nat) + 2 ^ (28 : Nat) := by decide
    have hq : tie.scale = -52 := by decide
    have hn : tie.negative = false := by decide
    rw [Binary.toRat, Binary.size, hm, hq, hn]
    norm_num
  have hp : past.isFinite := by decide
  have ht : tie.isFinite := by decide
  refine ⟨⟨hp, hpast, ?_⟩, ⟨ht, htie, ?_⟩, by decide, by decide, ?_⟩
  · apply (hfloat past hp).1.mpr
    rw [hpast]
    norm_num
  · apply (hfloat tie ht).2
    rw [htie]
    norm_num
  · exact (hint n (by decide) (by decide)).1

end Scalar

end ByteLayout
