import ByteLayout.Proofs.Binary.Exact

/-!
# Single precision inside double precision

`widen` loses nothing: `narrow_widen` gives every pattern of `binary32` back,
NaNs with their payloads, both zeros, subnormals and infinities.  The three
kinds of patterns go three ways.  A NaN is moved by its payload, an infinity
stays one, and a finite number fits into `binary64`, so that `round_of_fits`
says what it becomes there and `round_eq_self` brings it back.

`isFinite_widen` is the other half of what packing asks: a pattern that is
finite in double precision was finite before.
-/

namespace ByteLayout

-- Powers are those of the core library.
attribute [local instance (2000)] instPowNat

namespace Binary

variable {F : Format}

/-! ### Infinities and NaNs by their fields -/

theorem isSpecial_iff (x : Binary F) :
    x.isSpecial = true ↔ x.exponent.val = 2 ^ F.exponentBits - 1 := by
  have := Nat.two_pow_pos F.exponentBits
  rw [isSpecial, beq_iff_eq]
  omega

theorem isSpecial_of_isNaN {x : Binary F} (h : x.isNaN) : x.isSpecial := by
  rw [isNaN, Bool.and_eq_true] at h
  exact h.1

theorem isNaN_of_isFinite {x : Binary F} (h : x.isFinite) : x.isNaN = false := by
  simp_all [isFinite, isNaN]

theorem isInfinite_of_isFinite {x : Binary F} (h : x.isFinite) : x.isInfinite = false := by
  simp_all [isFinite, isInfinite]

theorem magnitude_of_isSpecial {x : Binary F} (h : x.isSpecial) :
    x.magnitude = F.infinity + x.fraction.val := by
  rw [magnitude, (isSpecial_iff x).mp h, Format.infinity]

@[simp] theorem negative_nan (s : Bool) (payload : Nat) :
    (nan s payload : Binary F).negative = s := rfl

theorem isSpecial_nan (s : Bool) {payload : Nat} (h : payload < 2 ^ F.fractionBits) :
    (nan s payload : Binary F).isSpecial := by
  have := Nat.two_pow_pos F.exponentBits
  rw [isSpecial_iff, nan, Format.infinity, exponent_ofMagnitude s (by omega) h]

theorem fraction_nan (s : Bool) {payload : Nat} (h : payload < 2 ^ F.fractionBits) :
    (nan s payload : Binary F).fraction.val = payload := by
  rw [nan, Format.infinity, fraction_ofMagnitude s _ h]

/-- A pattern with every exponent bit set is its sign and its payload. -/
theorem nan_fraction {x : Binary F} (h : x.isSpecial) : nan x.negative x.fraction.val = x := by
  rw [nan, ← magnitude_of_isSpecial h, ofMagnitude_magnitude]

theorem infinite_eq_nan (s : Bool) : (infinite s : Binary F) = nan s 0 := rfl

theorem isSpecial_infinite (s : Bool) : (infinite s : Binary F).isSpecial :=
  isSpecial_nan s (Nat.two_pow_pos _)

theorem isNaN_infinite (s : Bool) : (infinite s : Binary F).isNaN = false := by
  rw [isNaN, infinite_eq_nan, fraction_nan s (Nat.two_pow_pos _)]
  simp

theorem infinite_negative {x : Binary F} (hs : x.isSpecial) (hn : x.isNaN = false) :
    infinite x.negative = x := by
  have hf : x.fraction.val = 0 := by simpa [isNaN, hs] using hn
  rw [infinite_eq_nan, ← hf, nan_fraction hs]

/-! ### Into double precision -/

theorem widen_of_isNaN {x : Binary32} (h : x.isNaN) :
    x.widen = nan x.negative (x.fraction.val * 2 ^ payloadGap) := by
  rw [widen, if_pos h]

theorem widen_of_infinite {x : Binary32} (hs : x.isSpecial) (hn : x.isNaN = false) :
    x.widen = infinite x.negative := by
  rw [widen, hn, if_neg Bool.false_ne_true, convert, if_pos hs]

theorem widen_of_isFinite {x : Binary32} (h : x.isFinite) :
    x.widen = round .binary64 x.negative x.significand x.scale := by
  have hs : x.isSpecial = false := by simpa [isFinite] using h
  simp [widen, isNaN, hs, convert]

theorem payload_lt (x : Binary32) :
    x.fraction.val * 2 ^ payloadGap < 2 ^ Format.binary64.fractionBits := by
  have h : x.fraction.val < 2 ^ 23 := x.fraction.isLt
  have he : 2 ^ Format.binary64.fractionBits = 2 ^ 23 * 2 ^ payloadGap := by decide
  rw [he]
  exact Nat.mul_lt_mul_of_pos_right h (Nat.two_pow_pos _)

/-- The scales of single precision. -/
theorem scale_bounds {x : Binary32} (h : x.isFinite) : -149 ≤ x.scale ∧ x.scale ≤ 104 := by
  have he : x.exponent.val < 2 ^ 8 := x.exponent.isLt
  have hne : ¬x.isSpecial = true := by simpa [isFinite] using h
  have he8 : 2 ^ Format.binary32.exponentBits = 256 := by decide
  rw [isSpecial_iff] at hne
  have hm : Format.binary32.minScale = -149 := by decide
  rw [scale, hm]
  omega

theorem log2_significand_le {x : Binary32} (h : x.significand ≠ 0) : x.significand.log2 ≤ 23 := by
  have hf : x.fraction.val < 2 ^ 23 := x.fraction.isLt
  have hb : x.significand < 2 ^ 24 := by
    rw [significand]
    split
    · omega
    · have : 2 ^ Format.binary32.fractionBits = 2 ^ 23 := rfl
      omega
  have := (Nat.log2_lt h).mpr hb
  omega

/-- **A single other than zero is a normal number of double precision**, its leading bit moved up
to the top of the longer significand. -/
theorem widen_of_significand_ne_zero {x : Binary32} (h : x.isFinite) (h0 : x.significand ≠ 0) :
    x.widen.isFinite = true ∧ x.widen.negative = x.negative ∧
      x.widen.significand = x.significand * 2 ^ (52 - x.significand.log2) ∧
      x.widen.scale = x.scale - (52 - x.significand.log2 : Nat) := by
  obtain ⟨hl, hh⟩ := scale_bounds h
  have hb := log2_significand_le h0
  have hp : Format.binary64.fractionBits = 52 := rfl
  have hm : Format.binary64.minScale = -1074 := by decide
  have he : 2 ^ Format.binary64.exponentBits = 2048 := by decide
  rw [widen_of_isFinite h]
  exact round_of_fits x.negative h0 (by omega) (by omega) (by omega)

theorem widen_of_significand_zero {x : Binary32} (h : x.isFinite) (h0 : x.significand = 0) :
    x.widen = ofMagnitude x.negative 0 := by
  rw [widen_of_isFinite h, round, if_pos h0]

/-- **Widening makes nothing finite that was not**, and nothing infinite that was finite. -/
theorem isFinite_widen (x : Binary32) : x.widen.isFinite = x.isFinite := by
  cases hf : x.isFinite with
  | true =>
    by_cases h0 : x.significand = 0
    · rw [widen_of_significand_zero hf h0]
      rfl
    · exact (widen_of_significand_ne_zero hf h0).1
  | false =>
    have hs : x.isSpecial := by simpa [isFinite] using hf
    cases hn : x.isNaN with
    | true => rw [widen_of_isNaN hn, isFinite, isSpecial_nan _ (payload_lt x)]; rfl
    | false => rw [widen_of_infinite hs hn, isFinite, isSpecial_infinite]; rfl

/-! ### And back -/

theorem narrow_of_isFinite {x : Binary64} (h : x.isFinite) :
    x.narrow = round .binary32 x.negative x.significand x.scale := by
  have hs : x.isSpecial = false := by simpa [isFinite] using h
  simp [narrow, isNaN, hs, convert]

theorem narrow_widen_of_isNaN {x : Binary32} (h : x.isNaN) : x.widen.narrow = x := by
  obtain ⟨hs, hf⟩ : x.isSpecial = true ∧ x.fraction.val ≠ 0 := by simpa [isNaN] using h
  have hw := widen_of_isNaN h
  have hfw : x.widen.fraction.val = x.fraction.val * 2 ^ payloadGap := by
    rw [hw, fraction_nan _ (payload_lt x)]
  have hnw : x.widen.isNaN := by
    have hp := Nat.mul_pos (Nat.pos_of_ne_zero hf) (Nat.two_pow_pos payloadGap)
    rw [isNaN, hfw, hw, isSpecial_nan _ (payload_lt x), Bool.true_and]
    exact bne_iff_ne.mpr (Nat.ne_of_gt hp)
  have hd : x.widen.fraction.val / 2 ^ payloadGap = x.fraction.val := by
    rw [hfw, Nat.mul_div_cancel _ (Nat.two_pow_pos _)]
  rw [narrow, if_pos hnw]
  simp only [hd, if_neg hf]
  rw [hw, negative_nan, nan_fraction hs]

theorem narrow_widen_of_isFinite {x : Binary32} (h : x.isFinite) : x.widen.narrow = x := by
  have hw : x.widen.isFinite := by rw [isFinite_widen, h]
  by_cases h0 : x.significand = 0
  · have hx := round_significand h
    rw [round, if_pos h0] at hx
    rw [narrow_of_isFinite hw, widen_of_significand_zero h h0, ← hx]
    rfl
  · obtain ⟨-, hn, hm, hq⟩ := widen_of_significand_ne_zero h h0
    rw [narrow_of_isFinite hw, hn, hm, hq, round_eq_self h]

/-- **Single precision lies in double precision bit for bit.** -/
theorem narrow_widen (x : Binary32) : x.widen.narrow = x := by
  cases hn : x.isNaN with
  | true => exact narrow_widen_of_isNaN hn
  | false =>
    cases hs : x.isSpecial with
    | true =>
      have hw := widen_of_infinite hs hn
      rw [hw, narrow, isNaN_infinite, if_neg Bool.false_ne_true, convert,
        if_pos (isSpecial_infinite _)]
      exact infinite_negative hs hn
    | false => exact narrow_widen_of_isFinite (by rw [isFinite, hs]; rfl)

end Binary

end ByteLayout
