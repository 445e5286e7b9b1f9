import ByteLayout.Binary.Round

/-!
# Numbers that need no rounding

`Binary.round` looks at the number `m * 2 ^ q` only through its value:
`round_mul_two_pow` moves powers of two between the factor and the exponent.
`round_significand` says a finite pattern is what its own number is rounded to,
so the two together give `round_eq_self`, the pattern back from any way to
write its number.

`round_of_fits` is the other direction: a number of few enough bits and a
middling size is rounded to a pattern that denotes exactly it, with the leading
bit of its significand in the top place.  `ofMagnitude_normal` reads the fields
of such a pattern.
-/

namespace ByteLayout

-- Powers are those of the core library.
attribute [local instance (2000)] instPowNat

/-! ### Rounding a ratio -/

theorem roundDiv_mul_right (n d c : Nat) (hc : 0 < c) :
    roundDiv (n * c) (d * c) = roundDiv n d := by
  have hm : 2 * (n % d * c) = 2 * (n % d) * c := (Nat.mul_assoc _ _ _).symm
  simp only [roundDiv, Nat.mul_mod_mul_right, Nat.mul_div_mul_right _ _ hc, hm,
    Nat.mul_lt_mul_right hc, Nat.mul_right_cancel_iff hc]

/-- **Equal ratios are rounded alike.** -/
theorem roundDiv_congr {n d n' d' : Nat} (hd : 0 < d) (hd' : 0 < d') (h : n * d' = n' * d) :
    roundDiv n d = roundDiv n' d' := by
  rw [← roundDiv_mul_right n d d' hd', h, Nat.mul_comm d d', roundDiv_mul_right n' d' d hd]

theorem roundScaled_mul_two_pow (m k : Nat) (s : Int) :
    roundScaled (m * 2 ^ k) (s - k) = roundScaled m s := by
  apply roundDiv_congr (Nat.two_pow_pos _) (Nat.two_pow_pos _)
  have he : k + (s - k).toNat + (-s).toNat = s.toNat + (-(s - k)).toNat := by omega
  rw [Nat.mul_assoc, Nat.mul_assoc, Nat.mul_assoc, ← Nat.pow_add, ← Nat.pow_add, ← Nat.pow_add,
    ← he, Nat.add_assoc]

theorem log2_mul_two_pow {m : Nat} (hm : m ≠ 0) (k : Nat) : (m * 2 ^ k).log2 = m.log2 + k := by
  have hp := Nat.two_pow_pos k
  have h0 : m * 2 ^ k ≠ 0 := by
    have := Nat.mul_pos (Nat.pos_of_ne_zero hm) hp
    omega
  obtain ⟨hl, hh⟩ := (Nat.log2_eq_iff hm).mp rfl
  have hl' := Nat.mul_le_mul_right (2 ^ k) hl
  have hh' := Nat.mul_lt_mul_of_pos_right hh hp
  rw [← Nat.pow_add] at hl' hh'
  rw [Nat.add_right_comm] at hh'
  exact (Nat.log2_eq_iff h0).mpr ⟨hl', hh'⟩

namespace Binary

variable {F : Format}

theorem roundingScale_mul_two_pow {m : Nat} (hm : m ≠ 0) (k : Nat) (q : Int) :
    roundingScale F (m * 2 ^ k) (q - k) = roundingScale F m q := by
  rw [roundingScale, roundingScale, log2_mul_two_pow hm]
  congr 2
  omega

theorem negative_round (s : Bool) (m : Nat) (q : Int) : (round F s m q).negative = s := by
  rw [round]
  split <;> rfl

/-- **Rounding looks at a number, not at how it is written.** -/
theorem round_mul_two_pow (s : Bool) (m k : Nat) (q : Int) :
    round F s (m * 2 ^ k) (q - k) = round F s m q := by
  by_cases hm : m = 0
  · simp [hm, round]
  have h0 : m * 2 ^ k ≠ 0 := by
    have := Nat.mul_pos (Nat.pos_of_ne_zero hm) (Nat.two_pow_pos k)
    omega
  have he : q - k - roundingScale F m q = q - roundingScale F m q - k := by omega
  simp only [round, hm, h0, if_false, roundingScale_mul_two_pow hm, he, roundScaled_mul_two_pow]

/-! ### The number of a finite pattern -/

theorem magnitude_eq (x : Binary F) :
    (x.scale - F.minScale).toNat * 2 ^ F.fractionBits + x.significand = x.magnitude := by
  have hs : (x.scale - F.minScale).toNat = x.exponent.val - 1 := by
    rw [scale]
    omega
  rw [hs, significand, magnitude]
  split
  · rename_i h
    simp [h]
  · rename_i h
    obtain ⟨e, he⟩ := Nat.exists_eq_succ_of_ne_zero h
    rw [he, Nat.succ_sub_one, Nat.succ_mul]
    omega

theorem magnitude_lt_infinity {x : Binary F} (h : x.isFinite) : x.magnitude < F.infinity := by
  have he : x.exponent.val < 2 ^ F.exponentBits := x.exponent.isLt
  have hf : x.fraction.val < 2 ^ F.fractionBits := x.fraction.isLt
  have hne : x.exponent.val + 1 ≠ 2 ^ F.exponentBits := by simpa [isFinite, isSpecial] using h
  have hm := Nat.mul_le_mul_right (2 ^ F.fractionBits)
    (show x.exponent.val + 1 ≤ 2 ^ F.exponentBits - 1 by omega)
  rw [Nat.succ_mul] at hm
  rw [magnitude, Format.infinity]
  omega

/-- The leading bit of a significand is that of its scale, but for the least scale. -/
theorem roundingScale_significand {x : Binary F} (h : x.significand ≠ 0) :
    roundingScale F x.significand x.scale = x.scale := by
  have hf : x.fraction.val < 2 ^ F.fractionBits := x.fraction.isLt
  by_cases he : x.exponent.val = 0
  · have hs : x.significand = x.fraction.val := by simp [significand, he]
    have hl : x.significand.log2 < F.fractionBits := (Nat.log2_lt h).mpr (hs ▸ hf)
    rw [roundingScale, scale, he]
    omega
  · have hs : x.significand = x.fraction.val + 2 ^ F.fractionBits := by simp [significand, he]
    have hl : x.significand.log2 = F.fractionBits := by
      rw [Nat.log2_eq_iff h, hs, Nat.pow_succ]
      omega
    rw [roundingScale, hl, scale]
    omega

/-- **A finite pattern is what its own number is rounded to.** -/
theorem round_significand {x : Binary F} (h : x.isFinite) :
    round F x.negative x.significand x.scale = x := by
  have hm := magnitude_eq x
  by_cases h0 : x.significand = 0
  · have he : x.exponent.val = 0 := by
      by_cases he : x.exponent.val = 0
      · exact he
      · have := Nat.two_pow_pos F.fractionBits
        simp only [significand, he, if_false] at h0
        omega
    have hz : x.magnitude = 0 := by
      rw [← hm, h0, scale, he]
      simp
    rw [round, if_pos h0, ← hz, ofMagnitude_magnitude]
  · have hr : roundScaled x.significand (x.scale - x.scale) = x.significand := by
      rw [Int.sub_self]
      simpa using roundScaled_of_nonneg x.significand 0
    rw [round, if_neg h0, roundingScale_significand h0]
    simp only [hr, hm]
    rw [Nat.min_eq_left (Nat.le_of_lt (magnitude_lt_infinity h)), ofMagnitude_magnitude]

/-- A pattern comes back from any way to write its number. -/
theorem round_eq_self {x : Binary F} (h : x.isFinite) (k : Nat) :
    round F x.negative (x.significand * 2 ^ k) (x.scale - k) = x := by
  rw [round_mul_two_pow, round_significand h]

/-! ### Words by their fields -/

theorem exponent_ofMagnitude (s : Bool) {e f : Nat} (he : e < 2 ^ F.exponentBits)
    (hf : f < 2 ^ F.fractionBits) :
    (ofMagnitude s (e * 2 ^ F.fractionBits + f) : Binary F).exponent.val = e := by
  have hd : (e * 2 ^ F.fractionBits + f) / 2 ^ F.fractionBits = e := by
    rw [Nat.mul_comm, Nat.mul_add_div (Nat.two_pow_pos _), Nat.div_eq_of_lt hf]
    rfl
  simp only [ofMagnitude, hd, Nat.mod_eq_of_lt he]

theorem fraction_ofMagnitude (s : Bool) (e : Nat) {f : Nat} (hf : f < 2 ^ F.fractionBits) :
    (ofMagnitude s (e * 2 ^ F.fractionBits + f) : Binary F).fraction.val = f := by
  simp only [ofMagnitude]
  rw [Nat.mul_comm, Nat.mul_add_mod, Nat.mod_eq_of_lt hf]

/-- **Words below the infinity are finite patterns.** -/
theorem isFinite_ofMagnitude (s : Bool) {n : Nat} (h : n < F.infinity) :
    (ofMagnitude s n : Binary F).isFinite := by
  have he : n / 2 ^ F.fractionBits < 2 ^ F.exponentBits - 1 := by
    rw [Nat.div_lt_iff_lt_mul (Nat.two_pow_pos _)]
    exact h
  have hm : n / 2 ^ F.fractionBits % 2 ^ F.exponentBits = n / 2 ^ F.fractionBits :=
    Nat.mod_eq_of_lt (Nat.lt_of_lt_of_le he (Nat.sub_le _ _))
  simp only [isFinite, isSpecial, ofMagnitude, hm, Bool.not_eq_true', beq_eq_false_iff_ne]
  omega

/-- **The word of a normal number**: a significand with its leading bit in the top place lies, with
this bit left out, below its exponent. -/
theorem ofMagnitude_normal (s : Bool) {a k : Nat} (hl : 2 ^ F.fractionBits ≤ k)
    (hh : k < 2 ^ F.fractionBits * 2) (ha : a + 2 < 2 ^ F.exponentBits) :
    (ofMagnitude s (a * 2 ^ F.fractionBits + k) : Binary F).isFinite = true ∧
      (ofMagnitude s (a * 2 ^ F.fractionBits + k) : Binary F).significand = k ∧
      (ofMagnitude s (a * 2 ^ F.fractionBits + k) : Binary F).scale = F.minScale + a := by
  have hf : k - 2 ^ F.fractionBits < 2 ^ F.fractionBits := by omega
  have hw : a * 2 ^ F.fractionBits + k =
      (a + 1) * 2 ^ F.fractionBits + (k - 2 ^ F.fractionBits) := by
    rw [Nat.succ_mul]
    omega
  have hexp := exponent_ofMagnitude s (show a + 1 < 2 ^ F.exponentBits by omega) hf
  have hfrac := fraction_ofMagnitude s (a + 1) hf
  rw [hw]
  refine ⟨?_, ?_, ?_⟩
  · rw [isFinite, isSpecial, hexp]
    simp only [Bool.not_eq_true', beq_eq_false_iff_ne]
    omega
  · rw [significand, hexp, hfrac, if_neg (Nat.succ_ne_zero a)]
    omega
  · rw [scale, hexp]
    omega

/-- Below the infinity of its sign, such a word is not cut off. -/
theorem normal_le_infinity {a k : Nat} (hh : k < 2 ^ F.fractionBits * 2)
    (ha : a + 2 < 2 ^ F.exponentBits) : a * 2 ^ F.fractionBits + k ≤ F.infinity := by
  have h := Nat.mul_le_mul_right (2 ^ F.fractionBits)
    (show a + 1 + 1 ≤ 2 ^ F.exponentBits - 1 by omega)
  rw [Nat.succ_mul, Nat.succ_mul] at h
  rw [Format.infinity]
  omega

/-- **A number that fits is rounded to itself.**  It has few enough bits, it is
not below the normal numbers and not above the finite ones; then its leading bit
is moved to the top of the significand and nothing else changes. -/
theorem round_of_fits (s : Bool) {m : Nat} {q : Int} (h0 : m ≠ 0) (hm : m.log2 ≤ F.fractionBits)
    (hlow : F.minScale ≤ m.log2 + q - F.fractionBits)
    (hhigh : (m.log2 + q - F.fractionBits - F.minScale).toNat + 2 < 2 ^ F.exponentBits) :
    (round F s m q).isFinite = true ∧ (round F s m q).negative = s ∧
      (round F s m q).significand = m * 2 ^ (F.fractionBits - m.log2) ∧
      (round F s m q).scale = q - (F.fractionBits - m.log2 : Nat) := by
  have hk0 : m * 2 ^ (F.fractionBits - m.log2) ≠ 0 :=
    Nat.mul_ne_zero h0 (Nat.ne_of_gt (Nat.two_pow_pos _))
  have hk : 2 ^ F.fractionBits ≤ m * 2 ^ (F.fractionBits - m.log2) ∧
      m * 2 ^ (F.fractionBits - m.log2) < 2 ^ F.fractionBits * 2 := by
    rw [← Nat.pow_succ, ← Nat.log2_eq_iff hk0, log2_mul_two_pow h0]
    omega
  have hu : roundingScale F m q = m.log2 + q - F.fractionBits := Int.max_eq_right hlow
  have hr : roundScaled m (q - roundingScale F m q) = m * 2 ^ (F.fractionBits - m.log2) := by
    have hq : q - roundingScale F m q = (F.fractionBits - m.log2 : Nat) := by omega
    rw [hq, roundScaled_of_nonneg]
  obtain ⟨hfin, hsig, hscale⟩ := ofMagnitude_normal s hk.1 hk.2 hhigh
  rw [round, if_neg h0]
  simp only [hr]
  rw [hu, Nat.min_eq_left (normal_le_infinity hk.2 hhigh)]
  refine ⟨hfin, rfl, hsig, ?_⟩
  rw [hscale]
  omega

end Binary

end ByteLayout
