import ByteLayout.Proofs.Binary.Count

/-!
# Rounding to the nearest pattern

`Binary.toRat` is the number that a finite pattern denotes, and `Nearest` says
of a pattern that no other one is nearer to a number, and that it is even where
another is as near.  A format has one number, `Format.overflow`, from which on
the nearest power of two would lie past the format: `nearest_round` says that
below it `round` gives a nearest pattern, with the sign of the number also where
that is zero, and `round_of_overflow` that from there on it gives an infinity.

Between the count of a number and its pattern there is only the place: by
`size_ofMagnitude` a count in its place is the word of its number, whether it
has as many bits as a significand, fewer, or one more after rounding up.
-/

namespace ByteLayout

-- Powers are those of the core library.
attribute [local instance (2000)] instPowNat

namespace Format

/-- The scale of the largest finite numbers. -/
def maxScale (F : Format) : Int := F.minScale + (2 ^ F.exponentBits - 3 : Nat)

/-- Halfway between the largest finite number and the power of two that would follow. -/
def overflow (F : Format) : ℚ := (2 ^ (F.fractionBits + 1) - 1 / 2) * 2 ^ F.maxScale

theorem overflow_pos (F : Format) : 0 < F.overflow := by
  have h : (1 : ℚ) ≤ 2 ^ (F.fractionBits + 1) := one_le_pow₀ one_le_two
  exact mul_pos (by linarith) (by positivity)

end Format

namespace Binary

variable {F : Format}

/-- **The number that a finite pattern denotes.** -/
def toRat (x : Binary F) : ℚ := if x.negative then -x.size else x.size

/-- **A finite pattern nearest to a number**, and an even one where another is as near. -/
structure Nearest (x : Binary F) (r : ℚ) : Prop where
  finite : x.isFinite
  near : ∀ y : Binary F, y.isFinite → |x.toRat - r| ≤ |y.toRat - r|
  even : ∀ y : Binary F, y.isFinite → |y.toRat - r| = |x.toRat - r| → y.toRat ≠ x.toRat →
    x.significand % 2 = 0

theorem abs_toRat (x : Binary F) : |x.toRat| = x.size := by
  rw [toRat]
  split
  · rw [abs_neg, abs_of_nonneg x.size_nonneg]
  · exact abs_of_nonneg x.size_nonneg

/-! ### The pattern of a count -/

/-- **A count in its place is the word of its number.**  Only in the lowest place has it fewer bits
than a significand, and a count one too large is the least of the next place. -/
theorem size_ofMagnitude (hf : 0 < F.fractionBits) (s : Bool) {a k : Nat}
    (hk : k ≤ 2 ^ F.fractionBits * 2) (ha : a ≠ 0 → 2 ^ F.fractionBits ≤ k)
    (h : a * 2 ^ F.fractionBits + k < F.infinity) :
    (ofMagnitude s (a * 2 ^ F.fractionBits + k) : Binary F).size = k * 2 ^ (F.minScale + a) ∧
      (k % 2 = 0 →
        (ofMagnitude s (a * 2 ^ F.fractionBits + k) : Binary F).significand % 2 = 0) := by
  have hp := Nat.two_pow_pos F.fractionBits
  have hlt : ∀ b : Nat, b * 2 ^ F.fractionBits ≤ a * 2 ^ F.fractionBits + k →
      b < 2 ^ F.exponentBits - 1 := by
    intro b hb
    exact Nat.lt_of_mul_lt_mul_right (lt_of_le_of_lt hb h)
  rcases lt_or_ge k (2 ^ F.fractionBits) with hl | hl
  · -- A subnormal number.
    obtain rfl : a = 0 := by
      by_contra h0
      exact absurd (ha h0) (not_le.mpr hl)
    have he := exponent_ofMagnitude (F := F) s (Nat.two_pow_pos _) hl
    have hr := fraction_ofMagnitude (F := F) s 0 hl
    have hsig : (ofMagnitude s (0 * 2 ^ F.fractionBits + k) : Binary F).significand = k := by
      rw [significand, he, hr, if_pos rfl]
    rw [size, hsig, scale, he]
    exact ⟨rfl, id⟩
  rcases lt_or_eq_of_le hk with hh | rfl
  · -- A normal number.
    have hb := hlt (a + 1) (by rw [Nat.succ_mul]; omega)
    obtain ⟨-, hsig, hscale⟩ := ofMagnitude_normal s hl hh
      (show a + 2 < 2 ^ F.exponentBits by omega)
    rw [size, hsig, hscale]
    exact ⟨rfl, id⟩
  · -- The count was rounded up to the next power of two.
    have hb := hlt (a + 2) (by rw [Nat.add_mul]; omega)
    have hw : a * 2 ^ F.fractionBits + 2 ^ F.fractionBits * 2 =
        (a + 1) * 2 ^ F.fractionBits + 2 ^ F.fractionBits := by
      rw [Nat.succ_mul]
      omega
    obtain ⟨-, hsig, hscale⟩ := ofMagnitude_normal s (le_refl _) (by omega)
      (show a + 1 + 2 < 2 ^ F.exponentBits by omega)
    rw [hw, size, hsig, hscale]
    constructor
    · push_cast
      rw [← add_assoc, zpow_add₀ two_ne_zero, zpow_one]
      ring
    · intro _
      obtain ⟨p, hp⟩ := Nat.exists_eq_succ_of_ne_zero hf.ne'
      rw [hp, Nat.pow_succ]
      omega

/-! ### Past the largest number -/

/-- In the place of the largest numbers, the count decides. -/
theorem count_lt_iff {m : Nat} {q : Int} :
    count F m q < 2 ^ F.fractionBits * 2 ↔
      (m : ℚ) * 2 ^ (q - roundingScale F m q) < 2 ^ (F.fractionBits + 1) - 1 / 2 := by
  obtain ⟨hh, he⟩ := roundScaled_spec m (q - roundingScale F m q)
  have hd := abs_le.mp hh
  constructor
  · intro hk
    by_contra hc
    have hk1 : (count F m q : ℚ) ≤ 2 ^ (F.fractionBits + 1) - 1 := by
      have hcast : ((count F m q + 1 : Nat) : ℚ) ≤ (2 ^ F.fractionBits * 2 : Nat) := by
        exact_mod_cast Nat.succ_le_of_lt hk
      push_cast at hcast
      rw [pow_succ]
      linarith
    rw [count] at hk1
    -- The count is one less than a power of two, and so it is odd, but it is rounded from halfway.
    have hhalf : |(roundScaled m (q - roundingScale F m q) : ℚ) -
        m * 2 ^ (q - roundingScale F m q)| = 1 / 2 := by
      rw [abs_sub_comm, abs_of_nonneg (by linarith)]
      linarith
    have hodd : (count F m q : ℚ) + 1 = (2 ^ F.fractionBits * 2 : Nat) := by
      push_cast
      rw [count, ← pow_succ]
      linarith
    have hodd' : count F m q + 1 = 2 ^ F.fractionBits * 2 := by exact_mod_cast hodd
    have heven : count F m q % 2 = 0 := he hhalf
    omega
  · intro hc
    have hk : (count F m q : ℚ) < (2 ^ F.fractionBits * 2 : Nat) := by
      rw [count]
      push_cast
      rw [pow_succ] at hc
      linarith
    exact_mod_cast hk

theorem infinity_eq (hE : 2 ≤ F.exponentBits) :
    F.infinity = (2 ^ F.exponentBits - 3) * 2 ^ F.fractionBits + 2 ^ F.fractionBits * 2 := by
  have h4 : 2 ^ 2 ≤ 2 ^ F.exponentBits := Nat.pow_le_pow_right (by decide) hE
  have hN : 2 ^ F.exponentBits - 1 = 2 ^ F.exponentBits - 3 + 2 := by omega
  rw [Format.infinity, hN, Nat.add_mul, Nat.mul_comm 2]

/-- **A number is rounded to a finite word exactly below the halfway point.**  In a lower place than
the highest both sides hold, in a higher one neither does. -/
theorem word_lt_infinity_iff (hE : 2 ≤ F.exponentBits) {m : Nat} (hm : m ≠ 0) (q : Int) :
    (roundingScale F m q - F.minScale).toNat * 2 ^ F.fractionBits + count F m q < F.infinity ↔
      (m : ℚ) * 2 ^ q < F.overflow := by
  have hu : F.minScale ≤ roundingScale F m q := le_max_left _ _
  have hp := Nat.two_pow_pos F.fractionBits
  have hp' : (1 : ℚ) ≤ 2 ^ F.fractionBits := one_le_pow₀ one_le_two
  have hmax : (0 : ℚ) < 2 ^ F.maxScale := by positivity
  have hdef : F.maxScale = F.minScale + (2 ^ F.exponentBits - 3 : Nat) := rfl
  rw [infinity_eq hE, mul_zpow_eq m q (roundingScale F m q), Format.overflow]
  rcases lt_trichotomy (roundingScale F m q) F.maxScale with h | h | h
  · -- In a lower place the largest count still makes a finite word.
    have hw : ((roundingScale F m q - F.minScale).toNat + 1) * 2 ^ F.fractionBits ≤
        (2 ^ F.exponentBits - 3) * 2 ^ F.fractionBits :=
      Nat.mul_le_mul_right _ (by omega)
    have hk := count_le (F := F) m q
    have hz : (2 : ℚ) ^ (roundingScale F m q + 1) ≤ 2 ^ F.maxScale :=
      zpow_le_zpow_right₀ one_le_two h
    have hc := mul_lt_mul_of_pos_right (exact_count_lt (F := F) m q)
      (show (0 : ℚ) < 2 ^ roundingScale F m q by positivity)
    refine iff_of_true (by rw [Nat.succ_mul] at hw; omega) ?_
    rw [zpow_add₀ two_ne_zero, zpow_one] at hz
    rw [pow_succ] at hc ⊢
    nlinarith
  · -- In the highest place the count decides.
    have hw : (roundingScale F m q - F.minScale).toNat = 2 ^ F.exponentBits - 3 := by omega
    rw [hw, h, mul_lt_mul_iff_left₀ hmax, ← h, ← count_lt_iff]
    exact Nat.add_lt_add_iff_left
  · -- Past it the least count, that of a leading bit alone, is too large.
    have hw : (2 ^ F.exponentBits - 3 + 1) * 2 ^ F.fractionBits ≤
        (roundingScale F m q - F.minScale).toNat * 2 ^ F.fractionBits :=
      Nat.mul_le_mul_right _ (by omega)
    have hlow : F.minScale < roundingScale F m q := by omega
    have hk := le_count hm hlow
    have hz : (2 : ℚ) ^ (F.maxScale + 1) ≤ 2 ^ roundingScale F m q :=
      zpow_le_zpow_right₀ one_le_two h
    have hc := mul_le_mul_of_nonneg_right (le_exact_count hm hlow)
      (show (0 : ℚ) ≤ 2 ^ roundingScale F m q by positivity)
    refine iff_of_false (by rw [Nat.succ_mul] at hw; omega) ?_
    rw [zpow_add₀ two_ne_zero, zpow_one] at hz
    rw [pow_succ]
    nlinarith

/-! ### Rounding -/

/-- The opposite of a pattern lies across zero. -/
theorem abs_sub_of_opposite {x y : Binary F} {r : ℚ} (hr : 0 < r) (hs : y.size = x.size)
    (hne : y.toRat ≠ x.toRat) : |y.toRat - if x.negative then -r else r| = x.size + r := by
  have hx := x.size_nonneg
  rw [toRat, toRat, hs] at hne
  rw [toRat, hs]
  cases hnx : x.negative <;> cases hny : y.negative <;>
    simp only [hnx, hny, Bool.false_eq_true, if_true, if_false] at hne ⊢
  · exact absurd rfl hne
  · rw [← neg_add', abs_neg, abs_of_pos (by linarith)]
  · rw [sub_neg_eq_add, abs_of_pos (by linarith)]
  · exact absurd rfl hne

/-- **Nearness on one side of zero is enough.**  A pattern of the other sign lies no nearer than
the one with its size on this side. -/
theorem Nearest.of_size {x : Binary F} {r : ℚ} (hr : 0 < r) (hx : x.isFinite)
    (h : ∀ y : Binary F, |x.size - r| ≤ |y.size - r| ∧
      (|y.size - r| = |x.size - r| → y.size ≠ x.size → x.significand % 2 = 0)) :
    x.Nearest (if x.negative then -r else r) := by
  have hsame : |x.toRat - if x.negative then -r else r| = |x.size - r| := by
    rw [toRat]
    split
    · rw [← abs_neg]
      congr 1
      ring
    · rfl
  have hother : ∀ y : Binary F, |y.size - r| ≤ |y.toRat - if x.negative then -r else r| := by
    intro y
    have hr' : |if x.negative then -r else r| = r := by
      split
      · rw [abs_neg, abs_of_pos hr]
      · exact abs_of_pos hr
    have := abs_abs_sub_abs_le y.toRat (if x.negative then -r else r)
    rwa [abs_toRat, hr'] at this
  refine ⟨hx, fun y _ => ?_, fun y _ htie hne => ?_⟩
  · rw [hsame]
    exact le_trans (h y).1 (hother y)
  · rw [hsame] at htie
    have heq : |y.size - r| = |x.size - r| := le_antisymm (htie ▸ hother y) (h y).1
    apply (h y).2 heq
    -- With the size of `x` but another number, `y` is the opposite of `x` and lies further away.
    intro hs
    have hpos : 0 < x.size := by
      apply lt_of_le_of_ne x.size_nonneg
      intro h0
      apply hne
      simp [toRat, hs, ← h0]
    have hnear : |x.size - r| < x.size + r := abs_lt.mpr ⟨by linarith, by linarith⟩
    have hfar := abs_sub_of_opposite hr hs hne
    linarith

theorem nearest_zero (hE : 2 ≤ F.exponentBits) (s : Bool) :
    (ofMagnitude s 0 : Binary F).Nearest 0 := by
  have hz : (ofMagnitude s 0 : Binary F).toRat = 0 := by
    simp [toRat, size, significand, ofMagnitude]
  have hpos : 0 < F.infinity := by
    rw [infinity_eq hE]
    have := Nat.two_pow_pos F.fractionBits
    omega
  refine ⟨isFinite_ofMagnitude s hpos, fun y _ => ?_, fun y _ htie hne => ?_⟩
  · rw [hz, sub_self, abs_zero]
    exact abs_nonneg _
  · rw [hz, sub_self, abs_zero, sub_zero] at htie
    exact absurd (abs_eq_zero.mp htie) (hz ▸ hne)

theorem round_eq (s : Bool) {m : Nat} (hm : m ≠ 0) (q : Int) :
    round F s m q =
      ofMagnitude s (min ((roundingScale F m q - F.minScale).toNat * 2 ^ F.fractionBits +
        count F m q) F.infinity) := by
  rw [round, if_neg hm]
  rfl

/-- **Below the halfway point a number is rounded to the nearest pattern.** -/
theorem nearest_round (hE : 2 ≤ F.exponentBits) (hf : 0 < F.fractionBits) (s : Bool) {m : Nat}
    {q : Int} (h : (m : ℚ) * 2 ^ q < F.overflow) :
    (round F s m q).Nearest (if s then -(m * 2 ^ q) else m * 2 ^ q) := by
  by_cases hm : m = 0
  · have h0 : (if s then -((m : ℚ) * 2 ^ q) else m * 2 ^ q) = 0 := by simp [hm]
    rw [h0, round, if_pos hm]
    exact nearest_zero hE s
  have hw := (word_lt_infinity_iff hE hm q).mpr h
  have hu : F.minScale ≤ roundingScale F m q := le_max_left _ _
  have ha : (roundingScale F m q - F.minScale).toNat ≠ 0 → 2 ^ F.fractionBits ≤ count F m q := by
    intro h0
    exact le_count hm (by omega)
  have hx := round_eq (F := F) s hm q
  rw [Nat.min_eq_left hw.le] at hx
  obtain ⟨hsize, heven⟩ := size_ofMagnitude hf s (count_le m q) ha hw
  have hscale : F.minScale + ((roundingScale F m q - F.minScale).toNat : Int) =
      roundingScale F m q := by
    omega
  rw [hscale] at hsize
  have hr : (0 : ℚ) < m * 2 ^ q :=
    mul_pos (by exact_mod_cast Nat.pos_of_ne_zero hm) (by positivity)
  have hn := Nearest.of_size (x := round F s m q) hr (by rw [hx]; exact isFinite_ofMagnitude s hw)
  rw [negative_round] at hn
  apply hn
  intro y
  obtain ⟨hnear, htie⟩ := count_nearest hm q y
  rw [hx, hsize]
  exact ⟨hnear, fun h hne => heven (htie h hne)⟩

/-- **From the halfway point on a number is rounded to an infinity.** -/
theorem round_of_overflow (hE : 2 ≤ F.exponentBits) (s : Bool) {m : Nat} {q : Int}
    (h : F.overflow ≤ m * 2 ^ q) : round F s m q = infinite s := by
  have hm : m ≠ 0 := by
    rintro rfl
    have := F.overflow_pos
    rw [Nat.cast_zero, zero_mul] at h
    linarith
  have hw := mt (word_lt_infinity_iff hE hm q).mp (not_lt.mpr h)
  rw [round_eq s hm, Nat.min_eq_right (not_lt.mp hw), infinite]

/-! ### Integers and patterns of the other format -/

theorem nearest_ofInt (hE : 2 ≤ F.exponentBits) (hf : 0 < F.fractionBits) {n : Int}
    (h : |(n : ℚ)| < F.overflow) : (ofInt F n).Nearest n := by
  have ha : ((n.natAbs : Nat) : ℚ) = |(n : ℚ)| := by rw [Nat.cast_natAbs, Int.cast_abs]
  have hr : (if decide (n < 0) then -((n.natAbs : ℚ) * 2 ^ (0 : Int))
      else n.natAbs * 2 ^ (0 : Int)) = (n : ℚ) := by
    rw [zpow_zero, mul_one, ha]
    by_cases h0 : n < 0
    · rw [if_pos (by simpa using h0), abs_of_neg (by exact_mod_cast h0), neg_neg]
    · rw [if_neg (by simpa using h0), abs_of_nonneg (by exact_mod_cast not_lt.mp h0)]
  rw [ofInt, ← hr]
  apply nearest_round hE hf
  rwa [zpow_zero, mul_one, ha]

theorem convert_of_isFinite (G : Format) {x : Binary F} (h : x.isFinite) :
    x.convert G = round G x.negative x.significand x.scale := by
  have hs : x.isSpecial = false := by simpa [isFinite] using h
  simp [convert, hs]

/-- **Conversion is rounding of the number denoted**, up to the halfway point past the format. -/
theorem nearest_convert {G : Format} (hE : 2 ≤ G.exponentBits) (hf : 0 < G.fractionBits)
    {x : Binary F} (h : x.isFinite) (ho : |x.toRat| < G.overflow) :
    (x.convert G).Nearest x.toRat := by
  rw [abs_toRat] at ho
  rw [convert_of_isFinite G h]
  exact nearest_round hE hf x.negative ho

theorem convert_of_overflow {G : Format} (hE : 2 ≤ G.exponentBits) {x : Binary F}
    (h : x.isFinite) (ho : G.overflow ≤ |x.toRat|) : x.convert G = infinite x.negative := by
  rw [abs_toRat] at ho
  rw [convert_of_isFinite G h]
  exact round_of_overflow hE x.negative ho

end Binary

end ByteLayout
