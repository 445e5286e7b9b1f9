import ByteLayout.Proofs.Binary.Exact
import Mathlib.Algebra.Order.Field.Power
import Mathlib.Data.Rat.Cast.Order
import Mathlib.Tactic.FieldSimp
import Mathlib.Tactic.Linarith
import Mathlib.Tactic.NormNum
import Mathlib.Tactic.Positivity
import Mathlib.Tactic.Ring

/-!
# The count of a number in its unit

A number `m * 2 ^ q` is rounded by counting how often the unit of its scale goes
into it.  The count is the nearest integer (`roundScaled_nearest`), which says
nothing yet about patterns, since those of other scales have other units.

`count_nearest` is about all of them.  A pattern whose unit is no smaller is a
multiple of the unit, so it is among the integers that were looked at.  A
pattern whose unit is smaller lies below the leading bit of the number, and the
leading bit alone is nearer.
-/

namespace ByteLayout

-- Powers are those of the core library.
attribute [local instance (2000)] instPowNat

/-! ### The nearest integer -/

/-- What is rounded from halfway is even. -/
theorem even_roundDiv : ∀ n d : Nat, 0 < d →
    2 * (roundDiv n d * d) = 2 * n + d ∨ 2 * n = 2 * (roundDiv n d * d) + d →
      roundDiv n d % 2 = 0 := by
  intro n d hd
  have hdm := Nat.div_add_mod n d
  have hr := Nat.mod_lt n hd
  rw [Nat.mul_comm] at hdm
  unfold roundDiv
  split
  · omega
  · rw [Nat.add_mul, Nat.one_mul]
    omega

theorem ratio_eq_mul_zpow (m : Nat) (s : Int) :
    ((m * 2 ^ s.toNat : Nat) : ℚ) / (2 ^ (-s).toNat : Nat) = m * 2 ^ s := by
  have hs : s = (s.toNat : Int) - ((-s).toNat : Int) := by omega
  conv_rhs => rw [hs, zpow_sub₀ two_ne_zero, zpow_natCast, zpow_natCast]
  push_cast
  ring

/-- **The nearest integer to a ratio** is within a half, and even at a half. -/
theorem roundDiv_spec (n : Nat) {d : Nat} (hd : 0 < d) :
    |(roundDiv n d : ℚ) - n / d| ≤ 1 / 2 ∧
      (|(roundDiv n d : ℚ) - n / d| = 1 / 2 → roundDiv n d % 2 = 0) := by
  have hq : (0 : ℚ) < d := by exact_mod_cast hd
  have hx : ((roundDiv n d : ℚ) - n / d) * (2 * d) = 2 * (roundDiv n d * d) - 2 * n := by
    field_simp
  obtain ⟨hl, hh⟩ := roundDiv_near n d hd
  have hl' : 2 * ((roundDiv n d : ℚ) * d) ≤ 2 * n + d := by exact_mod_cast hl
  have hh' : 2 * (n : ℚ) ≤ 2 * (roundDiv n d * d) + d := by exact_mod_cast hh
  refine ⟨abs_le.mpr ⟨?_, ?_⟩, ?_⟩
  · exact le_of_mul_le_mul_right (by linarith) (by linarith : (0 : ℚ) < 2 * d)
  · exact le_of_mul_le_mul_right (by linarith) (by linarith : (0 : ℚ) < 2 * d)
  · intro h
    apply even_roundDiv n d hd
    rcases eq_or_eq_neg_of_abs_eq h with h | h
    · left
      rw [h] at hx
      have : 2 * ((roundDiv n d : ℚ) * d) = 2 * n + d := by linarith
      exact_mod_cast this
    · right
      rw [h] at hx
      have : 2 * (n : ℚ) = 2 * (roundDiv n d * d) + d := by linarith
      exact_mod_cast this

theorem roundScaled_spec (m : Nat) (s : Int) :
    |(roundScaled m s : ℚ) - m * 2 ^ s| ≤ 1 / 2 ∧
      (|(roundScaled m s : ℚ) - m * 2 ^ s| = 1 / 2 → roundScaled m s % 2 = 0) := by
  rw [← ratio_eq_mul_zpow]
  exact roundDiv_spec _ (Nat.two_pow_pos _)

/-- **No integer is nearer**, and where another is as near, the rounded one is even. -/
theorem roundScaled_nearest (m : Nat) (s j : Int) :
    |(roundScaled m s : ℚ) - m * 2 ^ s| ≤ |(j : ℚ) - m * 2 ^ s| ∧
      (|(j : ℚ) - m * 2 ^ s| = |(roundScaled m s : ℚ) - m * 2 ^ s| →
        j ≠ roundScaled m s → roundScaled m s % 2 = 0) := by
  obtain ⟨hh, he⟩ := roundScaled_spec m s
  by_cases hj : j = roundScaled m s
  · subst hj
    exact ⟨le_of_eq (by push_cast; rfl), fun _ hne => absurd rfl hne⟩
  -- Two integers are a unit apart, so that one of them is no nearer than a half.
  have h1 : (1 : ℚ) ≤ |(j : ℚ) - roundScaled m s| := by
    have : 1 ≤ |j - roundScaled m s| := Int.one_le_abs (sub_ne_zero.mpr hj)
    exact_mod_cast this
  have ht := abs_sub_le (j : ℚ) (m * 2 ^ s) (roundScaled m s)
  rw [abs_sub_comm ((m : ℚ) * 2 ^ s)] at ht
  exact ⟨by linarith, fun h _ => he (by linarith)⟩

namespace Binary

variable {F : Format}

/-! ### The count -/

/-- How often the unit of its scale goes into the number `m * 2 ^ q`, rounded. -/
def count (F : Format) (m : Nat) (q : Int) : Nat := roundScaled m (q - roundingScale F m q)

theorem mul_zpow_eq (m : Nat) (q u : Int) : (m : ℚ) * 2 ^ q = m * 2 ^ (q - u) * 2 ^ u := by
  rw [mul_assoc, ← zpow_add₀ two_ne_zero, sub_add_cancel]

theorem abs_mul_zpow_sub (m : Nat) (q u : Int) (a : ℚ) :
    |a * 2 ^ u - m * 2 ^ q| = |a - m * 2 ^ (q - u)| * 2 ^ u := by
  have hp : (0 : ℚ) < 2 ^ u := by positivity
  rw [mul_zpow_eq m q u, ← sub_mul, abs_mul, abs_of_pos hp]

theorem exact_count_lt (m : Nat) (q : Int) :
    (m : ℚ) * 2 ^ (q - roundingScale F m q) < 2 ^ (F.fractionBits + 1) := by
  have hl : (m : ℚ) < 2 ^ (m.log2 + 1) := by exact_mod_cast Nat.lt_log2_self
  have hu : m.log2 + q - F.fractionBits ≤ roundingScale F m q := le_max_right _ _
  calc (m : ℚ) * 2 ^ (q - roundingScale F m q)
      < 2 ^ (m.log2 + 1) * 2 ^ (q - roundingScale F m q) :=
        mul_lt_mul_of_pos_right hl (by positivity)
    _ = 2 ^ ((m.log2 + 1 : Nat) + (q - roundingScale F m q)) := by
        rw [zpow_add₀ two_ne_zero, zpow_natCast]
    _ ≤ 2 ^ ((F.fractionBits + 1 : Nat) : Int) :=
        zpow_le_zpow_right₀ one_le_two (by push_cast; omega)
    _ = 2 ^ (F.fractionBits + 1) := zpow_natCast _ _

theorem le_exact_count {m : Nat} (hm : m ≠ 0) {q : Int} (hu : F.minScale < roundingScale F m q) :
    (2 : ℚ) ^ F.fractionBits ≤ m * 2 ^ (q - roundingScale F m q) := by
  have hl : (2 : ℚ) ^ m.log2 ≤ m := by exact_mod_cast Nat.log2_self_le hm
  have he : q - roundingScale F m q = F.fractionBits - m.log2 := by
    rw [roundingScale] at hu ⊢
    omega
  calc (2 : ℚ) ^ F.fractionBits
      = 2 ^ m.log2 * 2 ^ ((F.fractionBits : Int) - m.log2) := by
        rw [← zpow_natCast, ← zpow_natCast, ← zpow_add₀ two_ne_zero]
        congr 1
        omega
    _ ≤ m * 2 ^ (q - roundingScale F m q) := by
        rw [he]
        exact mul_le_mul_of_nonneg_right hl (by positivity)

theorem count_le (m : Nat) (q : Int) : count F m q ≤ 2 ^ F.fractionBits * 2 := by
  have h := (abs_le.mp (roundScaled_spec m (q - roundingScale F m q)).1).2
  have hc := exact_count_lt (F := F) m q
  have hk : (count F m q : ℚ) < (2 ^ F.fractionBits * 2 : Nat) + 1 := by
    rw [pow_succ] at hc
    rw [count]
    push_cast
    linarith
  exact Nat.lt_succ_iff.mp (by exact_mod_cast hk)

theorem le_count {m : Nat} (hm : m ≠ 0) {q : Int} (hu : F.minScale < roundingScale F m q) :
    2 ^ F.fractionBits ≤ count F m q := by
  have h := (abs_le.mp (roundScaled_spec m (q - roundingScale F m q)).1).1
  have hc := le_exact_count hm hu
  have hk : ((2 ^ F.fractionBits : Nat) : ℚ) < count F m q + 1 := by
    rw [count]
    push_cast
    linarith
  exact Nat.lt_succ_iff.mp (by exact_mod_cast hk)

/-! ### No pattern is nearer -/

/-- How far from zero the number of a finite pattern lies. -/
def size (x : Binary F) : ℚ := x.significand * 2 ^ x.scale

theorem size_nonneg (x : Binary F) : 0 ≤ x.size := by
  rw [size]
  positivity

theorem significand_lt (x : Binary F) : x.significand < 2 ^ F.fractionBits * 2 := by
  have hf : x.fraction.val < 2 ^ F.fractionBits := x.fraction.isLt
  rw [significand]
  split <;> omega

theorem minScale_le_scale (x : Binary F) : F.minScale ≤ x.scale := by
  rw [scale]
  omega

/-- A pattern lies below the leading bit of the next scale. -/
theorem size_lt (x : Binary F) : x.size < 2 ^ F.fractionBits * 2 ^ (x.scale + 1) := by
  have hs : (x.significand : ℚ) < 2 ^ F.fractionBits * 2 := by exact_mod_cast x.significand_lt
  calc x.size < 2 ^ F.fractionBits * 2 * 2 ^ x.scale :=
        mul_lt_mul_of_pos_right hs (by positivity)
    _ = 2 ^ F.fractionBits * 2 ^ (x.scale + 1) := by
        rw [zpow_add₀ two_ne_zero, zpow_one]
        ring

/-- A pattern whose unit is no smaller is a multiple of the unit of the count. -/
theorem nearest_of_scale_ge {m : Nat} {q : Int} {y : Binary F}
    (hy : roundingScale F m q ≤ y.scale) :
    |(count F m q : ℚ) * 2 ^ roundingScale F m q - m * 2 ^ q| ≤ |y.size - m * 2 ^ q| ∧
      (|y.size - m * 2 ^ q| = |(count F m q : ℚ) * 2 ^ roundingScale F m q - m * 2 ^ q| →
        y.size ≠ count F m q * 2 ^ roundingScale F m q → count F m q % 2 = 0) := by
  have hp : (0 : ℚ) < 2 ^ roundingScale F m q := by positivity
  have hj : y.size =
      ((y.significand * 2 ^ (y.scale - roundingScale F m q).toNat : Nat) : Int) *
        2 ^ roundingScale F m q := by
    have hs : y.scale = ((y.scale - roundingScale F m q).toNat : Int) + roundingScale F m q := by
      omega
    rw [size]
    conv_lhs => rw [hs, zpow_add₀ two_ne_zero, zpow_natCast]
    push_cast
    ring
  obtain ⟨hn, he⟩ := roundScaled_nearest m (q - roundingScale F m q)
    (y.significand * 2 ^ (y.scale - roundingScale F m q).toNat : Nat)
  rw [hj, abs_mul_zpow_sub, abs_mul_zpow_sub]
  refine ⟨mul_le_mul_of_nonneg_right hn hp.le, ?_⟩
  intro h hne
  apply he (mul_right_cancel₀ hp.ne' h)
  intro hk
  apply hne
  rw [hk]
  rfl

/-- A pattern whose unit is smaller lies below the leading bit of the number, and the leading bit
alone would be nearer. -/
theorem nearer_of_scale_lt {m : Nat} (hm : m ≠ 0) {q : Int} {y : Binary F}
    (hy : y.scale < roundingScale F m q) :
    |(count F m q : ℚ) * 2 ^ roundingScale F m q - m * 2 ^ q| < |y.size - m * 2 ^ q| := by
  have hp : (0 : ℚ) < 2 ^ roundingScale F m q := by positivity
  have hb : y.size < 2 ^ F.fractionBits * 2 ^ roundingScale F m q :=
    lt_of_lt_of_le y.size_lt
      (mul_le_mul_of_nonneg_left (zpow_le_zpow_right₀ one_le_two hy) (by positivity))
  have hr : (2 : ℚ) ^ F.fractionBits * 2 ^ roundingScale F m q ≤ m * 2 ^ q := by
    rw [mul_zpow_eq m q (roundingScale F m q)]
    have hu := lt_of_le_of_lt y.minScale_le_scale hy
    exact mul_le_mul_of_nonneg_right (le_exact_count hm hu) hp.le
  have hn := mul_le_mul_of_nonneg_right
    (roundScaled_nearest m (q - roundingScale F m q) (2 ^ F.fractionBits : Nat)).1 hp.le
  rw [← abs_mul_zpow_sub, ← abs_mul_zpow_sub] at hn
  calc |(count F m q : ℚ) * 2 ^ roundingScale F m q - m * 2 ^ q|
      ≤ |2 ^ F.fractionBits * 2 ^ roundingScale F m q - (m : ℚ) * 2 ^ q| := by exact_mod_cast hn
    _ = m * 2 ^ q - 2 ^ F.fractionBits * 2 ^ roundingScale F m q := by
        rw [abs_sub_comm, abs_of_nonneg (by linarith)]
    _ < m * 2 ^ q - y.size := by linarith
    _ = |y.size - m * 2 ^ q| := by rw [abs_sub_comm, abs_of_nonneg (by linarith)]

/-- **No finite pattern is nearer than the count**, and where one is as near, the count is even. -/
theorem count_nearest {m : Nat} (hm : m ≠ 0) (q : Int) (y : Binary F) :
    |(count F m q : ℚ) * 2 ^ roundingScale F m q - m * 2 ^ q| ≤ |y.size - m * 2 ^ q| ∧
      (|y.size - m * 2 ^ q| = |(count F m q : ℚ) * 2 ^ roundingScale F m q - m * 2 ^ q| →
        y.size ≠ count F m q * 2 ^ roundingScale F m q → count F m q % 2 = 0) := by
  rcases le_or_gt (roundingScale F m q) y.scale with hy | hy
  · exact nearest_of_scale_ge hy
  · have h := nearer_of_scale_lt hm hy
    exact ⟨h.le, fun he => absurd he h.ne'⟩

end Binary

end ByteLayout
