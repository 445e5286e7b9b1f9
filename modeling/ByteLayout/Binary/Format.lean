/-!
# Binary floating point patterns

A format is a number of exponent bits and a number of fraction bits; `binary32`
and `binary64` are the two in use.  A `Binary F` is a bit pattern of the format
`F` in its three fields, so that every pattern is a value of the type: both
zeros, subnormals, infinities and each NaN with its payload.

`toNat` lays the fields out as one word, sign first, and `ofNat` cuts a word
into them again.  The two are inverse on the words of the format: `ofNat_toNat`
and `toNat_ofNat`.

The number that a finite pattern denotes is `± significand * 2 ^ scale`.  The
two lowest exponents share a scale, which is how subnormals continue the line
of the normal numbers down to zero.
-/

namespace ByteLayout

-- Powers are those of the core library.
attribute [local instance (2000)] instPowNat

/-- The sizes of the two magnitude fields of a binary floating point format. -/
structure Format where
  exponentBits : Nat
  fractionBits : Nat
  deriving DecidableEq, Repr

namespace Format

def binary32 : Format := ⟨8, 23⟩

def binary64 : Format := ⟨11, 52⟩

/-- The magnitude of the infinities as a word: every exponent bit set and no fraction bit. -/
def infinity (F : Format) : Nat := (2 ^ F.exponentBits - 1) * 2 ^ F.fractionBits

/-- The scale of the subnormal numbers, the least of all. -/
def minScale (F : Format) : Int := 2 - 2 ^ (F.exponentBits - 1) - F.fractionBits

/-- The payload bit that marks a NaN as quiet, the top one. -/
def quietBit (F : Format) : Nat := 2 ^ (F.fractionBits - 1)

end Format

/-- A bit pattern of the format `F`. -/
structure Binary (F : Format) where
  negative : Bool
  exponent : Fin (2 ^ F.exponentBits)
  fraction : Fin (2 ^ F.fractionBits)
  deriving DecidableEq, Repr

abbrev Binary32 := Binary Format.binary32

abbrev Binary64 := Binary Format.binary64

namespace Binary

variable {F : Format}

def magnitude (x : Binary F) : Nat := x.exponent.val * 2 ^ F.fractionBits + x.fraction.val

/-- The pattern as one word: sign, exponent, fraction. -/
def toNat (x : Binary F) : Nat :=
  (if x.negative then 2 ^ (F.exponentBits + F.fractionBits) else 0) + x.magnitude

/-- The pattern with a given sign whose magnitude is the word `n`. -/
def ofMagnitude (negative : Bool) (n : Nat) : Binary F where
  negative := negative
  exponent := ⟨n / 2 ^ F.fractionBits % 2 ^ F.exponentBits, Nat.mod_lt _ (Nat.two_pow_pos _)⟩
  fraction := ⟨n % 2 ^ F.fractionBits, Nat.mod_lt _ (Nat.two_pow_pos _)⟩

/-- The pattern that the word `n` is; bits above the sign are ignored. -/
def ofNat (n : Nat) : Binary F :=
  ofMagnitude (n / 2 ^ (F.exponentBits + F.fractionBits) % 2 == 1) n

theorem magnitude_lt : ∀ x : Binary F, x.magnitude < 2 ^ (F.exponentBits + F.fractionBits) := by
  intro x
  have he : (x.exponent : Nat) + 1 ≤ 2 ^ F.exponentBits := x.exponent.isLt
  have hf : (x.fraction : Nat) < 2 ^ F.fractionBits := x.fraction.isLt
  have hm := Nat.mul_le_mul_right (2 ^ F.fractionBits) he
  rw [Nat.add_mul, Nat.one_mul, ← Nat.pow_add] at hm
  unfold magnitude
  omega

theorem toNat_lt : ∀ x : Binary F, x.toNat < 2 ^ (F.exponentBits + F.fractionBits + 1) := by
  intro x
  have h := x.magnitude_lt
  rw [Nat.pow_succ]
  unfold toNat
  split <;> omega

theorem ofMagnitude_magnitude : ∀ x : Binary F, ofMagnitude x.negative x.magnitude = x := by
  intro x
  have he : (x.exponent : Nat) < 2 ^ F.exponentBits := x.exponent.isLt
  have hf : (x.fraction : Nat) < 2 ^ F.fractionBits := x.fraction.isLt
  have hd : x.magnitude / 2 ^ F.fractionBits = x.exponent := by
    rw [magnitude, Nat.mul_comm, Nat.mul_add_div (Nat.two_pow_pos _), Nat.div_eq_of_lt hf]
    rfl
  have hm : x.magnitude % 2 ^ F.fractionBits = x.fraction := by
    rw [magnitude, Nat.mul_comm, Nat.mul_add_mod, Nat.mod_eq_of_lt hf]
  obtain ⟨s, e, f⟩ := x
  simp only [ofMagnitude, hd, hm, Nat.mod_eq_of_lt he]

theorem ofMagnitude_add (s : Bool) (k n : Nat) :
    (ofMagnitude s (2 ^ (F.exponentBits + F.fractionBits) * k + n) : Binary F) =
      ofMagnitude s n := by
  have h : 2 ^ (F.exponentBits + F.fractionBits) * k + n =
      2 ^ F.fractionBits * (2 ^ F.exponentBits * k) + n := by
    rw [Nat.pow_add, Nat.mul_comm (2 ^ F.exponentBits), Nat.mul_assoc]
  simp only [ofMagnitude, h, Nat.mul_add_div (Nat.two_pow_pos _), Nat.mul_add_mod]

/-- **A pattern is its word.** -/
theorem ofNat_toNat : ∀ x : Binary F, ofNat x.toNat = x := by
  intro x
  have h := x.magnitude_lt
  have hw : x.toNat = 2 ^ (F.exponentBits + F.fractionBits) * x.negative.toNat + x.magnitude := by
    cases hs : x.negative <;> simp [toNat, hs]
  have hs : (x.toNat / 2 ^ (F.exponentBits + F.fractionBits) % 2 == 1) = x.negative := by
    rw [hw, Nat.mul_add_div (Nat.two_pow_pos _), Nat.div_eq_of_lt h]
    cases x.negative <;> rfl
  rw [ofNat, hs, hw, ofMagnitude_add, ofMagnitude_magnitude]

/-- **A word of the format is its pattern.** -/
theorem toNat_ofNat : ∀ n : Nat, n < 2 ^ (F.exponentBits + F.fractionBits + 1) →
    (ofNat n : Binary F).toNat = n := by
  intro n hn
  have hq : n / 2 ^ (F.exponentBits + F.fractionBits) < 2 := by
    rw [Nat.div_lt_iff_lt_mul (Nat.two_pow_pos _), Nat.mul_comm, ← Nat.pow_succ]
    exact hn
  have hmag : ∀ s, (ofMagnitude s n : Binary F).magnitude =
      n % 2 ^ (F.exponentBits + F.fractionBits) := by
    intro s
    rw [magnitude, ofMagnitude, Nat.add_comm F.exponentBits, Nat.pow_add, Nat.mod_mul,
      Nat.mul_comm (n / _ % _), Nat.add_comm]
  have hdm := Nat.div_add_mod n (2 ^ (F.exponentBits + F.fractionBits))
  rw [toNat, ofNat, hmag]
  generalize n / 2 ^ (F.exponentBits + F.fractionBits) = k at *
  match k, hq with
  | 0, _ => simpa [ofMagnitude] using hdm
  | 1, _ => simpa [ofMagnitude] using hdm

/-! ### The classes of patterns -/

/-- Infinities and NaNs have every exponent bit set. -/
def isSpecial (x : Binary F) : Bool := x.exponent.val + 1 == 2 ^ F.exponentBits

def isFinite (x : Binary F) : Bool := !x.isSpecial

def isNaN (x : Binary F) : Bool := x.isSpecial && x.fraction.val != 0

def isInfinite (x : Binary F) : Bool := x.isSpecial && x.fraction.val == 0

def isZero (x : Binary F) : Bool := x.exponent.val == 0 && x.fraction.val == 0

/-- **Equality of the numbers denoted.** A NaN equals nothing, itself included, and the two
zeros are equal. -/
def sameNumber (x y : Binary F) : Bool :=
  !x.isNaN && !y.isNaN && (decide (x = y) || (x.isZero && y.isZero))

/-- The integer that a finite pattern is a multiple of its scale by. -/
def significand (x : Binary F) : Nat :=
  if x.exponent.val = 0 then x.fraction.val else x.fraction.val + 2 ^ F.fractionBits

/-- The power of two that one unit of the significand counts. -/
def scale (x : Binary F) : Int := F.minScale + (x.exponent.val - 1 : Nat)

def infinite (negative : Bool) : Binary F := ofMagnitude negative F.infinity

/-- The NaN of a sign and a payload; the payload of a NaN is not zero. -/
def nan (negative : Bool) (payload : Nat) : Binary F := ofMagnitude negative (F.infinity + payload)

end Binary

end ByteLayout
