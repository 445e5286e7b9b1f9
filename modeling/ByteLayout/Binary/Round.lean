import ByteLayout.Binary.Format

/-!
# Rounding to a format

`Binary.round` gives the pattern nearest to the number `± m * 2 ^ q`, a half
going to the even neighbour.  The number is first counted in the unit that
patterns of its size have: `log2` finds that unit, but no unit is finer than
the one of the subnormals.  The rounded count `k` and the place of the unit
above the least one make the magnitude word `place * 2 ^ fractionBits + k` with
nothing left to carry: a count that rounds up to a power of two is already the
word of the next exponent, and a count below `2 ^ fractionBits` the word of a
subnormal.  Words past the infinity stop there.

Rounding an integer is rounding at the exponent `0`, and conversion between
formats rounds the exact number that the pattern denotes, so both round once.
-/

namespace ByteLayout

-- Powers are those of the core library.
attribute [local instance (2000)] instPowNat

/-- The integer nearest to `n / d`, a half going to the even neighbour. -/
def roundDiv (n d : Nat) : Nat :=
  if 2 * (n % d) < d ∨ 2 * (n % d) = d ∧ n / d % 2 = 0 then n / d else n / d + 1

/-- The integer nearest to `m * 2 ^ s`, a half going to the even neighbour. -/
def roundScaled (m : Nat) (s : Int) : Nat := roundDiv (m * 2 ^ s.toNat) (2 ^ (-s).toNat)

@[simp] theorem roundDiv_one : ∀ n : Nat, roundDiv n 1 = n := by
  intro n
  simp [roundDiv, Nat.mod_one]

/-- **Nothing is rounded where nothing is lost.** -/
theorem roundScaled_of_nonneg : ∀ (m s : Nat), roundScaled m s = m * 2 ^ s := by
  intro m s
  simp [roundScaled]

/-- **The nearest integer is within half a unit.** -/
theorem roundDiv_near : ∀ n d : Nat, 0 < d →
    2 * (roundDiv n d * d) ≤ 2 * n + d ∧ 2 * n ≤ 2 * (roundDiv n d * d) + d := by
  intro n d hd
  have hdm := Nat.div_add_mod n d
  have hr := Nat.mod_lt n hd
  rw [Nat.mul_comm] at hdm
  unfold roundDiv
  split
  · omega
  · rename_i h
    rw [Nat.add_mul, Nat.one_mul]
    omega

namespace Binary

variable {F G : Format}

/-- The scale in which the number `m * 2 ^ q` is counted: that of its leading bit, but none
finer than the least. -/
def roundingScale (F : Format) (m : Nat) (q : Int) : Int :=
  max F.minScale (m.log2 + q - F.fractionBits)

/-- **The pattern nearest to `± m * 2 ^ q`**, a half going to the even neighbour, and the
infinity when the nearest number would lie past the format. -/
def round (F : Format) (negative : Bool) (m : Nat) (q : Int) : Binary F :=
  if m = 0 then ofMagnitude negative 0
  else
    let u := roundingScale F m q
    ofMagnitude negative
      (min ((u - F.minScale).toNat * 2 ^ F.fractionBits + roundScaled m (q - u)) F.infinity)

def ofInt (F : Format) (n : Int) : Binary F := round F (decide (n < 0)) n.natAbs 0

/-- The pattern of another format nearest to the number denoted; an infinity stays one. -/
def convert (G : Format) (x : Binary F) : Binary G :=
  if x.isSpecial then infinite x.negative else round G x.negative x.significand x.scale

end Binary

/-! ### Between the two formats

A NaN is no number, so its payload is moved instead.  The fraction of `binary64` is longer by
`payloadGap` bits. -/

/-- How many more fraction bits `binary64` has than `binary32`. -/
def payloadGap : Nat := Format.binary64.fractionBits - Format.binary32.fractionBits

/-- **To double precision, bit for bit**: exact on numbers, and a NaN keeps its payload as the
top of the longer fraction. -/
def Binary.widen (x : Binary32) : Binary64 :=
  if x.isNaN then .nan x.negative (x.fraction.val * 2 ^ payloadGap)
  else x.convert Format.binary64

/-- **To double precision, as arithmetic does it**: like `widen`, but every NaN comes out quiet,
with the top bit of its payload set. -/
def Binary.promote (x : Binary32) : Binary64 :=
  if x.isNaN then .nan x.negative (x.fraction.val * 2 ^ payloadGap ||| Format.binary64.quietBit)
  else x.convert Format.binary64

/-- **To single precision**: numbers are rounded once, and a NaN keeps the top of its payload.
A payload that lies wholly in the bits that are lost becomes the quiet one, since without any
payload the pattern would be an infinity. -/
def Binary.narrow (x : Binary64) : Binary32 :=
  if x.isNaN then
    let payload := x.fraction.val / 2 ^ payloadGap
    .nan x.negative (if payload = 0 then Format.binary32.quietBit else payload)
  else x.convert Format.binary32

end ByteLayout
