import ByteLayout.Binary.Format

/-!
# The shortest decimal text of a pattern

A positive number `m * 2 ^ q` of a format is written with the fewest decimal
digits that read back as the same pattern.  What reads back is an interval
around the number: it reaches half a unit up and half a unit down, but only a
quarter down from a power of two, where the units below are half as large; the
ends belong to it when the significand is even.  Everything is counted in
quarters of a unit, so the interval has natural ends.

On a decimal grid only the two neighbours of the number can lie in the interval
with nothing nearer, so only they are tried, first on the coarsest grid, whose
step is above the number, and then on ever finer ones.  Of two that fit the
nearer is taken, and of two equally near the upper.  Seventeen digits always
suffice for `binary64`.

Digits are written positionally, without an exponent and without a trailing
point: `1`, `0.1`, `100000000000000000000`.
-/

namespace ByteLayout.Decimal

-- Powers are those of the core library.
attribute [local instance (2000)] instPowNat

/-- A fraction of naturals, `num / den`. -/
structure Ratio where
  num : Nat
  den : Nat
  deriving DecidableEq, Repr

namespace Ratio

def binary (m : Nat) (q : Int) : Ratio := ⟨m * 2 ^ q.toNat, 2 ^ (-q).toNat⟩

def decimal (c : Nat) (e : Int) : Ratio := ⟨c * 10 ^ e.toNat, 10 ^ (-e).toNat⟩

def lt (a b : Ratio) : Bool := decide (a.num * b.den < b.num * a.den)

def le (a b : Ratio) : Bool := decide (a.num * b.den ≤ b.num * a.den)

/-- The largest `c` with `c * 10 ^ e` at most `a`. -/
def floorAt (a : Ratio) (e : Int) : Nat := a.num * 10 ^ (-e).toNat / (a.den * 10 ^ e.toNat)

end Ratio

/-- The numbers that are read back as one pattern. -/
structure Interval where
  low : Ratio
  value : Ratio
  high : Ratio
  /-- Whether the ends belong to the interval. -/
  closed : Bool
  deriving DecidableEq, Repr

def Interval.contains (I : Interval) (a : Ratio) : Bool :=
  if I.closed then I.low.le a && a.le I.high else I.low.lt a && a.lt I.high

/-- The interval of a finite pattern other than zero, in quarters of its unit. -/
def Interval.of (x : Binary F) : Interval :=
  let m := x.significand
  let q := x.scale - 2
  let below := if x.fraction.val = 0 ∧ 1 < x.exponent.val then 1 else 2
  { low := .binary (4 * m - below) q
    value := .binary (4 * m) q
    high := .binary (4 * m + 2) q
    closed := m % 2 == 0 }

structure Written where
  digits : Nat
  exponent : Int
  deriving DecidableEq, Repr

/-- Of its neighbours `c` and `c + 1` on the grid of `10 ^ e`, whether the number is nearer to
the lower one. -/
def nearerBelow (value : Ratio) (c : Nat) (e : Int) : Bool :=
  Ratio.lt ⟨2 * value.num, value.den⟩ (.decimal (2 * c + 1) e)

/-- The point of the grid of `10 ^ e` that is taken for the number, if one reads back. -/
def onGrid (I : Interval) (e : Int) : Option Nat :=
  let c := I.value.floorAt e
  let lower := I.contains (.decimal c e)
  let upper := I.contains (.decimal (c + 1) e)
  match lower, upper with
  | true, true => some (if nearerBelow I.value c e then c else c + 1)
  | true, false => some c
  | false, true => some (c + 1)
  | false, false => none

/-- The first of the grids `10 ^ e`, `10 ^ (e - 1)`, … with a point that reads back, `fuel`
grids being tried. -/
def shortestFrom (I : Interval) : Nat → Int → Option Written
  | 0, _ => none
  | fuel + 1, e =>
    match onGrid I e with
    | some c => some ⟨c, e⟩
    | none => shortestFrom I fuel (e - 1)

/-- The least `k` from `low` on with the number below `10 ^ k`, `fuel` of them being passed
over. -/
def orderFrom (value : Ratio) : Nat → Int → Int
  | 0, low => low
  | fuel + 1, low => if value.lt (.decimal 1 low) then low else orderFrom value fuel (low + 1)

/-- The least `k` with the pattern's number below `10 ^ k`.  The search starts from the number's
binary order, `log 2` to base ten being close to `0.30103`. -/
def order (x : Binary F) : Int :=
  orderFrom (Interval.of x).value 4 ((x.significand.log2 + x.scale) * 30103 / 100000)

/-- **The shortest decimal number that reads back as the pattern**; zero for zero. -/
def shortest (x : Binary F) : Written :=
  (shortestFrom (Interval.of x) 20 (order x)).getD ⟨0, 0⟩

/-! ### Positional text -/

def digitsOf (n : Nat) : List Char := (toString n).toList

/-- The text of `c * 10 ^ e` without an exponent. -/
def positional (c : Nat) (e : Int) : List Char :=
  let ds := digitsOf c
  if 0 ≤ e then
    if c = 0 then ds else ds ++ List.replicate e.toNat '0'
  else
    let places := (-e).toNat
    let padded := List.replicate (places + 1 - ds.length) '0' ++ ds
    padded.take (padded.length - places) ++ '.' :: padded.drop (padded.length - places)

end Decimal

/-- **The text of a pattern**: the fewest digits that read back, positionally; `NaN` has neither
sign nor payload. -/
def Binary.text (x : Binary F) : String :=
  if x.isNaN then "NaN"
  else
    let sign := if x.negative then "-" else ""
    if x.isInfinite then sign ++ "inf"
    else if x.isZero then sign ++ "0"
    else
      let w := Decimal.shortest x
      sign ++ String.ofList (Decimal.positional w.digits w.exponent)

end ByteLayout
