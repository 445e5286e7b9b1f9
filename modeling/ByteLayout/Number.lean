import ByteLayout.Binary.Round
import ByteLayout.Binary.Decimal

/-!
# Numbers

A number is an integer of any size or a pattern of double precision.  The two
never meet: no integer is the same number as a pattern, whatever the pattern
denotes.  Equality of type `=` tells patterns apart bit for bit; `sameNumber`
is the coarser comparison of what is denoted.
-/

namespace ByteLayout

inductive Number
  | int (n : Int)
  | float (x : Binary64)
  deriving DecidableEq, Repr

namespace Number

/-- Integers by value, patterns by the number they denote. -/
def sameNumber : Number → Number → Bool
  | int m, int n => m == n
  | float x, float y => x.sameNumber y
  | _, _ => false

/-- Integers in decimal, patterns by their shortest digits. -/
def text : Number → String
  | int n => toString n
  | float x => x.text

def toBinary64 : Number → Binary64
  | int n => .ofInt .binary64 n
  | float x => x

/-- The integer, if the number is one and lies in the closed range. -/
def intWithin? (low high : Int) : Number → Option Int
  | int n => if low ≤ n ∧ n ≤ high then some n else none
  | float _ => none

end Number

end ByteLayout
