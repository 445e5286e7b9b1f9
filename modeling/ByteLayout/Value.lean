import ByteLayout.Number

/-!
# Values

A value is a number, or a list of values: one for each element of an array or
field of a struct, in declaration order.  Values carry no layout; whether a
value fits one is found out when it is packed.

As for numbers there are two comparisons: `=` compares patterns bit for bit,
`sameValue` the numbers they denote, so that a value with a NaN in it is not
the same value as itself.
-/

namespace ByteLayout

-- Powers are those of the core library.
attribute [local instance (2000)] instPowNat

inductive Shape
  | scalar
  | list
  deriving DecidableEq, Repr

def Shape.text : Shape → String
  | scalar => "scalar"
  | list => "list"

inductive Value
  | number (x : Number)
  | list (vs : List Value)
  deriving Repr

namespace Value

mutual

def decEq : (v w : Value) → Decidable (v = w)
  | .number x, .number y =>
    if h : x = y then isTrue (congrArg number h) else isFalse fun e => h (number.inj e)
  | .list vs, .list ws =>
    match decEqList vs ws with
    | isTrue h => isTrue (congrArg list h)
    | isFalse h => isFalse fun e => h (list.inj e)
  | .number _, .list _ => isFalse nofun
  | .list _, .number _ => isFalse nofun

def decEqList : (vs ws : List Value) → Decidable (vs = ws)
  | [], [] => isTrue rfl
  | [], _ :: _ => isFalse nofun
  | _ :: _, [] => isFalse nofun
  | v :: vs, w :: ws =>
    match decEq v w, decEqList vs ws with
    | isTrue h, isTrue hs => isTrue (by rw [h, hs])
    | isFalse h, _ => isFalse fun e => h (List.cons.inj e).1
    | _, isFalse hs => isFalse fun e => hs (List.cons.inj e).2

end

instance : DecidableEq Value := decEq

mutual

/-- Whether two values have the same shape and the same numbers in it. -/
def sameValue : Value → Value → Bool
  | .number x, .number y => x.sameNumber y
  | .list vs, .list ws => sameValues vs ws
  | .number _, .list _ => false
  | .list _, .number _ => false

def sameValues : List Value → List Value → Bool
  | [], [] => true
  | v :: vs, w :: ws => sameValue v w && sameValues vs ws
  | [], _ :: _ => false
  | _ :: _, [] => false

end

mutual

/-- The text of a value, a list in brackets. -/
def text : Value → String
  | .number x => x.text
  | .list vs => "[" ++ String.intercalate ", " (texts vs) ++ "]"

def texts : List Value → List String
  | [] => []
  | v :: vs => v.text :: texts vs

end

/-! ### Views -/

def shape : Value → Shape
  | .number _ => .scalar
  | .list _ => .list

def int (n : Int) : Value := .number (.int n)

def float (x : Binary64) : Value := .number (.float x)

/-- A number of single precision, converted as arithmetic does it. -/
def ofBinary32 (x : Binary32) : Value := float x.promote

def number? : Value → Option Number
  | .number x => some x
  | .list _ => none

def list? : Value → Option (List Value)
  | .number _ => none
  | .list vs => some vs

/-- The integer, if the value is one that a signed word of eight bytes holds. -/
def int64? (v : Value) : Option Int :=
  v.number?.bind (Number.intWithin? (-2 ^ (63 : Nat)) (2 ^ (63 : Nat) - 1))

/-- The integer, if the value is one that an unsigned word of eight bytes holds. -/
def uint64? (v : Value) : Option Int :=
  v.number?.bind (Number.intWithin? 0 (2 ^ (64 : Nat) - 1))

/-- The number in double precision, an integer being rounded. -/
def binary64? (v : Value) : Option Binary64 := v.number?.map Number.toBinary64

end Value

end ByteLayout
