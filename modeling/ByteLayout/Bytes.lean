import ByteLayout.Order

/-!
# Numbers as bytes

The digits of a natural number to base 256 are its bytes.  `digits w n` takes
`w` of them from the least significant end and `ofDigits` adds them up again;
`ofDigits_digits` says the first `w` digits know the number modulo `256 ^ w`,
and `digits_ofDigits` that the digits of a sum are the digits that went in.  A
byte order only decides in which direction the digits are written: `encode` and
`decode` reverse them for the big-endian order, so each law about them is the
law about digits.
-/

namespace ByteLayout

-- Powers are those of the core library.
attribute [local instance (2000)] instPowNat

abbrev Bytes := List UInt8

namespace Bytes

/-- The `w` least significant digits to base 256, lowest first. -/
def digits : Nat → Nat → Bytes
  | 0, _ => []
  | w + 1, n => UInt8.ofNat n :: digits w (n / 256)

/-- The number whose digits these are, lowest first. -/
def ofDigits : Bytes → Nat
  | [] => 0
  | b :: bs => b.toNat + 256 * ofDigits bs

@[simp] theorem length_digits : ∀ w n : Nat, (digits w n).length = w := by
  intro w
  induction w with
  | zero => intro n; rfl
  | succ w ih => intro n; simp [digits, ih]

theorem ofDigits_lt : ∀ bs : Bytes, ofDigits bs < 256 ^ bs.length := by
  intro bs
  induction bs with
  | nil => simp [ofDigits]
  | cons b bs ih =>
    have hb : b.toNat < 256 := b.toNat_lt
    simp only [ofDigits, List.length_cons, Nat.pow_succ]
    omega

/-- **Digits know a number up to their count.** -/
theorem ofDigits_digits : ∀ w n : Nat, ofDigits (digits w n) = n % 256 ^ w := by
  intro w
  induction w with
  | zero => intro n; simp [digits, ofDigits, Nat.mod_one]
  | succ w ih =>
    intro n
    rw [digits, ofDigits, ih, Nat.pow_succ, Nat.mul_comm (256 ^ w) 256, Nat.mod_mul]
    simp

/-- **A number keeps the digits it is made of.** -/
theorem digits_ofDigits : ∀ bs : Bytes, digits bs.length (ofDigits bs) = bs := by
  intro bs
  induction bs with
  | nil => rfl
  | cons b bs ih =>
    have hb : b.toNat < 256 := b.toNat_lt
    have hd : (b.toNat + 256 * ofDigits bs) / 256 = ofDigits bs := by omega
    have hm : UInt8.ofNat (b.toNat + 256 * ofDigits bs) = b := by
      apply UInt8.toNat_inj.mp
      rw [UInt8.toNat_ofNat']
      omega
    rw [List.length_cons, ofDigits, digits, hd, hm, ih]

/-! ### Written in an order -/

def encode (o : ByteOrder) (w n : Nat) : Bytes :=
  match o with
  | .bigEndian => (digits w n).reverse
  | .littleEndian => digits w n

/-- The number that the bytes denote in the order `o`. -/
def decode (o : ByteOrder) (bs : Bytes) : Nat :=
  match o with
  | .bigEndian => ofDigits bs.reverse
  | .littleEndian => ofDigits bs

@[simp] theorem length_encode : ∀ (o : ByteOrder) (w n : Nat), (encode o w n).length = w := by
  intro o w n
  cases o <;> simp [encode]

theorem decode_lt : ∀ (o : ByteOrder) (bs : Bytes), decode o bs < 256 ^ bs.length := by
  intro o bs
  cases o with
  | bigEndian =>
    have h := ofDigits_lt bs.reverse
    rw [List.length_reverse] at h
    exact h
  | littleEndian => exact ofDigits_lt bs

theorem decode_encode : ∀ (o : ByteOrder) (w n : Nat), decode o (encode o w n) = n % 256 ^ w := by
  intro o w n
  cases o <;> simp [encode, decode, ofDigits_digits]

theorem decode_encode_of_lt (o : ByteOrder) {w n : Nat} (h : n < 256 ^ w) :
    decode o (encode o w n) = n := by
  rw [decode_encode, Nat.mod_eq_of_lt h]

theorem encode_decode : ∀ (o : ByteOrder) (bs : Bytes), encode o bs.length (decode o bs) = bs := by
  intro o bs
  cases o with
  | bigEndian =>
    have h := digits_ofDigits bs.reverse
    rw [List.length_reverse] at h
    rw [encode, decode, h, List.reverse_reverse]
  | littleEndian => exact digits_ofDigits bs

theorem encode_opposite : ∀ (o : ByteOrder) (w n : Nat),
    encode o.opposite w n = (encode o w n).reverse := by
  intro o w n
  cases o <;> simp [encode, ByteOrder.opposite]

end Bytes

end ByteLayout
