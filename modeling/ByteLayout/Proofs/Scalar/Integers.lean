import ByteLayout.Proofs.Layout.Decoding
import ByteLayout.Proofs.Primitive.Machine
import Mathlib.Logic.Equiv.Basic

/-!
# Integers as scalars

An integer type of `w` bytes is two's complement: its bytes are the digits to
base 256 of the integer modulo `2 ^ (8 * w)`, and `Bytes.place` says where each
of them stands in either order.

`Scalar.integers` makes one bijection of packing and unpacking, between the
integers of the range and the runs of `w` bytes.  Both directions are there for
every integer of the range and for every run, so no integer has two encodings
and no run is left over.
-/

namespace ByteLayout

-- Powers are those of the core library.
attribute [local instance (2000)] instPowNat

/-! ### Digits in an order -/

namespace Bytes

/-- Where among `w` bytes the digit stands that counts `256 ^ i`. -/
def place (o : ByteOrder) (w i : Nat) : Nat :=
  match o with
  | .bigEndian => w - 1 - i
  | .littleEndian => i

theorem digits_getElem? : ∀ w n i : Nat, i < w →
    (digits w n)[i]? = some (UInt8.ofNat (n / 256 ^ i)) := by
  intro w
  induction w with
  | zero => intro n i h; omega
  | succ w ih =>
    intro n i h
    cases i with
    | zero => simp [digits]
    | succ i =>
      rw [digits, List.getElem?_cons_succ, ih (n / 256) i (by omega), Nat.div_div_eq_div_mul,
        Nat.pow_succ, Nat.mul_comm]

/-- **Each byte is one digit.** -/
theorem encode_getElem? (o : ByteOrder) {w n i : Nat} (h : i < w) :
    (encode o w n)[place o w i]? = some (UInt8.ofNat (n / 256 ^ i)) := by
  cases o with
  | bigEndian =>
    have hi : w - 1 - (w - 1 - i) = i := by omega
    rw [encode, place, List.getElem?_reverse (by rw [length_digits]; omega), length_digits, hi,
      digits_getElem? w n i h]
  | littleEndian => exact digits_getElem? w n i h

end Bytes

/-! ### Integer types -/

namespace Primitive

variable {p : Primitive}

theorem wordOf_int (hi : p.isInteger) (n : Int) : p.wordOf (.int n) = p.wrap n := by
  cases p with
  | float32 => cases hi
  | float64 => cases hi
  | _ => rfl

theorem decode_of_isInteger (hi : p.isInteger) (k : Nat) : p.decode k = .int (p.unwrap k) := by
  cases p with
  | float32 => cases hi
  | float64 => cases hi
  | _ => rfl

theorem fault?_int_of_holds {n : Int} (h : p.holds n) : p.fault? (.int n) = none := by
  simp [fault?, h]

theorem fault?_int_of_not_holds (hi : p.isInteger) {n : Int} (h : ¬p.holds n) :
    p.fault? (.int n) = some (.valueOutOfRange (.int n) p) := by
  simp [fault?, hi, h]

/-- **The range of an integer type**, with its ends. -/
theorem exists_range (hi : p.isInteger) : ∃ low high : Int,
    p.minValue? = some low ∧ p.maxValue? = some high ∧
      (p.kind = .signed ∧ low = -2 ^ (8 * p.width - 1) ∧ high = 2 ^ (8 * p.width - 1) - 1 ∨
        p.kind = .unsigned ∧ low = 0 ∧ high = 2 ^ (8 * p.width) - 1) ∧
      ∀ n, p.holds n ↔ low ≤ n ∧ n ≤ high := by
  cases hk : p.kind with
  | float => simp [isInteger, hk] at hi
  | signed => exact ⟨_, _, by simp [minValue?, hk], by simp [maxValue?, hk], .inl ⟨rfl, rfl, rfl⟩,
      fun n => (holds_signed hk n).trans (and_congr_right' Int.le_sub_one_iff.symm)⟩
  | unsigned => exact ⟨_, _, by simp [minValue?, hk], by simp [maxValue?, hk], .inr ⟨rfl, rfl, rfl⟩,
      fun n => (holds_unsigned hk n).trans (and_congr_right' Int.le_sub_one_iff.symm)⟩

end Primitive

/-! ### Integers and their bytes -/

namespace Scalar

variable {s : Scalar}

theorem decode_lt {bytes : Bytes} (h : bytes.length = s.width) :
    Bytes.decode s.order bytes < 2 ^ (8 * s.primitive.width) := by
  have hl : bytes.length = s.primitive.width := h
  rw [Primitive.two_pow_bits_eq, ← hl]
  exact Bytes.decode_lt s.order bytes

/-- **The integers of the range are the runs of bytes of the width.** -/
def integers (s : Scalar) (hi : s.primitive.isInteger) :
    {n : Int // s.primitive.holds n} ≃ {bytes : Bytes // bytes.length = s.width} where
  toFun n := ⟨s.bytesOf (.int n.1), Bytes.length_encode _ _ _⟩
  invFun bytes := ⟨s.primitive.unwrap (Bytes.decode s.order bytes.1),
    Primitive.holds_unwrap hi (decode_lt bytes.2)⟩
  left_inv := by
    rintro ⟨n, hn⟩
    apply Subtype.ext
    have hw : s.primitive.wrap n < 256 ^ s.width := by
      rw [Scalar.width, ← Primitive.two_pow_bits_eq]
      exact s.primitive.wrap_lt n
    show s.primitive.unwrap (Bytes.decode s.order (s.bytesOf (.int n))) = n
    rw [bytesOf, Primitive.wordOf_int hi, Bytes.decode_encode, Nat.mod_eq_of_lt hw,
      Primitive.unwrap_wrap hn]
  right_inv := by
    rintro ⟨bytes, hb⟩
    apply Subtype.ext
    show s.bytesOf (.int (s.primitive.unwrap (Bytes.decode s.order bytes))) = bytes
    rw [bytesOf, Primitive.wordOf_int hi, Primitive.wrap_unwrap (decode_lt hb), ← hb,
      Bytes.encode_decode]

theorem pack_integers (hi : s.primitive.isInteger) (n : {n : Int // s.primitive.holds n}) :
    s.pack (.int n.1) = .ok (s.integers hi n).1 :=
  Layout.scalar_pack_ok.mpr ⟨Primitive.fault?_int_of_holds n.2, rfl⟩

theorem unpack_integers (hi : s.primitive.isInteger)
    (bytes : {bytes : Bytes // bytes.length = s.width}) :
    s.unpack bytes.1 = .ok (.int ((s.integers hi).symm bytes).1) := by
  rw [Layout.scalar_unpack_eq, if_pos bytes.2, decode, Primitive.decode_of_isInteger hi]
  rfl

/-- **The bytes of an integer are its digits in two's complement.** -/
theorem bytesOf_int_getElem? (hi : s.primitive.isInteger) (n : Int) {i : Nat} (h : i < s.width) :
    ∃ b, (s.bytesOf (.int n))[Bytes.place s.order s.width i]? = some b ∧
      (b.toNat : Int) = n % 2 ^ (8 * s.width) / 256 ^ i % 256 := by
  refine ⟨_, Bytes.encode_getElem? s.order h, ?_⟩
  have hp : (0 : Int) < 2 ^ (8 * s.width) := Int.pow_pos (by decide)
  have hn : (s.primitive.wrap n : Int) = n % 2 ^ (8 * s.width) :=
    Int.toNat_of_nonneg (Int.emod_nonneg n (Int.ne_of_gt hp))
  rw [Primitive.wordOf_int hi, UInt8.toNat_ofNat', ← hn, Int.natCast_emod, Int.natCast_ediv,
    Int.natCast_pow]
  rfl

/-- **An integer type is two's complement of its width.**  The ends of its range are those of the
machine type.  An integer of the range is packed to its digits, any other is refused, and unpacking
is the inverse of packing between the range and all runs of bytes of the width. -/
theorem pack_int_twos_complement (s : Scalar) (hi : s.primitive.isInteger) :
    ∃ low high : Int,
      (s.primitive.minValue? = some low ∧ s.primitive.maxValue? = some high ∧
        (s.kind = .signed ∧ low = -2 ^ (8 * s.width - 1) ∧ high = 2 ^ (8 * s.width - 1) - 1 ∨
          s.kind = .unsigned ∧ low = 0 ∧ high = 2 ^ (8 * s.width) - 1) ∧
        ∀ n, low ≤ n ∧ n ≤ high ↔ ∃ x : s.primitive.Carrier, s.primitive.value x = .int n) ∧
      (∀ n, low ≤ n ∧ n ≤ high → ∃ bytes, s.pack (.int n) = .ok bytes ∧
        bytes.length = s.width ∧ ∀ i < s.width, ∃ b,
          bytes[Bytes.place s.order s.width i]? = some b ∧
            (b.toNat : Int) = n % 2 ^ (8 * s.width) / 256 ^ i % 256) ∧
      (∀ n, ¬(low ≤ n ∧ n ≤ high) → ∃ e, s.pack (.int n) = .error e ∧
        e = .valueOutOfRange (.int n) s.primitive ∧
        e.message = "value " ++ toString n ++ " is out of range for " ++
          (s.kind.text ++ " of " ++ toString s.width ++ " bytes")) ∧
      ∃ packed : {n : Int // low ≤ n ∧ n ≤ high} ≃ {bytes : Bytes // bytes.length = s.width},
        (∀ n, s.pack (.int n.1) = .ok (packed n).1) ∧
          ∀ bytes, s.unpack bytes.1 = .ok (.int (packed.symm bytes).1) := by
  obtain ⟨low, high, hlow, hhigh, hends, hrange⟩ := Primitive.exists_range hi
  refine ⟨low, high, ⟨hlow, hhigh, hends, ?_⟩, ?_, ?_, ?_⟩
  · intro n
    rw [← hrange, Primitive.holds_iff_value hi]
  · intro n hn
    exact ⟨_, pack_integers hi ⟨n, (hrange n).mpr hn⟩, Bytes.length_encode _ _ _,
      fun i h => bytesOf_int_getElem? hi n h⟩
  · intro n hn
    have hf := Primitive.fault?_int_of_not_holds hi (mt (hrange n).mp hn)
    exact ⟨_, Layout.scalar_pack_error hf, rfl, rfl⟩
  · refine ⟨(Equiv.subtypeEquivRight fun n => (hrange n).symm).trans (s.integers hi), ?_, ?_⟩
    · intro n
      exact pack_integers hi ⟨n.1, (hrange n.1).mpr n.2⟩
    · intro bytes
      exact unpack_integers hi bytes

/-- A negative integer is packed with its sign in the first byte, the first integer past the range
is refused, and the bytes of the least one are unpacked and packed again. -/
theorem pack_int_twos_complement_int16 :
    let s : Scalar := ⟨.int16, .bigEndian⟩
    s.primitive.isInteger ∧
      (∃ bytes b, s.pack (.int (-2)) = .ok bytes ∧ bytes[0]? = some b ∧ (b.toNat : Int) = 255) ∧
      (∃ e, s.pack (.int 32768) = .error e ∧ e = .valueOutOfRange (.int 32768) .int16 ∧
        e.message = "value 32768 is out of range for signed-int of 2 bytes") ∧
      ∃ n, s.unpack [128, 0] = .ok (.int n) ∧ s.pack (.int n) = .ok [128, 0] := by
  intro s
  have hi : s.primitive.isInteger := rfl
  obtain ⟨low, high, ⟨hlow, hhigh, -, -⟩, hpack, hrefuse, packed, hpacked, hunpacked⟩ :=
    pack_int_twos_complement s hi
  obtain rfl : -32768 = low := Option.some.inj hlow
  obtain rfl : 32767 = high := Option.some.inj hhigh
  refine ⟨hi, ?_, ?_, ?_⟩
  · obtain ⟨bytes, hb, -, hdigits⟩ := hpack (-2) (by decide)
    obtain ⟨b, hat, hv⟩ := hdigits 1 (by decide)
    exact ⟨bytes, b, hb, hat, hv.trans (by decide)⟩
  · obtain ⟨e, he, hv, hm⟩ := hrefuse 32768 (by decide)
    exact ⟨e, he, hv, hm.trans (by decide)⟩
  · have hl : ([128, 0] : Bytes).length = s.width := rfl
    refine ⟨(packed.symm ⟨[128, 0], hl⟩).1, hunpacked ⟨[128, 0], hl⟩, ?_⟩
    rw [hpacked, Equiv.apply_symm_apply]

end Scalar

end ByteLayout
