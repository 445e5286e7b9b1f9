import ByteLayout.Primitive.Access
import ByteLayout.Proofs.Buffer
import ByteLayout.Proofs.Primitive.Word

/-!
# Integers as machine data

The range of an integer type and the meaning of its words are given by powers
of two.  A machine has them built in: the data of the type is a bit vector, and
reading it as an integer is part of the machine.  The two agree.  `value_ofWord`
says that data made of a word has the value that the word is in two's
complement, and `holds_iff_value` that the integers of the range are those which
are the value of some data, which by `value_injective` is one alone.
-/

namespace ByteLayout.Primitive

-- Powers are those of the core library.
attribute [local instance (2000)] instPowNat

theorem toInt_ofNat_lt {w k : Nat} (hw : 0 < w) (h : k < 2 ^ w) :
    (BitVec.ofNat w k).toInt = if 2 ^ (w - 1) ≤ k then (k : Int) - 2 ^ w else k := by
  obtain ⟨v, rfl⟩ : ∃ v, w = v + 1 := ⟨w - 1, by omega⟩
  have hp : 2 ^ (v + 1) = 2 * 2 ^ v := by rw [Nat.pow_succ, Nat.mul_comm]
  have hc : ((2 ^ (v + 1) : Nat) : Int) = 2 ^ (v + 1) := by push_cast; rfl
  rw [BitVec.toInt_eq_toNat_cond, BitVec.toNat_ofNat, Nat.mod_eq_of_lt h, Nat.add_sub_cancel, ← hc]
  split <;> split <;> omega

/-- **Data made of a word has the value of the word.** -/
theorem value_ofWord {p : Primitive} (hi : p.isInteger) {k : Nat} (h : k < 2 ^ (8 * p.width)) :
    p.value (p.ofWord k) = .int (p.unwrap k) := by
  have hw := p.width_pos
  have hs : p.kind = .signed → p.unwrap k = (BitVec.ofNat (8 * p.width) k).toInt := by
    intro hk
    rw [toInt_ofNat_lt (by omega) h, unwrap]
    simp only [hk, true_and]
  have hu : p.kind = .unsigned → p.unwrap k = (k % 2 ^ (8 * p.width) : Nat) := by
    intro hk
    rw [Nat.mod_eq_of_lt h, unwrap, if_neg (by simp [hk])]
  cases p with
  | int8 => exact congrArg Value.int (hs rfl).symm
  | int16 => exact congrArg Value.int (hs rfl).symm
  | int32 => exact congrArg Value.int (hs rfl).symm
  | int64 => exact congrArg Value.int (hs rfl).symm
  | uint8 => exact congrArg Value.int (hu rfl).symm
  | uint16 => exact congrArg Value.int (hu rfl).symm
  | uint32 => exact congrArg Value.int (hu rfl).symm
  | uint64 => exact congrArg Value.int (hu rfl).symm
  | float32 => cases hi
  | float64 => cases hi

theorem word_lt_two_pow (p : Primitive) (x : p.Carrier) : p.word x < 2 ^ (8 * p.width) := by
  rw [two_pow_bits_eq]
  exact p.word_lt x

theorem value_eq {p : Primitive} (hi : p.isInteger) (x : p.Carrier) :
    p.value x = .int (p.unwrap (p.word x)) := by
  rw [← value_ofWord hi (p.word_lt_two_pow x), ofWord_word]

theorem value_injective {p : Primitive} (hi : p.isInteger) {x y : p.Carrier}
    (h : p.value x = p.value y) : x = y := by
  rw [value_eq hi, value_eq hi] at h
  have hu : p.unwrap (p.word x) = p.unwrap (p.word y) := Number.int.inj (Value.number.inj h)
  have hw : p.word x = p.word y := by
    rw [← wrap_unwrap (p.word_lt_two_pow x), hu, wrap_unwrap (p.word_lt_two_pow y)]
  rw [← p.ofWord_word x, hw, ofWord_word]

/-- **An integer lies in the range exactly if there is data with its value.** -/
theorem holds_iff_value {p : Primitive} (hi : p.isInteger) (n : Int) :
    p.holds n ↔ ∃ x : p.Carrier, p.value x = .int n := by
  constructor
  · intro h
    refine ⟨p.ofWord (p.wrap n), ?_⟩
    rw [value_ofWord hi (p.wrap_lt n), unwrap_wrap h]
  · rintro ⟨x, hx⟩
    rw [value_eq hi] at hx
    obtain rfl : p.unwrap (p.word x) = n := Number.int.inj (Value.number.inj hx)
    exact holds_unwrap hi (p.word_lt_two_pow x)

/-- Machine data is read from as many bytes as its type is wide. -/
theorem takes_readAt (p : Primitive) (o : ByteOrder) :
    Buffer.Takes (p.readAt o) p.width fun bytes => p.ofWord (Bytes.decode o bytes) :=
  (Buffer.takes_take p.width_pos).map _

end ByteLayout.Primitive
