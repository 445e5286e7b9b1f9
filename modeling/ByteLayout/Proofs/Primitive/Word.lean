import ByteLayout.Scalar.Codec
import ByteLayout.Proofs.Binary.Widen

/-!
# Numbers and words

`Primitive.encode` finds the word of a number and `decode` the number of a
word.  The first can refuse: `fault?` says when and why, `wordOf` is the word
where there is one, and `encode_eq` that these two are all of `encode`.

The two directions are `wordOf_decode` and `decode_wordOf`.  Every word of the
width is the word of the number it decodes to, and a number decodes from its
word up to the precision of the type, which is what `normalize` takes away: a
floating point type turns integers into patterns, and single precision rounds.
-/

namespace ByteLayout.Primitive

-- Powers are those of the core library.
attribute [local instance (2000)] instPowNat

/-! ### Why a number has no word -/

/-- **The reason why a number has no word**, if there is one. -/
def fault? (p : Primitive) : Number → Option Error
  | .int n =>
    if p.isInteger ∧ ¬p.holds n then some (.valueOutOfRange (.int n) p) else none
  | .float x =>
    if p.isInteger then some (.notIntegral p)
    else if p = .float32 ∧ x.isFinite ∧ x.narrow.isInfinite then
      some (.valueOutOfRange (.float x) p)
    else none

/-- The word of a number, which is meant only where there is no fault. -/
def wordOf (p : Primitive) : Number → Nat
  | .int n =>
    match p with
    | float32 => (Binary.ofInt .binary32 n).toNat
    | float64 => (Binary.ofInt .binary64 n).toNat
    | p => p.wrap n
  | .float x =>
    match p with
    | float32 => x.narrow.toNat
    | _ => x.toNat

/-- The number that is left of a number in the precision of the type. -/
def normalize (p : Primitive) : Number → Number
  | .int n =>
    match p with
    | float32 => .float (Binary.ofInt .binary32 n).widen
    | float64 => .float (Binary.ofInt .binary64 n)
    | _ => .int n
  | .float x =>
    match p with
    | float32 => .float x.narrow.widen
    | _ => .float x

theorem encode_eq (p : Primitive) (x : Number) :
    p.encode x = match p.fault? x with
      | some e => .error e
      | none => .ok (p.wordOf x) := by
  cases x with
  | int n =>
    by_cases h : p.holds n = true
    · cases p <;> simp [encode, encodeInt, fault?, wordOf, h]
    · cases p <;> simp [encode, encodeInt, fault?, wordOf, h, isInteger, kind]
  | float x =>
    by_cases h : x.isFinite = true ∧ x.narrow.isInfinite = true
    · cases p <;> simp [encode, encodeFloat, fault?, wordOf, h, isInteger, kind]
    · cases p <;> simp [encode, encodeFloat, fault?, wordOf, h, isInteger, kind]

/-! ### Integers in two's complement -/

theorem two_pow_bits (p : Primitive) : (2 : Int) ^ (8 * p.width) = 2 * 2 ^ (8 * p.width - 1) := by
  have hw := p.width_pos
  obtain ⟨k, hk⟩ : ∃ k, 8 * p.width = k + 1 := ⟨8 * p.width - 1, by omega⟩
  rw [hk, Nat.add_sub_cancel, Int.pow_succ, Int.mul_comm]

theorem holds_signed {p : Primitive} (hk : p.kind = .signed) (n : Int) :
    p.holds n = true ↔ -2 ^ (8 * p.width - 1) ≤ n ∧ n < 2 ^ (8 * p.width - 1) := by
  simp only [holds, minValue?, maxValue?, hk, Option.any_some, Bool.and_eq_true, decide_eq_true_eq]
  omega

theorem holds_unsigned {p : Primitive} (hk : p.kind = .unsigned) (n : Int) :
    p.holds n = true ↔ 0 ≤ n ∧ n < 2 ^ (8 * p.width) := by
  simp only [holds, minValue?, maxValue?, hk, Option.any_some, Bool.and_eq_true, decide_eq_true_eq]
  omega

theorem not_holds_float {p : Primitive} (hk : p.kind = .float) (n : Int) : p.holds n = false := by
  simp [holds, minValue?, hk]

theorem wrap_lt (p : Primitive) (n : Int) : p.wrap n < 2 ^ (8 * p.width) := by
  have hp : (0 : Int) < 2 ^ (8 * p.width) := Int.pow_pos (by decide)
  have hl := Int.emod_nonneg n (Int.ne_of_gt hp)
  have hh := Int.emod_lt_of_pos n hp
  have hc : ((2 ^ (8 * p.width) : Nat) : Int) = 2 ^ (8 * p.width) := by push_cast; rfl
  rw [wrap]
  omega

/-- **An integer in the range comes back from its word.** -/
theorem unwrap_wrap {p : Primitive} {n : Int} (h : p.holds n) : p.unwrap (p.wrap n) = n := by
  have hb := two_pow_bits p
  have hc : ((2 ^ (8 * p.width - 1) : Nat) : Int) = 2 ^ (8 * p.width - 1) := by push_cast; rfl
  cases hk : p.kind with
  | float => exact absurd h (by simp [not_holds_float hk])
  | unsigned =>
    obtain ⟨hl, hh⟩ := (holds_unsigned hk n).mp h
    rw [unwrap, if_neg (by simp [hk]), wrap, Int.emod_eq_of_lt hl hh]
    omega
  | signed =>
    obtain ⟨hl, hh⟩ := (holds_signed hk n).mp h
    by_cases h0 : 0 ≤ n
    · have hw : (p.wrap n : Int) = n := by
        rw [wrap, Int.emod_eq_of_lt h0 (by omega)]
        omega
      rw [unwrap, if_neg (by omega), hw]
    · have hw : (p.wrap n : Int) = n + 2 ^ (8 * p.width) := by
        rw [wrap, ← Int.add_emod_right, Int.emod_eq_of_lt (by omega) (by omega)]
        omega
      rw [unwrap, if_pos ⟨hk, by omega⟩, hw]
      omega

theorem holds_unwrap {p : Primitive} (hi : p.isInteger) {n : Nat} (h : n < 2 ^ (8 * p.width)) :
    p.holds (p.unwrap n) := by
  have hb := two_pow_bits p
  have hc : ((2 ^ (8 * p.width - 1) : Nat) : Int) = 2 ^ (8 * p.width - 1) := by push_cast; rfl
  have hd : ((2 ^ (8 * p.width) : Nat) : Int) = 2 ^ (8 * p.width) := by push_cast; rfl
  cases hk : p.kind with
  | float => simp [isInteger, hk] at hi
  | unsigned =>
    rw [holds_unsigned hk, unwrap, if_neg (by simp [hk])]
    omega
  | signed =>
    rw [holds_signed hk, unwrap]
    simp only [hk, true_and]
    split <;> omega

/-- **A word comes back from its integer.** -/
theorem wrap_unwrap {p : Primitive} {n : Nat} (h : n < 2 ^ (8 * p.width)) :
    p.wrap (p.unwrap n) = n := by
  have hd : ((2 ^ (8 * p.width) : Nat) : Int) = 2 ^ (8 * p.width) := by push_cast; rfl
  have he : (n : Int) % 2 ^ (8 * p.width) = n := Int.emod_eq_of_lt (by omega) (by omega)
  rw [wrap, unwrap]
  split
  · rw [Int.sub_emod_right, he]
    rfl
  · rw [he]
    rfl

/-! ### Both directions -/

theorem two_pow_bits_eq (p : Primitive) : 2 ^ (8 * p.width) = 256 ^ p.width := by
  rw [Nat.pow_mul]

theorem wordOf_lt (p : Primitive) (x : Number) (h : p.fault? x = none) :
    p.wordOf x < 256 ^ p.width := by
  rw [← two_pow_bits_eq]
  cases x with
  | int n =>
    cases p with
    | float32 => exact Binary.toNat_lt (F := .binary32) _
    | float64 => exact Binary.toNat_lt (F := .binary64) _
    | _ => exact wrap_lt _ n
  | float x =>
    cases p with
    | float32 => exact Binary.toNat_lt (F := .binary32) _
    | float64 => exact Binary.toNat_lt (F := .binary64) _
    | _ => simp [fault?, isInteger, kind] at h

/-- **What is left of a number is read back from its word.** -/
theorem decode_wordOf (p : Primitive) (x : Number) (h : p.fault? x = none) :
    p.decode (p.wordOf x) = p.normalize x := by
  cases x with
  | int n =>
    by_cases hh : p.holds n = true
    · cases p <;> simp [decode, wordOf, normalize, unwrap_wrap, hh, Binary.ofNat_toNat]
    · cases p <;> simp_all [decode, wordOf, normalize, fault?, isInteger, kind, Binary.ofNat_toNat]
  | float x =>
    cases p <;> simp_all [decode, wordOf, normalize, fault?, isInteger, kind, Binary.ofNat_toNat]

theorem fault?_decode (p : Primitive) {n : Nat} (h : n < 256 ^ p.width) :
    p.fault? (p.decode n) = none := by
  rw [← two_pow_bits_eq] at h
  have hw : ∀ x : Binary32, ¬(x.widen.isFinite = true ∧ x.widen.narrow.isInfinite = true) := by
    rintro x ⟨hf, hi⟩
    rw [Binary.isFinite_widen, Binary.isFinite, Bool.not_eq_true'] at hf
    rw [Binary.narrow_widen, Binary.isInfinite, hf] at hi
    exact absurd hi Bool.false_ne_true
  cases p with
  | float32 => simp only [decode, fault?, isInteger, kind, hw]; simp
  | float64 => simp [decode, fault?, isInteger, kind]
  | _ => simp [decode, fault?, holds_unwrap (by rfl) h]

theorem wordOf_decode (p : Primitive) {n : Nat} (h : n < 256 ^ p.width) :
    p.wordOf (p.decode n) = n := by
  rw [← two_pow_bits_eq] at h
  cases p with
  | float32 =>
    simp only [decode, wordOf, Binary.narrow_widen]
    exact Binary.toNat_ofNat (F := .binary32) n h
  | float64 => exact Binary.toNat_ofNat (F := .binary64) n h
  | _ => exact wrap_unwrap h

/-- Numbers that a type has exactly are those that the rounding leaves alone. -/
theorem normalize_normalize (p : Primitive) (x : Number) :
    p.normalize (p.normalize x) = p.normalize x := by
  cases x <;> cases p <;> simp [normalize, Binary.narrow_widen]

end ByteLayout.Primitive
