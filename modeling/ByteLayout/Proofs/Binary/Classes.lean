import ByteLayout.Proofs.Binary.Widen

/-!
# Signs, infinities and NaNs between the formats

A pattern of `binary64` that is narrowed keeps its sign and stays what it is of
the three kinds, but for a finite one that is rounded to an infinity.  A NaN
stays one because its payload is never lost altogether: `narrowPayload` is the
top of it, and the quiet bit where the top is empty.  Widened again, such a NaN
is the one there was with the lowest bits of its payload cleared.

Arithmetic widens a NaN otherwise than the payload is moved: it makes it quiet.
`promote_eq` says that this is all it does, so a NaN that was quiet before, and
every number, is widened to the same pattern either way.
-/

namespace ByteLayout

-- Powers are those of the core library.
attribute [local instance (2000)] instPowNat

namespace Binary

variable {F : Format}

/-! ### Rounded patterns and infinities are no NaNs -/

theorem isNaN_ofMagnitude (s : Bool) {n : Nat} (h : n ≤ F.infinity) :
    (ofMagnitude s n : Binary F).isNaN = false := by
  rcases Nat.lt_or_eq_of_le h with h | rfl
  · exact isNaN_of_isFinite (isFinite_ofMagnitude s h)
  · exact isNaN_infinite s

theorem isNaN_round (s : Bool) (m : Nat) (q : Int) : (round F s m q).isNaN = false := by
  rw [round]
  split
  · exact isNaN_ofMagnitude s (Nat.zero_le _)
  · exact isNaN_ofMagnitude s (Nat.min_le_right _ _)

theorem isInfinite_iff (x : Binary F) : x.isInfinite = (x.isSpecial && !x.isNaN) := by
  rw [isInfinite, isNaN]
  cases x.isSpecial <;> cases h : (x.fraction.val == 0) <;> simp_all

theorem isInfinite_infinite (s : Bool) : (infinite s : Binary F).isInfinite := by
  rw [isInfinite_iff, isSpecial_infinite, isNaN_infinite]
  rfl

/-! ### Narrowing by kinds -/

/-- **The payload that is left of a NaN in single precision.** -/
def narrowPayload (x : Binary64) : Nat :=
  if x.fraction.val / 2 ^ payloadGap = 0 then Format.binary32.quietBit
  else x.fraction.val / 2 ^ payloadGap

theorem narrowPayload_lt (x : Binary64) : x.narrowPayload < 2 ^ Format.binary32.fractionBits := by
  have hf : x.fraction.val < 2 ^ 52 := x.fraction.isLt
  have hg : payloadGap = 29 := by decide
  have hp : Format.binary32.fractionBits = 23 := rfl
  have hq : Format.binary32.quietBit = 2 ^ 22 := rfl
  rw [narrowPayload, hg, hp, hq]
  split <;> omega

theorem narrowPayload_ne_zero (x : Binary64) : x.narrowPayload ≠ 0 := by
  rw [narrowPayload]
  split
  · decide
  · assumption

theorem narrow_of_isNaN {x : Binary64} (h : x.isNaN) :
    x.narrow = nan x.negative x.narrowPayload := by
  rw [narrow, if_pos h]
  rfl

theorem narrow_of_infinite {x : Binary64} (h : x.isInfinite) :
    x.narrow = infinite x.negative := by
  rw [isInfinite_iff, Bool.and_eq_true, Bool.not_eq_true'] at h
  rw [narrow, h.2, if_neg Bool.false_ne_true, convert, if_pos h.1]

theorem isNaN_nan (s : Bool) {payload : Nat} (h : payload < 2 ^ F.fractionBits)
    (h0 : payload ≠ 0) : (nan s payload : Binary F).isNaN := by
  rw [isNaN, isSpecial_nan s h, fraction_nan s h, Bool.true_and, bne_iff_ne]
  exact h0

/-- **Narrowing keeps the sign.** -/
theorem negative_narrow (x : Binary64) : x.narrow.negative = x.negative := by
  cases hn : x.isNaN with
  | true => rw [narrow_of_isNaN hn, negative_nan]
  | false =>
    rw [narrow, hn, if_neg Bool.false_ne_true, convert]
    split
    · rfl
    · exact negative_round _ _ _

/-- **Narrowing makes no NaN and loses none.** -/
theorem isNaN_narrow (x : Binary64) : x.narrow.isNaN = x.isNaN := by
  cases hn : x.isNaN with
  | true => rw [narrow_of_isNaN hn, isNaN_nan _ x.narrowPayload_lt x.narrowPayload_ne_zero]
  | false =>
    rw [narrow, hn, if_neg Bool.false_ne_true, convert]
    split
    · exact isNaN_infinite _
    · exact isNaN_round _ _ _

/-- **The same sign and the same of the three kinds**, in whatever formats. -/
structure SameKind {F G : Format} (x : Binary F) (y : Binary G) : Prop where
  negative : x.negative = y.negative
  isNaN : x.isNaN = y.isNaN
  isInfinite : x.isInfinite = y.isInfinite

/-- **Where no finite pattern becomes infinite**, narrowing keeps sign and kind. -/
theorem sameKind_narrow {x : Binary64} (h : ¬(x.isFinite ∧ x.narrow.isInfinite)) :
    x.narrow.SameKind x := by
  refine ⟨negative_narrow x, isNaN_narrow x, ?_⟩
  cases hi : x.isInfinite with
  | true => rw [narrow_of_infinite hi, isInfinite_infinite]
  | false =>
    rw [isInfinite_iff] at hi
    cases hn : x.isNaN with
    | true => rw [isInfinite_iff, isNaN_narrow, hn, Bool.not_true, Bool.and_false]
    | false =>
      have hf : x.isFinite := by simpa [isFinite, hn] using hi
      simpa [hf] using h

/-! ### And back -/

/-- The pattern with its lowest `k` fraction bits cleared. -/
def clearLow (k : Nat) (x : Binary F) : Binary F :=
  { x with fraction := ⟨x.fraction.val / 2 ^ k * 2 ^ k,
      Nat.lt_of_le_of_lt (Nat.div_mul_le_self _ _) x.fraction.isLt⟩ }

theorem clearLow_of_isSpecial (k : Nat) {x : Binary F} (h : x.isSpecial) :
    x.clearLow k = nan x.negative (x.fraction.val / 2 ^ k * 2 ^ k) :=
  (nan_fraction (x := x.clearLow k) h).symm

theorem widen_narrow_of_isNaN {x : Binary64} (h : x.isNaN) :
    x.narrow.widen = nan x.negative (x.narrowPayload * 2 ^ payloadGap) := by
  have hn : x.narrow.isNaN := by rw [isNaN_narrow, h]
  rw [widen_of_isNaN hn, narrow_of_isNaN h, negative_nan, fraction_nan _ x.narrowPayload_lt]

/-! ### Quiet NaNs -/

/-- Whether the pattern is a NaN without the quiet bit. -/
def isSignalling (x : Binary F) : Bool := x.isNaN && decide (x.fraction.val < F.quietBit)

/-- The pattern with the quiet bit set if it is a NaN. -/
def quieted (x : Binary F) : Binary F :=
  if x.isNaN then nan x.negative (x.fraction.val ||| F.quietBit) else x

/-- The quiet bit is the top bit of the payload. -/
theorem or_quietBit_eq_iff (hF : 0 < F.fractionBits) {payload : Nat}
    (h : payload < 2 ^ F.fractionBits) :
    payload ||| F.quietBit = payload ↔ F.quietBit ≤ payload := by
  constructor
  · intro he
    rw [← he]
    exact Nat.right_le_or
  · intro hle
    have hp : 2 ^ F.fractionBits = F.quietBit * 2 := by
      rw [Format.quietBit, ← Nat.pow_succ, Nat.succ_eq_add_one, Nat.sub_add_cancel hF]
    have hlow : payload - F.quietBit < 2 ^ (F.fractionBits - 1) := by
      rw [Format.quietBit] at hp hle ⊢
      omega
    have hor := Nat.two_pow_add_eq_or_of_lt hlow 1
    rw [Nat.mul_one, ← Format.quietBit, Nat.add_sub_cancel' hle] at hor
    rw [hor, Nat.or_comm, ← Nat.or_assoc, Nat.or_self]

theorem or_quietBit_lt (hF : 0 < F.fractionBits) {payload : Nat}
    (h : payload < 2 ^ F.fractionBits) : payload ||| F.quietBit < 2 ^ F.fractionBits :=
  Nat.or_lt_two_pow h (Nat.pow_lt_pow_right Nat.one_lt_two (Nat.sub_lt hF Nat.one_pos))

theorem isNaN_quieted (hF : 0 < F.fractionBits) {x : Binary F} (h : x.isNaN) :
    x.quieted.isNaN := by
  rw [quieted, if_pos h]
  apply isNaN_nan _ (or_quietBit_lt hF x.fraction.isLt)
  have hle : F.quietBit ≤ x.fraction.val ||| F.quietBit := Nat.right_le_or
  have hpos : 0 < F.quietBit := Nat.two_pow_pos _
  omega

/-- **Only a signalling NaN is changed.** -/
theorem quieted_eq_iff (hF : 0 < F.fractionBits) (x : Binary F) :
    x.quieted = x ↔ x.isSignalling = false := by
  cases hn : x.isNaN with
  | false => simp [quieted, isSignalling, hn]
  | true =>
    have hfrac := fraction_nan (F := F) x.negative (or_quietBit_lt hF x.fraction.isLt)
    have hsig : x.isSignalling = false ↔ F.quietBit ≤ x.fraction.val := by
      simp [isSignalling, hn]
    rw [quieted, if_pos hn, hsig, ← or_quietBit_eq_iff hF x.fraction.isLt]
    constructor
    · intro h
      rw [← hfrac, h]
    · intro h
      rw [h, nan_fraction (isSpecial_of_isNaN hn)]

/-- **Arithmetic sets the quiet bit and moves the payload.** -/
theorem promote_eq (x : Binary32) : x.promote = x.quieted.widen := by
  cases hn : x.isNaN with
  | false => simp only [promote, widen, quieted, hn, Bool.false_eq_true, if_false]
  | true =>
    have hlt := or_quietBit_lt (F := .binary32) (by decide) x.fraction.isLt
    have hbit : Format.binary64.quietBit = Format.binary32.quietBit * 2 ^ payloadGap := by decide
    rw [widen_of_isNaN (isNaN_quieted (by decide) hn), promote, quieted, if_pos hn, if_pos hn,
      negative_nan, fraction_nan _ hlt, hbit]
    simp only [← Nat.shiftLeft_eq, Nat.shiftLeft_or_distrib]

theorem widen_inj {x y : Binary32} : x.widen = y.widen ↔ x = y :=
  ⟨fun h => by rw [← narrow_widen x, h, narrow_widen], congrArg widen⟩

end Binary

end ByteLayout
