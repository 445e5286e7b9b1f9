import ByteLayout.Proofs.Layout.Decoding

/-!
# What packing keeps of a value

A layout has a precision: integer types and `float64` keep the numbers they
take, but `float64` makes patterns of integers, and `float32` rounds whatever
it is given.  `Layout.normalize` does just that to a value and nothing else, so
it changes the leaves and never the shape.

`decode_encode` says that this is all that is lost: what comes back from the
bytes of a value is the value normalized.  So two values have the same bytes
exactly if they are normalized to the same, and the values made of numbers that
their leaves keep come back as they were.
-/

namespace ByteLayout

/-- Whether a number comes back from the type as it was: an integer from an integer type, a pattern
from `float64`. -/
def Primitive.keeps (p : Primitive) : Number → Bool
  | .int _ => p.isInteger
  | .float _ => p == .float64

theorem Primitive.normalize_of_keeps {p : Primitive} {x : Number} (h : p.keeps x) :
    p.normalize x = x := by
  cases x with
  | int n =>
    cases p with
    | float32 => cases h
    | float64 => cases h
    | _ => rfl
  | float x =>
    cases p with
    | float64 => rfl
    | _ => cases h

/-- The number in a value, in the precision of the type. -/
def Scalar.normalize (s : Scalar) : Value → Value
  | .number x => .number (s.primitive.normalize x)
  | .list vs => .list vs

namespace Layout

/-- **What is left of a value in the precision of a layout**: each number in that of its leaf. -/
def normalize : Layout → Value → Value :=
  fold Scalar.normalize fun _ members v =>
    match v with
    | .number x => .number x
    | .list vs => .list (List.zipWith (fun f v => f v) members vs)

theorem normalize_number {T : Layout} (h : T.scalar? = none) (x : Number) :
    T.normalize (.number x) = .number x := by
  rw [normalize, fold_composite _ _ h]

theorem normalize_list {T : Layout} (h : T.scalar? = none) (vs : List Value) :
    T.normalize (.list vs) = .list (List.zipWith normalize T.members vs) := by
  rw [normalize, fold_composite _ _ h]
  simp only [List.zipWith_map_left]

/-! ### A second time changes nothing -/

theorem zipWith_normalize_normalize {Ts : List Layout}
    (ih : ∀ T ∈ Ts, ∀ v, T.normalize (T.normalize v) = T.normalize v) :
    ∀ vs : List Value, List.zipWith normalize Ts (List.zipWith normalize Ts vs) =
      List.zipWith normalize Ts vs := by
  induction Ts with
  | nil => intro vs; rfl
  | cons T Ts ihTs =>
    intro vs
    cases vs with
    | nil => rfl
    | cons v vs =>
      simp only [List.zipWith_cons_cons]
      rw [ih T List.mem_cons_self, ihTs fun U hU => ih U (List.mem_cons_of_mem _ hU)]

/-- **The precision of a layout is reached at once.** -/
theorem normalize_normalize (T : Layout) : ∀ v, T.normalize (T.normalize v) = T.normalize v := by
  induction T using byMembers with
  | scalar s =>
    intro v
    cases v with
    | number x => exact congrArg Value.number (Primitive.normalize_normalize _ x)
    | list vs => rfl
  | composite T h ih =>
    intro v
    cases v with
    | number x => rw [normalize_number h, normalize_number h]
    | list vs => rw [normalize_list h, normalize_list h, zipWith_normalize_normalize ih]

/-! ### Back from the bytes -/

theorem decodeAll_encodeAll {Ts : List Layout}
    (ih : ∀ T ∈ Ts, ∀ v bytes, T.encode v = .ok bytes → T.decode bytes = T.normalize v) :
    ∀ (vs : List Value) (bytes : Bytes), vs.length = Ts.length → encodeAll Ts vs = .ok bytes →
      decodeAll Ts bytes = List.zipWith normalize Ts vs := by
  induction Ts with
  | nil => intro vs bytes _ _; rfl
  | cons T Ts ihTs =>
    intro vs bytes hl he
    cases vs with
    | nil => cases hl
    | cons v vs =>
      obtain ⟨first, rest, hv, hvs, rfl⟩ := encodeAll_cons_ok.mp he
      rw [decodeAll_append (encode_length T v first hv), List.zipWith_cons_cons,
        ih T List.mem_cons_self v first hv,
        ihTs (fun U hU => ih U (List.mem_cons_of_mem _ hU)) vs rest (Nat.succ.inj hl) hvs]

/-- **What comes back from the bytes of a value** is the value in the precision of the layout. -/
theorem decode_encode (T : Layout) :
    ∀ v bytes, T.encode v = .ok bytes → T.decode bytes = T.normalize v := by
  induction T using byMembers with
  | scalar s =>
    intro v bytes he
    obtain ⟨x, rfl, hf, rfl⟩ := encode_scalar_ok.mp he
    show Value.number (s.primitive.decode (Bytes.decode s.order (s.bytesOf x))) = _
    rw [Scalar.bytesOf, Scalar.width, Bytes.decode_encode_of_lt _ (Primitive.wordOf_lt _ x hf),
      Primitive.decode_wordOf _ x hf]
    rfl
  | composite T h ih =>
    intro v bytes he
    obtain ⟨vs, rfl, hl, he⟩ := (encode_composite_ok h).mp he
    rw [decode_composite h, normalize_list h, decodeAll_encodeAll ih vs bytes hl he]

theorem encode_normalize {T : Layout} {v : Value} {bytes : Bytes} (h : T.encode v = .ok bytes) :
    T.encode (T.normalize v) = .ok bytes := by
  rw [← decode_encode T v bytes h, encode_decode T bytes (encode_length T v bytes h)]

theorem unpack_of_encode {T : Layout} {v : Value} {bytes : Bytes} (h : T.encode v = .ok bytes) :
    T.unpack bytes = .ok (T.normalize v) := by
  rw [unpack_eq, if_pos (encode_length T v bytes h), decode_encode T v bytes h]

/-- What comes back of the fields of a struct. -/
theorem fields_unpack_pack {fs : Fields} {vs : List Value} {bytes : Bytes}
    (h : fs.pack vs = .ok bytes) :
    fs.unpack bytes = .ok (List.zipWith normalize fs.types vs) := by
  obtain ⟨hl, he⟩ := fields_pack_ok.mp h
  have hw : bytes.length = fs.width := by
    rw [← totalWidth_types]
    exact encodeAll_length (fun T _ => encode_length T) vs bytes hl he
  rw [fields_unpack_eq, if_pos hw, decodeAll_encodeAll (fun T _ => decode_encode T) vs bytes hl he]

/-! ### Values that lose nothing -/

theorem zipWith_normalize_of_keeps {Ts : List Layout}
    (ih : ∀ T ∈ Ts, ∀ v, (∃ bytes, T.encode v = .ok bytes) →
      (∀ l ∈ T.leaves v, l.1.primitive.keeps l.2) → T.normalize v = v) :
    ∀ vs : List Value, vs.length = Ts.length → (∃ bytes, encodeAll Ts vs = .ok bytes) →
      (∀ l ∈ (List.zipWith leaves Ts vs).flatten, l.1.primitive.keeps l.2) →
      List.zipWith normalize Ts vs = vs := by
  induction Ts with
  | nil =>
    intro vs hl _ _
    rw [List.length_eq_zero_iff.mp hl]
    rfl
  | cons T Ts ihTs =>
    intro vs hl he hk
    cases vs with
    | nil => cases hl
    | cons v vs =>
      obtain ⟨bytes, he⟩ := he
      obtain ⟨first, rest, hv, hvs, -⟩ := encodeAll_cons_ok.mp he
      rw [List.zipWith_cons_cons, List.flatten_cons] at hk
      rw [List.zipWith_cons_cons,
        ih T List.mem_cons_self v ⟨first, hv⟩ fun l h => hk l (List.mem_append_left _ h),
        ihTs (fun U hU => ih U (List.mem_cons_of_mem _ hU)) vs (Nat.succ.inj hl) ⟨rest, hvs⟩
          fun l h => hk l (List.mem_append_right _ h)]

theorem normalize_of_keeps (T : Layout) : ∀ v, (∃ bytes, T.encode v = .ok bytes) →
    (∀ l ∈ T.leaves v, l.1.primitive.keeps l.2) → T.normalize v = v := by
  induction T using byMembers with
  | scalar s =>
    intro v _ hk
    cases v with
    | number x =>
      exact congrArg Value.number (Primitive.normalize_of_keeps (hk (s, x) List.mem_cons_self))
    | list vs => rfl
  | composite T h ih =>
    intro v he hk
    obtain ⟨bytes, he⟩ := he
    obtain ⟨vs, rfl, hl, he⟩ := (encode_composite_ok h).mp he
    rw [leaves_list h] at hk
    rw [normalize_list h, zipWith_normalize_of_keeps ih vs hl ⟨bytes, he⟩ hk]

/-- **Unpacking undoes packing up to the precision of the layout.**  A packed value comes back
normalized, and it is the normalized value that the bytes tell apart; where every leaf keeps its
number, the value comes back as it was. -/
theorem unpack_pack (T : Layout) :
    (∀ v, T.normalize (T.normalize v) = T.normalize v) ∧
      (∀ v bytes, T.pack v = .ok bytes →
        T.unpack bytes = .ok (T.normalize v) ∧ T.pack (T.normalize v) = .ok bytes) ∧
      (∀ v w bytes bytes', T.pack v = .ok bytes → T.pack w = .ok bytes' →
        (bytes = bytes' ↔ T.normalize v = T.normalize w)) ∧
      ∀ v bytes, T.pack v = .ok bytes → (∀ l ∈ T.leaves v, l.1.primitive.keeps l.2) →
        T.unpack bytes = .ok v := by
  simp only [pack_eq_encode]
  refine ⟨normalize_normalize T, ?_, ?_, ?_⟩
  · intro v bytes h
    exact ⟨unpack_of_encode h, encode_normalize h⟩
  · intro v w bytes bytes' hv hw
    constructor
    · rintro rfl
      rw [← decode_encode T v bytes hv, decode_encode T w bytes hw]
    · intro hn
      have hb := encode_normalize hv
      rw [hn, encode_normalize hw] at hb
      exact (Except.ok.inj hb).symm
  · intro v bytes h hk
    rw [unpack_of_encode h, normalize_of_keeps T v ⟨bytes, h⟩ hk]

/-- An integer and its pattern are packed to the same bytes in single precision, and in double
precision a signalling NaN comes back as it was. -/
theorem unpack_pack_tagged :
    tagged.unpack [2, 0, 1, 0, 0, 128, 191, 255, 253, 0, 0, 128, 64] =
        .ok (tagged.normalize (taggedOf (.int 2) (.int 1) (.int (-1)) (.int (-3)) (.int 4))) ∧
      tagged.normalize (taggedOf (.int 2) (.int 1) (.int (-1)) (.int (-3)) (.int 4)) =
        tagged.normalize (taggedOf (.int 2) (.int 1) (.float (.ofNat 0xbff0000000000000))
          (.int (-3)) (.int 4)) ∧
      (scalar ⟨.float64, .bigEndian⟩).unpack [127, 240, 0, 0, 0, 0, 0, 1] =
        .ok (.number (.float (.ofNat 0x7ff0000000000001))) := by
  have hv : tagged.pack (taggedOf (.int 2) (.int 1) (.int (-1)) (.int (-3)) (.int 4)) =
      .ok [2, 0, 1, 0, 0, 128, 191, 255, 253, 0, 0, 128, 64] := rfl
  have hw : tagged.pack (taggedOf (.int 2) (.int 1) (.float (.ofNat 0xbff0000000000000)) (.int (-3))
      (.int 4)) = .ok [2, 0, 1, 0, 0, 128, 191, 255, 253, 0, 0, 128, 64] := rfl
  have hx : (scalar ⟨.float64, .bigEndian⟩).pack (.number (.float (.ofNat 0x7ff0000000000001))) =
      .ok [127, 240, 0, 0, 0, 0, 0, 1] := rfl
  obtain ⟨-, hback, hsame, -⟩ := unpack_pack tagged
  obtain ⟨-, -, -, hkeep⟩ := unpack_pack (scalar ⟨.float64, .bigEndian⟩)
  exact ⟨(hback _ _ hv).1, (hsame _ _ _ _ hv hw).mp rfl, hkeep _ _ hx (by decide)⟩

end Layout

end ByteLayout
