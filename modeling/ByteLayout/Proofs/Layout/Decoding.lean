import ByteLayout.Proofs.Layout.Encoding

/-!
# The plain meaning of unpacking

`Layout.decode` cuts the bytes of a layout into those of its members, and
decodes each.  It takes any bytes and refuses none: what unpacking does beyond
it is to ask, once and at the outermost layout, whether there are enough.  That
is `unpackAt_apply`, from which `unpack_eq` follows: the members never run out
of bytes.

`encode_decode` closes the circle.  Whatever the bytes are, packing what they
decode to gives them back, so no two runs of bytes of a layout have the same
value and every one of them has a value.
-/

namespace ByteLayout.Layout

/-- Each decoder on the bytes of its layout, these being taken one after the other. -/
def decodeWith : List Layout → List (Bytes → Value) → Bytes → List Value
  | T :: Ts, f :: fs, bytes => f (bytes.take T.width) :: decodeWith Ts fs (bytes.drop T.width)
  | _, _, _ => []

/-- **The plain meaning of unpacking**: each leaf from its own bytes. -/
def decode : Layout → Bytes → Value :=
  fold Scalar.decode fun Ts members bytes => .list (decodeWith Ts members bytes)

/-- The value of each layout from its own bytes. -/
def decodeAll (Ts : List Layout) (bytes : Bytes) : List Value :=
  decodeWith Ts (Ts.map decode) bytes

theorem decode_composite {T : Layout} (h : T.scalar? = none) (bytes : Bytes) :
    T.decode bytes = .list (decodeAll T.members bytes) := by
  rw [decode, fold_composite _ _ h]
  rfl

theorem decodeAll_cons (T : Layout) (Ts : List Layout) (bytes : Bytes) :
    decodeAll (T :: Ts) bytes =
      T.decode (bytes.take T.width) :: decodeAll Ts (bytes.drop T.width) := rfl

/-- The bytes of the first member are followed by those of the others. -/
theorem decodeAll_append {T : Layout} {first : Bytes} (h : first.length = T.width)
    (Ts : List Layout) (rest : Bytes) :
    decodeAll (T :: Ts) (first ++ rest) = T.decode first :: decodeAll Ts rest := by
  rw [decodeAll_cons, List.take_left' h, List.drop_left' h]

theorem exists_append_of_length {T : Layout} {Ts : List Layout} {bytes : Bytes}
    (h : bytes.length = totalWidth (T :: Ts)) :
    ∃ first rest, bytes = first ++ rest ∧ first.length = T.width ∧
      rest.length = totalWidth Ts := by
  rw [totalWidth] at h
  refine ⟨bytes.take T.width, bytes.drop T.width, (List.take_append_drop _ _).symm, ?_, ?_⟩
  · rw [List.length_take]
    omega
  · rw [List.length_drop]
    omega

theorem length_decodeAll (Ts : List Layout) : ∀ bytes, (decodeAll Ts bytes).length = Ts.length := by
  induction Ts with
  | nil => intro bytes; rfl
  | cons T Ts ih => intro bytes; rw [decodeAll_cons, List.length_cons, ih, List.length_cons]

/-! ### From a buffer -/

theorem next_append (b : Buffer) (m n : Nat) :
    (b.next (m + n)).take m = b.next m ∧
      (b.next (m + n)).drop m = Buffer.next { b with offset := b.offset + m } n := by
  constructor
  · rw [Buffer.next, List.take_take, Nat.min_eq_left (Nat.le_add_right m n), Buffer.next]
  · rw [Buffer.next, List.drop_take, List.drop_drop, Nat.add_sub_cancel_left, Buffer.next]

/-- **Members are taken one after the other**, and where there are enough bytes for all, there are
enough for each. -/
theorem unpackAll_apply {Ts : List Layout}
    (ih : ∀ T ∈ Ts, ∀ b : Buffer, ¬b.remaining < T.width →
      T.unpackAt b = .ok (T.decode (b.next T.width)) { b with offset := b.offset + T.width }) :
    ∀ b : Buffer, ¬b.remaining < totalWidth Ts →
      unpackAll Ts b =
        .ok (decodeAll Ts (b.next (totalWidth Ts)))
          { b with offset := b.offset + totalWidth Ts } := by
  induction Ts with
  | nil => intro b _; rfl
  | cons T Ts ihTs =>
    intro b hb
    rw [totalWidth] at hb ⊢
    obtain ⟨ht, hd⟩ := next_append b T.width (totalWidth Ts)
    have hT := ih T List.mem_cons_self b (by omega)
    have hTs := ihTs (fun U hU => ih U (List.mem_cons_of_mem _ hU))
      { b with offset := b.offset + T.width }
      (by simp only [Buffer.remaining] at hb ⊢; omega)
    rw [unpackAll, Steps.bind_apply, hT, decodeAll_cons, ht, hd, ← Nat.add_assoc]
    simp only [Steps.bind_apply, hTs, Steps.pure_apply]

/-- Members are taken all together or not at all. -/
theorem unpackMembers_apply {Ts : List Layout}
    (ih : ∀ T ∈ Ts, ∀ b : Buffer, ¬b.remaining < T.width →
      T.unpackAt b = .ok (T.decode (b.next T.width)) { b with offset := b.offset + T.width })
    (b : Buffer) :
    Buffer.unpackMembers (totalWidth Ts) (unpackAll Ts) b =
      if b.remaining < totalWidth Ts then .error (.lengthMismatch (totalWidth Ts) b.remaining) b
      else .ok (decodeAll Ts (b.next (totalWidth Ts)))
        { b with offset := b.offset + totalWidth Ts } := by
  rw [Buffer.unpackMembers, Steps.bind_apply, Buffer.require_apply]
  by_cases hb : b.remaining < totalWidth Ts
  · simp only [if_pos hb]
  · simp only [if_neg hb, transaction, unpackAll_apply ih b hb]

/-- **The outcomes of unpacking.**  There is one question only, asked of the outermost layout. -/
theorem unpackAt_apply (T : Layout) : ∀ b : Buffer,
    T.unpackAt b =
      if b.remaining < T.width then .error (.lengthMismatch T.width b.remaining) b
      else .ok (T.decode (b.next T.width)) { b with offset := b.offset + T.width } := by
  induction T using byMembers with
  | scalar s => exact (Buffer.takes_take s.primitive.width_pos).map s.decode
  | composite T h ih =>
    intro b
    have hm : ∀ U ∈ T.members, ∀ c : Buffer, ¬c.remaining < U.width →
        U.unpackAt c =
          .ok (U.decode (c.next U.width)) { c with offset := c.offset + U.width } := by
      intro U hU c hc
      rw [ih U hU c, if_neg hc]
    rw [unpackAt_composite h, Steps.bind_apply, width_composite h, unpackMembers_apply hm]
    by_cases hb : b.remaining < totalWidth T.members
    · simp only [if_pos hb]
    · simp only [if_neg hb, Steps.pure_apply, decode_composite h]

theorem unpackAt_ok {T : Layout} {b : Buffer} (h : ¬b.remaining < T.width) :
    T.unpackAt b = .ok (T.decode (b.next T.width)) { b with offset := b.offset + T.width } := by
  rw [unpackAt_apply, if_neg h]

theorem unpackAt_inside {T : Layout} {data : Bytes} {base : Nat}
    (h : base + T.width ≤ data.length) :
    T.unpackAt ⟨data, base⟩ =
      .ok (T.decode (Buffer.next ⟨data, base⟩ T.width)) ⟨data, base + T.width⟩ := by
  apply unpackAt_ok
  show ¬data.length - base < T.width
  omega

theorem takes_unpackAt (T : Layout) : Buffer.Takes T.unpackAt T.width T.decode := T.unpackAt_apply

/-- The fields of a struct are unpacked as its members. -/
theorem takes_fields_unpackAt (fs : Fields) :
    Buffer.Takes fs.unpackAt fs.width (decodeAll fs.types) := by
  intro b
  rw [Fields.unpackAt, unpackEach_eq, ← totalWidth_types]
  exact unpackMembers_apply (fun _ _ _ => unpackAt_ok) b

theorem unpack_eq (T : Layout) (data : Bytes) :
    T.unpack data =
      if data.length = T.width then .ok (T.decode data)
      else .error (.lengthMismatch T.width data.length) :=
  T.takes_unpackAt.exactly data

theorem fields_unpack_eq (fs : Fields) (data : Bytes) :
    fs.unpack data =
      if data.length = fs.width then .ok (decodeAll fs.types data)
      else .error (.lengthMismatch fs.width data.length) :=
  (takes_fields_unpackAt fs).exactly data

theorem scalar_unpack_eq (s : Scalar) (data : Bytes) :
    s.unpack data =
      if data.length = s.width then .ok (s.decode data)
      else .error (.lengthMismatch s.width data.length) :=
  (scalar s).unpack_eq data

/-! ### Back to the bytes -/

theorem encodeAll_decodeAll {Ts : List Layout}
    (ih : ∀ T ∈ Ts, ∀ bytes : Bytes, bytes.length = T.width →
      T.encode (T.decode bytes) = .ok bytes) :
    ∀ bytes : Bytes, bytes.length = totalWidth Ts →
      encodeAll Ts (decodeAll Ts bytes) = .ok bytes := by
  induction Ts with
  | nil =>
    intro bytes hl
    rw [List.length_eq_zero_iff.mp hl]
    rfl
  | cons T Ts ihTs =>
    intro bytes hl
    obtain ⟨first, rest, rfl, hfirst, hrest⟩ := exists_append_of_length hl
    have hT := ih T List.mem_cons_self first hfirst
    have hTs := ihTs (fun U hU => ih U (List.mem_cons_of_mem _ hU)) rest hrest
    rw [decodeAll_append hfirst, encodeAll_cons_ok]
    exact ⟨first, rest, hT, hTs, rfl⟩

/-- **Every run of bytes is what it decodes to.** -/
theorem encode_decode (T : Layout) :
    ∀ bytes : Bytes, bytes.length = T.width → T.encode (T.decode bytes) = .ok bytes := by
  induction T using byMembers with
  | scalar s =>
    intro bytes hl
    have hw : bytes.length = s.primitive.width := hl
    have hb : Bytes.decode s.order bytes < 256 ^ s.primitive.width := hw ▸ Bytes.decode_lt _ _
    refine encode_scalar_ok.mpr ⟨_, rfl, Primitive.fault?_decode _ hb, ?_⟩
    rw [Scalar.bytesOf, Primitive.wordOf_decode _ hb, Scalar.width, ← hw, Bytes.encode_decode]
  | composite T h ih =>
    intro bytes hl
    rw [encode_composite_ok h]
    refine ⟨_, decode_composite h bytes, length_decodeAll _ _, ?_⟩
    exact encodeAll_decodeAll ih bytes (by rw [hl, width_composite h])

/-- **Packing undoes unpacking.**  Bytes are unpacked exactly if there are as many as the layout is
wide, and packing the value gives every bit of them back. -/
theorem pack_unpack (T : Layout) (data : Bytes) :
    ((∃ v, T.unpack data = .ok v) ↔ data.length = T.width) ∧
      (data.length ≠ T.width → T.unpack data = .error (.lengthMismatch T.width data.length)) ∧
      ∀ v, T.unpack data = .ok v → T.pack v = .ok data := by
  rw [unpack_eq]
  by_cases hl : data.length = T.width
  · rw [if_pos hl]
    refine ⟨⟨fun _ => hl, fun _ => ⟨_, rfl⟩⟩, fun hne => absurd hl hne, ?_⟩
    intro v hv
    rw [← Except.ok.inj hv, pack_eq_encode, encode_decode T data hl]
  · rw [if_neg hl]
    refine ⟨⟨?_, fun h => absurd h hl⟩, fun _ => rfl, fun v hv => nomatch hv⟩
    rintro ⟨v, hv⟩
    cases hv

/-- The second point here has a signalling NaN in single precision. -/
theorem pack_unpack_tagged :
    tagged.pack (taggedOf (.int 2) (.int 1) (.float (.ofNat 0xbff0000000000000)) (.int (-3))
        (.float (.ofNat 0x7ff0000020000000))) =
        .ok [2, 0, 1, 0, 0, 128, 191, 255, 253, 1, 0, 128, 127] ∧
      tagged.unpack [2, 0, 1] = .error (.lengthMismatch 13 3) := by
  have hv : tagged.unpack [2, 0, 1, 0, 0, 128, 191, 255, 253, 1, 0, 128, 127] =
      .ok (taggedOf (.int 2) (.int 1) (.float (.ofNat 0xbff0000000000000)) (.int (-3))
        (.float (.ofNat 0x7ff0000020000000))) := rfl
  refine ⟨?_, ?_⟩
  · exact (pack_unpack tagged _).2.2 _ hv
  · exact (pack_unpack tagged [2, 0, 1]).2.1 (by decide)

end ByteLayout.Layout
