import ByteLayout.Proofs.Layout.Members
import ByteLayout.Proofs.Primitive.Word

/-!
# The plain meaning of packing

`Layout.encode` says what the bytes of a value are without a buffer.  A walk of
the layout, depth first and each node before its members, meets `faults`, and
`leaves` are the scalars it ends at with the numbers given to them.  If there is
a fault, the first one is the error; if there is none, the bytes are those of
the leaves, one after the other.

`encodeAll` is the same for a list of members, and `encode_list` takes one
level of the walk: so a proof about packed bytes goes by the members of the
layout and, within them, along the list.

Packing fills a buffer of zeros that is made beforehand, and gives each member
the next bytes of it.  `packAll_apply` says what has been written when some
members are done, and from it `packInto_eq`: packing is `encode`, and then one
`Buffer.put`.
-/

namespace ByteLayout

/-- Nothing, if there are faults but the first of them. -/
def unlessFault (faults : List Error) (a : α) : Except Error α :=
  match faults with
  | [] => .ok a
  | e :: _ => .error e

namespace Scalar

/-- **The reason why a value is not packed as a scalar**: its shape, or the number in it. -/
def fault? (s : Scalar) : Value → Option Error
  | .number x => s.primitive.fault? x
  | .list _ => some (.typeMismatch .scalar)

/-- The bytes of a number, which are meant only where there is no fault. -/
def bytesOf (s : Scalar) (x : Number) : Bytes :=
  Bytes.encode s.order s.width (s.primitive.wordOf x)

end Scalar

namespace Layout

/-- **What is wrong with a value**, as a walk of the layout meets it: at a scalar the shape and then
the number, at a composite the shape, then the count, then the members from left to right. -/
def faults : Layout → Value → List Error :=
  fold (fun s v => (s.fault? v).toList) fun _ members v =>
    match v with
    | .number _ => [.typeMismatch .list]
    | .list vs =>
      if vs.length = members.length then (List.zipWith (fun f v => f v) members vs).flatten
      else [.arityMismatch members.length vs.length]

/-- **The scalars at the leaves with the numbers given to them**, depth first. -/
def leaves : Layout → Value → List (Scalar × Number) :=
  fold (fun s v => (v.number?.map fun x => (s, x)).toList) fun _ members v =>
    (List.zipWith (fun f v => f v) members (v.list?.getD [])).flatten

/-- The bytes of the leaves, without a byte between them. -/
def payload (T : Layout) (v : Value) : Bytes := (T.leaves v).flatMap fun l => l.1.bytesOf l.2

/-- **The plain meaning of packing**: the first fault, or else the bytes of the leaves. -/
def encode (T : Layout) (v : Value) : Except Error Bytes := unlessFault (T.faults v) (T.payload v)

/-- One value for each layout, one after the other. -/
def encodeAll : List Layout → List Value → Except Error Bytes
  | T :: Ts, v :: vs => do
    let bytes ← T.encode v
    let rest ← encodeAll Ts vs
    return bytes ++ rest
  | _, _ => .ok []

/-! ### One level of the walk -/

theorem faults_number {T : Layout} (h : T.scalar? = none) (x : Number) :
    T.faults (.number x) = [.typeMismatch .list] := by
  rw [faults, fold_composite _ _ h]

theorem faults_list {T : Layout} (h : T.scalar? = none) (vs : List Value) :
    T.faults (.list vs) =
      if vs.length = T.members.length then (List.zipWith faults T.members vs).flatten
      else [.arityMismatch T.members.length vs.length] := by
  rw [faults, fold_composite _ _ h]
  simp only [List.length_map, List.zipWith_map_left]

theorem leaves_list {T : Layout} (h : T.scalar? = none) (vs : List Value) :
    T.leaves (.list vs) = (List.zipWith leaves T.members vs).flatten := by
  rw [leaves, fold_composite _ _ h]
  simp only [List.zipWith_map_left, Value.list?, Option.getD_some]

theorem flatMap_leaves (Ts : List Layout) (vs : List Value) :
    (List.zipWith leaves Ts vs).flatten.flatMap (fun l => l.1.bytesOf l.2) =
      (List.zipWith payload Ts vs).flatten := by
  induction Ts generalizing vs with
  | nil => rfl
  | cons T Ts ih =>
    cases vs with
    | nil => rfl
    | cons v vs =>
      rw [List.zipWith_cons_cons, List.flatten_cons, List.flatMap_append, ih vs,
        List.zipWith_cons_cons, List.flatten_cons, payload]

theorem payload_list {T : Layout} (h : T.scalar? = none) (vs : List Value) :
    T.payload (.list vs) = (List.zipWith payload T.members vs).flatten := by
  rw [payload, leaves_list h, flatMap_leaves]

theorem unlessFault_append (es es' : List Error) (bytes rest : Bytes) :
    unlessFault (es ++ es') (bytes ++ rest) = (do
      let bytes ← unlessFault es bytes
      let rest ← unlessFault es' rest
      return bytes ++ rest) := by
  cases es with
  | nil => cases es' <;> rfl
  | cons e es => rfl

theorem unlessFault_zipWith (Ts : List Layout) (vs : List Value) :
    unlessFault (List.zipWith faults Ts vs).flatten (List.zipWith payload Ts vs).flatten =
      encodeAll Ts vs := by
  induction Ts generalizing vs with
  | nil => rfl
  | cons T Ts ih =>
    cases vs with
    | nil => rfl
    | cons v vs =>
      simp only [List.zipWith_cons_cons, List.flatten_cons, unlessFault_append, ih, encodeAll,
        encode]

theorem encode_number {T : Layout} (h : T.scalar? = none) (x : Number) :
    T.encode (.number x) = .error (.typeMismatch .list) := by
  rw [encode, faults_number h]
  rfl

/-- **A list given to a composite**: first the count, then the members. -/
theorem encode_list {T : Layout} (h : T.scalar? = none) (vs : List Value) :
    T.encode (.list vs) =
      if vs.length = T.members.length then encodeAll T.members vs
      else .error (.arityMismatch T.members.length vs.length) := by
  rw [encode, faults_list h, payload_list h]
  split
  · exact unlessFault_zipWith _ _
  · rfl

theorem encode_scalar (s : Scalar) (v : Value) : (scalar s).encode v = s.encode v := by
  cases v with
  | list vs => rfl
  | number x =>
    rw [Scalar.encode, Value.expectNumber]
    show _ = (do let n ← s.primitive.encode x; return Bytes.encode s.order s.width n)
    rw [Primitive.encode_eq, encode, faults, fold_scalar, Scalar.fault?]
    cases s.primitive.fault? x with
    | some e => rfl
    | none => exact congrArg Except.ok (List.append_nil _)

/-! ### Success and failure -/

theorem encodeAll_cons (T : Layout) (Ts : List Layout) (v : Value) (vs : List Value) :
    encodeAll (T :: Ts) (v :: vs) = match T.encode v with
      | .error e => .error e
      | .ok bytes => match encodeAll Ts vs with
        | .error e => .error e
        | .ok rest => .ok (bytes ++ rest) := by
  rw [encodeAll]
  cases T.encode v with
  | error e => rfl
  | ok bytes => cases encodeAll Ts vs <;> rfl

theorem encodeAll_cons_ok {T : Layout} {Ts : List Layout} {v : Value} {vs : List Value}
    {bytes : Bytes} : encodeAll (T :: Ts) (v :: vs) = .ok bytes ↔
      ∃ first rest,
        T.encode v = .ok first ∧ encodeAll Ts vs = .ok rest ∧ bytes = first ++ rest := by
  rw [encodeAll_cons]
  constructor
  · intro h
    cases hv : T.encode v with
    | error e => rw [hv] at h; cases h
    | ok first =>
      cases hvs : encodeAll Ts vs with
      | error e => rw [hv, hvs] at h; cases h
      | ok rest => rw [hv, hvs] at h; exact ⟨first, rest, rfl, rfl, (Except.ok.inj h).symm⟩
  · rintro ⟨first, rest, hv, hvs, rfl⟩
    rw [hv, hvs]

/-- Where members are packed, each of them is. -/
theorem encode_of_mem_zip {Ts : List Layout} : ∀ {vs : List Value} {bytes : Bytes},
    encodeAll Ts vs = .ok bytes → ∀ {p : Layout × Value}, p ∈ Ts.zip vs →
      ∃ bytes, p.1.encode p.2 = .ok bytes := by
  induction Ts with
  | nil => intro vs bytes _ p hp; cases hp
  | cons T Ts ih =>
    intro vs bytes he p hp
    cases vs with
    | nil => cases hp
    | cons v vs =>
      obtain ⟨first, rest, hv, hvs, -⟩ := encodeAll_cons_ok.mp he
      rcases List.mem_cons.mp hp with rfl | hp
      · exact ⟨first, hv⟩
      · exact ih hvs hp

/-- **What a composite accepts**: a list of the right length with members that are accepted. -/
theorem encode_composite_ok {T : Layout} (h : T.scalar? = none) {v : Value} {bytes : Bytes} :
    T.encode v = .ok bytes ↔
      ∃ vs, v = .list vs ∧ vs.length = T.members.length ∧ encodeAll T.members vs = .ok bytes := by
  cases v with
  | number x => simp [encode_number h]
  | list vs =>
    rw [encode_list h]
    constructor
    · intro he
      split at he
      · exact ⟨vs, rfl, ‹_›, he⟩
      · cases he
    · rintro ⟨ws, hv, hl, he⟩
      rw [Value.list.inj hv, if_pos hl, he]

theorem encode_scalar_ok {s : Scalar} {v : Value} {bytes : Bytes} :
    (scalar s).encode v = .ok bytes ↔
      ∃ x, v = .number x ∧ s.primitive.fault? x = none ∧ bytes = s.bytesOf x := by
  cases v with
  | list vs =>
    constructor
    · intro he
      cases he
    · rintro ⟨x, hv, -⟩
      cases hv
  | number x =>
    have hp : (scalar s).payload (.number x) = s.bytesOf x := List.append_nil _
    rw [encode, hp, faults, fold_scalar, Scalar.fault?]
    constructor
    · intro he
      cases hf : s.primitive.fault? x with
      | some e => rw [hf] at he; cases he
      | none => rw [hf] at he; exact ⟨x, rfl, hf, (Except.ok.inj he).symm⟩
    · rintro ⟨y, hv, hf, rfl⟩
      rw [Value.number.inj hv, hf]
      rfl

theorem encodeAll_length {Ts : List Layout}
    (ih : ∀ T ∈ Ts, ∀ v bytes, T.encode v = .ok bytes → bytes.length = T.width) :
    ∀ (vs : List Value) (bytes : Bytes), vs.length = Ts.length → encodeAll Ts vs = .ok bytes →
      bytes.length = totalWidth Ts := by
  induction Ts with
  | nil =>
    intro vs bytes _ he
    rw [encodeAll] at he
    · rw [← Except.ok.inj he]
      rfl
    · exact fun _ _ _ _ h => nomatch h
  | cons T Ts ihTs =>
    intro vs bytes hl he
    cases vs with
    | nil => cases hl
    | cons v vs =>
      obtain ⟨first, rest, hv, hvs, rfl⟩ := encodeAll_cons_ok.mp he
      have h1 := ih T List.mem_cons_self v first hv
      have h2 := ihTs (fun U hU => ih U (List.mem_cons_of_mem _ hU)) vs rest (Nat.succ.inj hl) hvs
      rw [List.length_append, h1, h2, totalWidth]

/-- **A value takes as many bytes as its layout is wide.** -/
theorem encode_length (T : Layout) :
    ∀ (v : Value) (bytes : Bytes), T.encode v = .ok bytes → bytes.length = T.width := by
  induction T using byMembers with
  | scalar s =>
    intro v bytes he
    obtain ⟨x, -, -, rfl⟩ := encode_scalar_ok.mp he
    exact Bytes.length_encode _ _ _
  | composite T h ih =>
    intro v bytes he
    obtain ⟨vs, -, hl, he⟩ := (encode_composite_ok h).mp he
    rw [width_composite h]
    exact encodeAll_length ih vs bytes hl he

/-! ### Filling a buffer -/

/-- **Members fill the zeros from the left**, and stop at the first that is refused; zeros that are
left over stay. -/
theorem packAll_apply {Ts : List Layout}
    (ih : ∀ T ∈ Ts, ∀ v, T.packInto v = Buffer.putResult (T.encode v)) (n : Nat) :
    ∀ (vs : List Value) (done : Bytes), vs.length = Ts.length →
      match encodeAll Ts vs with
      | .ok bytes => packAll Ts vs (.between done (List.replicate (totalWidth Ts + n) 0)) =
          .ok () (.between (done ++ bytes) (List.replicate n 0))
      | .error e => ∃ b,
          packAll Ts vs (.between done (List.replicate (totalWidth Ts + n) 0)) = .error e b := by
  induction Ts with
  | nil =>
    intro vs done _
    cases vs <;> simp [encodeAll, packAll, totalWidth, Steps.pure_apply]
  | cons T Ts ihTs =>
    intro vs done hl
    cases vs with
    | nil => cases hl
    | cons v vs =>
      have hT := ih T List.mem_cons_self v
      rw [encodeAll_cons, packAll, Steps.bind_apply, hT]
      cases hv : T.encode v with
      | error e => exact ⟨_, rfl⟩
      | ok first =>
        have hw := encode_length T v first hv
        have ht := ihTs (fun U hU => ih U (List.mem_cons_of_mem _ hU)) vs (done ++ first)
          (Nat.succ.inj hl)
        rw [totalWidth, ← hw, Nat.add_assoc]
        simp only [Buffer.putResult_ok, Buffer.put_zeros]
        cases hvs : encodeAll Ts vs with
        | error e =>
          simp only [hvs] at ht
          exact ht
        | ok rest =>
          simp only [hvs, List.append_assoc done first rest] at ht
          exact ht

theorem filled_packAll {Ts : List Layout}
    (ih : ∀ T ∈ Ts, ∀ v, T.packInto v = Buffer.putResult (T.encode v)) {vs : List Value}
    (hl : vs.length = Ts.length) :
    Buffer.filled (totalWidth Ts) (packAll Ts vs) = encodeAll Ts vs := by
  have h := packAll_apply ih 0 vs [] hl
  cases he : encodeAll Ts vs with
  | ok bytes =>
    simp only [he] at h
    exact Buffer.filled_of_ok h
  | error e =>
    simp only [he] at h
    obtain ⟨b, h⟩ := h
    exact Buffer.filled_of_error h

theorem pack_eq_of_members {T : Layout} (h : T.scalar? = none)
    (ih : ∀ U ∈ T.members, ∀ v, U.packInto v = Buffer.putResult (U.encode v)) (v : Value) :
    T.pack v = T.encode v := by
  rw [pack_composite h]
  cases v with
  | number x =>
    rw [encode_number h]
    rfl
  | list vs =>
    rw [encode_list h]
    show Buffer.packMembers _ _ _ vs = _
    rw [Buffer.packMembers, expectCount]
    split
    · rename_i hl
      show Buffer.filled _ _ = _
      rw [width_composite h, filled_packAll ih hl]
    · rfl

/-- **Packing is `encode`, and then one `put`**, so the buffers within are never seen. -/
theorem packInto_eq (T : Layout) : ∀ v : Value, T.packInto v = Buffer.putResult (T.encode v) := by
  induction T using byMembers with
  | scalar s =>
    intro v
    rw [encode_scalar]
    rfl
  | composite T h ih =>
    intro v
    rw [packInto_composite h, pack_eq_of_members h ih]

theorem packInto_inside {T : Layout} {data bytes : Bytes} {base : Nat} {w : Value}
    (hw : T.encode w = .ok bytes) (h : base + T.width ≤ data.length) :
    T.packInto w ⟨data, base⟩ =
      .ok () ⟨Buffer.splice ⟨data, base⟩ bytes, base + T.width⟩ := by
  rw [packInto_eq, hw, Buffer.putResult_ok, Buffer.put_apply, encode_length T w bytes hw, if_neg,
    if_neg (Nat.not_lt.mpr h)]
  show ¬data.length - base < T.width
  omega

theorem pack_eq_encode (T : Layout) (v : Value) : T.pack v = T.encode v := by
  cases hs : T.scalar? with
  | none => exact pack_eq_of_members hs (fun U _ => packInto_eq U) v
  | some s =>
    obtain rfl : T = scalar s := by
      cases T with
      | scalar t => rw [Option.some.inj hs]
      | array element count => cases hs
      | struct fields => cases hs
    have hp := packInto_eq (scalar s) v
    show Buffer.filled s.width ((scalar s).packInto v) = _
    cases he : (scalar s).encode v with
    | error e =>
      apply Buffer.filled_of_error
      rw [hp, he, Buffer.putResult_error]
    | ok bytes =>
      apply Buffer.filled_of_ok
      have hw : bytes.length = s.width := encode_length _ _ _ he
      rw [hp, he, ← hw]
      exact Buffer.put_zeros bytes [] 0

/-- The fields of a struct are packed as its members. -/
theorem fields_pack_eq (fs : Fields) (vs : List Value) :
    fs.pack vs = if vs.length = fs.types.length then encodeAll fs.types vs
      else .error (.arityMismatch fs.types.length vs.length) :=
  (pack_eq_encode (.struct fs) (.list vs)).trans (encode_list rfl vs)

theorem fields_pack_ok {fs : Fields} {vs : List Value} {bytes : Bytes} :
    fs.pack vs = .ok bytes ↔
      vs.length = fs.types.length ∧ encodeAll fs.types vs = .ok bytes := by
  rw [fields_pack_eq]
  split <;> simp_all

/-- A scalar by itself is packed as a layout with one leaf. -/
theorem scalar_pack_ok {s : Scalar} {x : Number} {bytes : Bytes} :
    s.pack (.number x) = .ok bytes ↔ s.primitive.fault? x = none ∧ bytes = s.bytesOf x := by
  show (scalar s).pack (.number x) = .ok bytes ↔ _
  rw [pack_eq_encode, encode_scalar_ok]
  constructor
  · rintro ⟨y, hy, h⟩
    rwa [Value.number.inj hy]
  · intro h
    exact ⟨x, rfl, h⟩

theorem scalar_pack_error {s : Scalar} {x : Number} {e : Error}
    (h : s.primitive.fault? x = some e) : s.pack (.number x) = .error e := by
  show (scalar s).pack (.number x) = .error e
  rw [pack_eq_encode, encode, faults, fold_scalar, Scalar.fault?, h]
  rfl

/-! ### What can be wrong -/

end Layout

/-- The causes that lie in the value, and not in bytes, names or layouts. -/
def Error.isOfValue : Error → Bool
  | .valueOutOfRange .. => true
  | .notIntegral _ => true
  | .typeMismatch _ => true
  | .arityMismatch .. => true
  | _ => false

theorem Primitive.isOfValue_fault? {p : Primitive} {x : Number} {e : Error}
    (h : p.fault? x = some e) : e.isOfValue := by
  cases x with
  | int n =>
    rw [fault?] at h
    split at h
    · rw [← Option.some.inj h]
      rfl
    · cases h
  | float x =>
    rw [fault?] at h
    split at h
    · rw [← Option.some.inj h]
      rfl
    · split at h
      · rw [← Option.some.inj h]
        rfl
      · cases h

theorem Scalar.isOfValue_fault? {s : Scalar} {v : Value} {e : Error}
    (h : s.fault? v = some e) : e.isOfValue := by
  cases v with
  | number x => exact Primitive.isOfValue_fault? h
  | list vs =>
    rw [← Option.some.inj h]
    rfl

namespace Layout

/-- **Only the value is ever at fault.** -/
theorem isOfValue_faults (T : Layout) : ∀ (v : Value), ∀ e ∈ T.faults v, e.isOfValue := by
  induction T using byMembers with
  | scalar s =>
    intro v e he
    exact Scalar.isOfValue_fault? (Option.mem_toList.mp he)
  | composite T h ih =>
    intro v e he
    cases v with
    | number x =>
      rw [faults_number h] at he
      rw [List.mem_singleton.mp he]
      rfl
    | list vs =>
      rw [faults_list h] at he
      split at he
      · obtain ⟨es, hes, he⟩ := List.mem_flatten.mp he
        rw [← List.map_uncurry_zip_eq_zipWith] at hes
        obtain ⟨⟨U, w⟩, hp, rfl⟩ := List.mem_map.mp hes
        exact ih U (List.of_mem_zip hp).1 w e he
      · rw [List.mem_singleton.mp he]
        rfl

theorem isOfValue_of_encode {T : Layout} {v : Value} {e : Error} (h : T.encode v = .error e) :
    e.isOfValue := by
  rw [encode] at h
  apply isOfValue_faults T v
  cases hf : T.faults v with
  | nil => rw [hf] at h; cases h
  | cons f fs => rw [hf] at h; exact Except.error.inj h ▸ List.mem_cons_self

/-- **Packing with a buffer is packing without one.** -/
theorem pack_refines_encode (T : Layout) (v : Value) :
    T.pack v = T.encode v ∧ (∀ bytes, T.pack v = .ok bytes → bytes.length = T.width) ∧
      ∀ e, T.pack v = .error e → e.isOfValue := by
  refine ⟨pack_eq_encode T v, ?_, ?_⟩
  · intro bytes h
    rw [pack_eq_encode] at h
    exact encode_length T v bytes h
  · intro e h
    rw [pack_eq_encode] at h
    exact isOfValue_of_encode h

/-- A tag and two points, to try things on. -/
def tagged : Layout :=
  let point : Fields := .cons "x" (.scalar ⟨.int16, .bigEndian⟩)
    (.cons "y" (.scalar ⟨.float32, .littleEndian⟩) .nil)
  .struct (.cons "tag" (.scalar ⟨.uint8, .bigEndian⟩)
    (.cons "points" (.array (.struct point) 2) .nil))

/-- The value of `tagged` with these numbers at the leaves. -/
def taggedOf (tag x y x' y' : Number) : Value :=
  .list [.number tag, .list [.list [.number x, .number y], .list [.number x', .number y']]]

/-- A value of the right shape, and one that is refused for its first number and not for the shape
of what follows. -/
theorem pack_refines_encode_tagged :
    tagged.encode (taggedOf (.int 2) (.int 1) (.int (-1)) (.int (-3)) (.int 4)) =
        .ok [2, 0, 1, 0, 0, 128, 191, 255, 253, 0, 0, 128, 64] ∧
      [2, 0, 1, 0, 0, 128, 191, 255, 253, 0, 0, 128, 64].length = tagged.width ∧
      tagged.encode (.list [.number (.int 256), .number (.int 0)]) =
        .error (.valueOutOfRange (.int 256) .uint8) ∧
      (Error.valueOutOfRange (.int 256) .uint8).isOfValue := by
  have hv : tagged.pack (taggedOf (.int 2) (.int 1) (.int (-1)) (.int (-3)) (.int 4)) =
      .ok [2, 0, 1, 0, 0, 128, 191, 255, 253, 0, 0, 128, 64] := rfl
  have hw : tagged.pack (.list [.number (.int 256), .number (.int 0)]) =
      .error (.valueOutOfRange (.int 256) .uint8) := rfl
  obtain ⟨hve, hl, -⟩ :=
    pack_refines_encode tagged (taggedOf (.int 2) (.int 1) (.int (-1)) (.int (-3)) (.int 4))
  obtain ⟨hwe, -, he⟩ := pack_refines_encode tagged (.list [.number (.int 256), .number (.int 0)])
  exact ⟨hve ▸ hv, hl _ hv, hwe ▸ hw, he _ hw⟩

end Layout

end ByteLayout
