import ByteLayout.Proofs.Layout.Decoding

/-!
# Packing and unpacking at depth

A composite is packed and unpacked by doing the same to its members, and to
theirs.  `Packs T v U w b` says that packing `v` as `T` comes to pack `w` as `U`
into the buffer `b`, at whatever depth; `Unpacks T b U c` says the like of
unpacking.  A member is come to only when those before it are done, and in the
buffer that they left.

Both times there is always room for the member: `Packs.inside` and
`Unpacks.inside`.  So no member is ever refused for its place, and what is asked
of the bytes is asked of the outermost layout alone.
-/

namespace ByteLayout.Layout

theorem totalWidth_take_add_drop (Ts : List Layout) (i : Nat) :
    totalWidth (Ts.take i) + totalWidth (Ts.drop i) = totalWidth Ts := by
  rw [← totalWidth_append, List.take_append_drop]

theorem width_le_totalWidth_drop {Ts : List Layout} {U : Layout} {i : Nat} (h : Ts[i]? = some U) :
    U.width ≤ totalWidth (Ts.drop i) := by
  rw [List.drop_eq_getElem?_toList_append, h, Option.toList_some, List.singleton_append, totalWidth]
  exact Nat.le_add_right _ _

/-! ### Packing -/

/-- **Packing `v` as `T` comes to pack `w` as `U` into `b`**: a member into the zeros of the
composite, the members before it being packed, or deeper in a member. -/
inductive Packs : Layout → Value → Layout → Value → Buffer → Prop
  | member {T U : Layout} {vs : List Value} {w : Value} {b : Buffer} {i : Nat} :
      vs.length = T.members.length → T.members[i]? = some U → vs[i]? = some w →
      packAll (T.members.take i) (vs.take i) ⟨List.replicate T.width 0, 0⟩ = .ok () b →
      Packs T (.list vs) U w b
  | deep {T U X : Layout} {v w x : Value} {b c : Buffer} :
      Packs T v U w b → Packs U w X x c → Packs T v X x c

/-- The members before a place fill the zeros up to the bytes of the others. -/
theorem packAll_take {T : Layout} (h : T.scalar? = none) {vs : List Value} {b : Buffer} (i : Nat)
    (hl : vs.length = T.members.length)
    (hp : packAll (T.members.take i) (vs.take i) ⟨List.replicate T.width 0, 0⟩ = .ok () b) :
    ∃ bytes, bytes.length = totalWidth (T.members.take i) ∧
      b = .between bytes (List.replicate (totalWidth (T.members.drop i)) 0) := by
  have hli : (vs.take i).length = (T.members.take i).length := by
    rw [List.length_take, List.length_take, hl]
  have ha := packAll_apply (fun U _ => packInto_eq U) (totalWidth (T.members.drop i)) (vs.take i) []
    hli
  rw [totalWidth_take_add_drop, ← width_composite h, Buffer.between, List.nil_append,
    List.length_nil, hp] at ha
  cases he : encodeAll (T.members.take i) (vs.take i) with
  | ok bytes =>
    simp only [he] at ha
    exact ⟨bytes, encodeAll_length (fun U _ => encode_length U) _ _ hli he,
      (EStateM.Result.ok.inj ha).2⟩
  | error e =>
    simp only [he] at ha
    obtain ⟨c, hc⟩ := ha
    cases hc

theorem scalar?_of_members {T U : Layout} {i : Nat} (h : T.members[i]? = some U) :
    T.scalar? = none := by
  cases T with
  | scalar s => cases h
  | array element count => rfl
  | struct fields => rfl

/-- **A member is packed where its bytes have room**, in a buffer no longer than the layout. -/
theorem Packs.inside {T U : Layout} {v w : Value} {b : Buffer} (h : Packs T v U w b) :
    b.offset + U.width ≤ b.data.length ∧ b.data.length ≤ T.width := by
  induction h with
  | @member T U vs w b i hl hU _ hp =>
    have hT := scalar?_of_members hU
    obtain ⟨bytes, hb, rfl⟩ := packAll_take hT i hl hp
    have hw := width_le_totalWidth_drop hU
    have ht := totalWidth_take_add_drop T.members i
    rw [width_composite hT]
    show bytes.length + U.width ≤ (bytes ++ _).length ∧ (bytes ++ _).length ≤ _
    rw [List.length_append, List.length_replicate]
    omega
  | deep _ _ ih ih' => omega

/-! ### Unpacking -/

/-- **Unpacking `T` from `b` comes to unpack `U` from `c`**: a member, the bytes of the composite
being there and the members before it being unpacked, or deeper in a member. -/
inductive Unpacks : Layout → Buffer → Layout → Buffer → Prop
  | member {T U : Layout} {b c : Buffer} {vs : List Value} {i : Nat} :
      ¬b.remaining < T.width → T.members[i]? = some U →
      unpackAll (T.members.take i) b = .ok vs c → Unpacks T b U c
  | deep {T U X : Layout} {b c d : Buffer} :
      Unpacks T b U c → Unpacks U c X d → Unpacks T b X d

/-- **A member is unpacked where its bytes are all there**, from the bytes of the layout, and its
end is no further than the end of these, or than where the layout began. -/
theorem Unpacks.inside {T U : Layout} {b c : Buffer} (h : Unpacks T b U c) :
    ¬c.remaining < U.width ∧ c.data = b.data ∧ c.offset + U.width ≤ max b.offset b.data.length := by
  induction h with
  | @member T U b c vs i hb hU hc =>
    have hw := width_le_totalWidth_drop hU
    have ht := totalWidth_take_add_drop T.members i
    rw [width_composite (scalar?_of_members hU)] at hb
    rw [unpackAll_apply (fun _ _ _ h => unpackAt_ok h) b (by omega)] at hc
    obtain rfl := (EStateM.Result.ok.inj hc).2
    rw [Buffer.remaining] at hb ⊢
    refine ⟨?_, rfl, ?_⟩
    · show ¬b.data.length - (b.offset + totalWidth (T.members.take i)) < U.width
      omega
    · show b.offset + totalWidth (T.members.take i) + U.width ≤ _
      omega
  | deep _ _ ih ih' =>
    obtain ⟨-, hdata, hend⟩ := ih
    obtain ⟨hroom, hdata', hend'⟩ := ih'
    refine ⟨hroom, hdata'.trans hdata, ?_⟩
    rw [hdata] at hend'
    omega

end ByteLayout.Layout
