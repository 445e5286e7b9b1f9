import ByteLayout.Proofs.Layout.Parts

/-!
# Packing over a part

Packing a value over a part of a layout, in the middle of a buffer that holds
the bytes of the whole, changes the value at that part and nothing else.  The
offset of the part comes from the fields, the value from decoding one member
after the other; that they agree at any depth is `HasPart.decode_splice`, an
induction along the path in which each composite is written over in one member
(`decodeAll_splice`).
-/

namespace ByteLayout.Layout

/-- **One member is written over**, and the others are decoded as before. -/
theorem decodeAll_splice {U : Layout} {bytes : Bytes} (hb : bytes.length = U.width)
    (f : Value → Value) : ∀ (Ts : List Layout) (data : Bytes) (i : Nat),
      data.length = totalWidth Ts → Ts[i]? = some U →
      f (U.decode (Buffer.next ⟨data, totalWidth (Ts.take i)⟩ U.width)) = U.decode bytes →
        decodeAll Ts (Buffer.splice ⟨data, totalWidth (Ts.take i)⟩ bytes) =
          (decodeAll Ts data).modify i f := by
  intro Ts
  induction Ts with
  | nil => intro data i _ hU; cases hU
  | cons T Ts ih =>
    intro data i hl hU hf
    obtain ⟨first, rest, rfl, hfirst, hrest⟩ := exists_append_of_length hl
    cases i with
    | zero =>
      obtain rfl : T = U := Option.some.inj hU
      have hold : Buffer.next ⟨first ++ rest, 0⟩ T.width = first := List.take_left' hfirst
      rw [List.take_zero, totalWidth] at hf ⊢
      rw [hold] at hf
      rw [Buffer.splice_start (hfirst.trans hb.symm), decodeAll_append hb,
        decodeAll_append hfirst, List.modify_zero_cons, hf]
    | succ i =>
      rw [List.take_succ_cons, totalWidth, ← hfirst] at hf ⊢
      rw [Buffer.next_prefix] at hf
      rw [Buffer.splice_prefix, decodeAll_append hfirst, decodeAll_append hfirst,
        ih rest i hrest hU hf, List.modify_succ_cons]

/-- **Bytes written over a part** change the value at its places, and no other. -/
theorem HasPart.decode_splice {T : Layout} {p : Part} (h : T.HasPart p) :
    ∀ data bytes : Bytes, data.length = T.width → bytes.length = p.type.width →
      T.decode (Buffer.splice ⟨data, p.offset⟩ bytes) =
        (T.decode data).replace p.places (p.type.decode bytes) := by
  induction h with
  | self T =>
    intro data bytes hl hb
    have hs := Buffer.splice_start (hl.trans hb.symm) []
    rw [List.append_nil, List.append_nil] at hs
    rw [hs, Value.replace]
  | @member T U p i hU hp ih =>
    intro data bytes hl hb
    have hT := scalar?_of_members hU
    have hm := member_inside hU
    have hin : p.offset + bytes.length ≤ U.width := hb ▸ hp.inside
    have hn := Buffer.length_next (hl ▸ hm)
    -- The member is written over in whole, with bytes that differ only in the part.
    rw [← Buffer.splice_window hin (hl ▸ hm), decode_composite hT, decode_composite hT,
      Value.replace]
    congr 1
    apply decodeAll_splice
    · exact (Buffer.length_splice (hn.symm ▸ hin)).trans hn
    · rw [hl, width_composite hT]
    · exact hU
    · exact (ih _ bytes hn hb).symm

/-- **Packing over a part changes this part only.**  A value that is packed is what the whole then
has at the part, as it reads back; the other bytes stay, and so do the other values.  A value that
is refused leaves everything as it was. -/
theorem packInto_part {T : Layout} {path : List Selector} {p : Part} (hp : T.at? path = some p)
    {data : Bytes} {base : Nat} (hb : base + T.width ≤ data.length) (w : Value) :
    (∀ bytes, p.type.pack w = .ok bytes → ∃ data' v u,
      p.type.packInto w ⟨data, base + p.offset⟩ =
        .ok () ⟨data', base + p.offset + p.type.width⟩ ∧
      T.unpackAt ⟨data, base⟩ = .ok v ⟨data, base + T.width⟩ ∧
      p.type.unpack bytes = .ok u ∧ (∃ old, v.at? p.places = some old) ∧
      T.unpackAt ⟨data', base⟩ = .ok (v.replace p.places u) ⟨data', base + T.width⟩ ∧
      data'.length = data.length ∧
      ∀ i, i < base + p.offset ∨ base + p.offset + p.type.width ≤ i → data'[i]? = data[i]?) ∧
    ∀ e, p.type.pack w = .error e →
      p.type.packInto w ⟨data, base + p.offset⟩ = .error e ⟨data, base + p.offset⟩ := by
  have hpart := hasPart_of_at? hp
  have hin := hpart.inside
  rw [pack_eq_encode]
  constructor
  · intro bytes he
    have hw := encode_length _ _ _ he
    have hfit : base + p.offset + bytes.length ≤ data.length := by omega
    have hlen := Buffer.length_splice (b := ⟨data, base + p.offset⟩) hfit
    have hn := Buffer.length_next hb
    refine ⟨Buffer.splice ⟨data, base + p.offset⟩ bytes, _, p.type.decode bytes,
      packInto_inside he (by omega), unpackAt_inside hb, ?_, ⟨_, hpart.at?_decode _ hn⟩, ?_, hlen,
      ?_⟩
    · rw [unpack_eq, if_pos hw]
    · rw [unpackAt_inside (hlen.symm ▸ hb), Buffer.next_splice_window (hw.symm ▸ hin) hb,
        hpart.decode_splice _ _ hn hw]
    · intro i hi
      exact Buffer.getElem?_splice hfit (hw ▸ hi)
  · intro e he
    rw [packInto_eq, he, Buffer.putResult_error]

/-- The second coordinate of the second point, between a byte before the whole and a byte after it:
an integer that is read back as a float, and a list. -/
theorem packInto_part_tagged :
    tagged.at? [.field "points", .element 1, .field "y"] =
        some ⟨.scalar ⟨.float32, .littleEndian⟩, 9, [1, 1, 1]⟩ ∧
      1 + tagged.width ≤ 15 ∧
      (∃ data v,
        packInto (.scalar ⟨.float32, .littleEndian⟩) (.number (.int 4)) ⟨List.replicate 15 0, 10⟩ =
          .ok () ⟨data, 14⟩ ∧
        tagged.unpackAt ⟨List.replicate 15 0, 1⟩ = .ok v ⟨List.replicate 15 0, 14⟩ ∧
        tagged.unpackAt ⟨data, 1⟩ =
          .ok (v.replace [1, 1, 1] (.number (.float (.ofNat 0x4010000000000000)))) ⟨data, 14⟩) ∧
      packInto (.scalar ⟨.float32, .littleEndian⟩) (.list []) ⟨List.replicate 15 0, 10⟩ =
        .error (.typeMismatch .scalar) ⟨List.replicate 15 0, 10⟩ := by
  have hp : tagged.at? [.field "points", .element 1, .field "y"] =
      some ⟨.scalar ⟨.float32, .littleEndian⟩, 9, [1, 1, 1]⟩ := rfl
  have hb : 1 + tagged.width ≤ (List.replicate 15 (0 : UInt8)).length := by decide
  have hw : (scalar ⟨.float32, .littleEndian⟩).pack (.number (.int 4)) = .ok [0, 0, 128, 64] := rfl
  obtain ⟨data, v, u, hput, hv, hu, -, hv', -⟩ := (packInto_part hp hb _).1 _ hw
  obtain rfl : .number (.float (.ofNat 0x4010000000000000)) = u := Except.ok.inj hu
  exact ⟨hp, hb, ⟨data, v, hput, hv, hv'⟩, (packInto_part hp hb (.list [])).2 _ rfl⟩

end ByteLayout.Layout
