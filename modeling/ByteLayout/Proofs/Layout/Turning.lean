import ByteLayout.Proofs.Layout.Orders

/-!
# The bytes of reordered layouts

Reordered layouts have their leaves at the same bytes, and at each leaf the same
number is written, in one direction or the other.  So the bytes of the one come
from those of the other by reversing the ranges of the leaves that were turned
round: this is `turn`, one range after the other.

A leaf is turned on its own, but values are packed member by member, so between
the two stands `Turns`: leaf by leaf from the first to the last, which goes
along with lists of members (`Turns.append`) and, as leaves lie end to end,
comes to the same as `turn` (`Turns.turn_eq`).
-/

namespace ByteLayout

namespace Bytes

/-- The bytes with those of a range in reverse. -/
def reverseRange (start width : Nat) (bytes : Bytes) : Bytes :=
  Buffer.splice ⟨bytes, start⟩ (Buffer.next ⟨bytes, start⟩ width).reverse

theorem reverseRange_between (done bytes rest : Bytes) :
    reverseRange done.length bytes.length (done ++ (bytes ++ rest)) =
      done ++ (bytes.reverse ++ rest) := by
  have hn := Buffer.next_between done bytes rest
  have hs := Buffer.splice_between (List.length_reverse.symm : bytes.length = bytes.reverse.length)
    done rest
  rw [Buffer.between] at hn hs
  rw [reverseRange, hn, hs]

end Bytes

namespace Scalar

/-- The bytes of a scalar as they are in the order of another one. -/
def turn (s s' : Scalar) (bytes : Bytes) : Bytes :=
  if s.order = s'.order then bytes else bytes.reverse

theorem length_turn (s s' : Scalar) (bytes : Bytes) : (s.turn s' bytes).length = bytes.length := by
  rw [turn]
  split
  · rfl
  · exact List.length_reverse

theorem turn_bytesOf (p : Primitive) (o o' : ByteOrder) (x : Number) :
    turn ⟨p, o⟩ ⟨p, o'⟩ (bytesOf ⟨p, o⟩ x) = bytesOf ⟨p, o'⟩ x := by
  cases o <;> cases o' <;> simp [turn, bytesOf, width, Bytes.encode]

theorem decode_turn (p : Primitive) (o o' : ByteOrder) (bytes : Bytes) :
    decode ⟨p, o⟩ (turn ⟨p, o⟩ ⟨p, o'⟩ bytes) = decode ⟨p, o'⟩ bytes := by
  cases o <;> cases o' <;> simp [turn, decode, Bytes.decode]

end Scalar

namespace Layout

/-! ### Turning -/

/-- The bytes with the ranges of leaves in reverse, where the leaf has another order than the one
that it is paired with. -/
def turnLeaves : List (Span × Span) → Bytes → Bytes
  | [], bytes => bytes
  | (s, s') :: leaves, bytes =>
    turnLeaves leaves (if s.scalar.order = s'.scalar.order then bytes
      else Bytes.reverseRange s.start s.scalar.width bytes)

/-- **The bytes with the range of each leaf in reverse** that has another order in `T'`. -/
def turn (T T' : Layout) (bytes : Bytes) : Bytes := turnLeaves (T.spans.zip T'.spans) bytes

/-- The scalars at the leaves. -/
def scalars : Layout → List Scalar := fold (fun s => [s]) fun _ members => members.flatten

theorem scalars_composite {T : Layout} (h : T.scalar? = none) :
    T.scalars = T.members.flatMap scalars := by
  rw [scalars, fold_composite _ _ h, List.flatMap_def]

end Layout

mutual

theorem Layout.map_scalar_spansFrom :
    ∀ (T : Layout) (start : Nat), (T.spansFrom start).map Span.scalar = T.scalars
  | .scalar _, _ => rfl
  | .array element count, start => by
    simp only [Layout.spansFrom, List.map_flatMap, Layout.map_scalar_spansFrom element]
    rw [List.flatMap_def, List.map_const', List.length_range]
    rfl
  | .struct fields, start => Fields.map_scalar_spansFrom fields start

theorem Fields.map_scalar_spansFrom :
    ∀ (fs : Fields) (start : Nat),
      (fs.spansFrom start).map Span.scalar = (Layout.struct fs).scalars
  | .nil, _ => rfl
  | .cons _ type rest, start => by
    rw [Fields.spansFrom, List.map_append, Layout.map_scalar_spansFrom type,
      Fields.map_scalar_spansFrom rest]
    rfl

end

namespace Layout

/-- **Bytes leaf by leaf**, each as it is in the order of the other layout. -/
inductive Turns : List (Scalar × Scalar) → Bytes → Bytes → Prop
  | nil : Turns [] [] []
  | cons {s s' : Scalar} {ps : List (Scalar × Scalar)} {bytes rest rest' : Bytes} :
      bytes.length = s.width → Turns ps rest rest' →
      Turns ((s, s') :: ps) (bytes ++ rest) (s.turn s' bytes ++ rest')

theorem Turns.append {ps qs : List (Scalar × Scalar)} {a a' b b' : Bytes} (h : Turns ps a a')
    (g : Turns qs b b') : Turns (ps ++ qs) (a ++ b) (a' ++ b') := by
  induction h with
  | nil => exact g
  | cons hl _ ih =>
    rw [List.append_assoc, List.append_assoc]
    exact .cons hl ih

theorem Turns.leaf {s s' : Scalar} {bytes : Bytes} (h : bytes.length = s.width) :
    Turns [(s, s')] bytes (s.turn s' bytes) := by
  have ht : Turns [(s, s')] (bytes ++ []) (s.turn s' bytes ++ []) := .cons h .nil
  rwa [List.append_nil, List.append_nil] at ht

theorem Turns.length_eq {ps : List (Scalar × Scalar)} {a a' : Bytes} (h : Turns ps a a') :
    a'.length = a.length := by
  induction h with
  | nil => rfl
  | cons _ _ ih => rw [List.length_append, List.length_append, Scalar.length_turn, ih]

/-- **Leaf by leaf is range by range**, where the leaves lie end to end. -/
theorem Turns.turnLeaves {ps : List (Scalar × Scalar)} {bytes bytes' : Bytes}
    (h : Turns ps bytes bytes') : ∀ (leaves : List (Span × Span)) (done : Bytes) (stop : Nat),
      leaves.map (fun l => (l.1.scalar, l.2.scalar)) = ps →
      Tiles done.length (leaves.map Prod.fst) stop →
        turnLeaves leaves (done ++ bytes) = done ++ bytes' := by
  induction h with
  | nil =>
    intro leaves done stop hp _
    rw [List.map_eq_nil_iff.mp hp, Layout.turnLeaves]
  | @cons s s' ps bytes rest rest' hl _ ih =>
    intro leaves done stop hp ht
    cases leaves with
    | nil => cases hp
    | cons l leaves =>
      obtain ⟨hs, hrest⟩ := List.cons.inj hp
      obtain ⟨rfl, rfl⟩ := Prod.mk.inj hs
      obtain ⟨hstart, ht⟩ := ht
      have hturn : (if l.1.scalar.order = l.2.scalar.order then done ++ (bytes ++ rest)
          else Bytes.reverseRange l.1.start l.1.scalar.width (done ++ (bytes ++ rest))) =
          (done ++ l.1.scalar.turn l.2.scalar bytes) ++ rest := by
        rw [Scalar.turn, hstart, ← hl, List.append_assoc]
        split
        · rfl
        · exact Bytes.reverseRange_between done bytes rest
      have hdone : (done ++ l.1.scalar.turn l.2.scalar bytes).length = l.1.finish := by
        rw [List.length_append, Scalar.length_turn, hl, Span.finish, hstart]
      rw [Layout.turnLeaves, hturn, ih leaves _ stop hrest (hdone ▸ ht), List.append_assoc]

/-! ### Two reordered layouts -/

theorem Reordered.length_spans {T T' : Layout} (h : T.Reordered T') :
    T'.spans.length = T.spans.length := by
  have hs := congrArg List.length (h.spansFrom 0)
  rwa [List.length_map, List.length_map] at hs

theorem Reordered.length_scalars {T T' : Layout} (h : T.Reordered T') :
    T'.scalars.length = T.scalars.length := by
  rw [← T'.map_scalar_spansFrom 0, ← T.map_scalar_spansFrom 0, List.length_map, List.length_map]
  exact h.length_spans

theorem Turns.turn_eq {T T' : Layout} (h : T.Reordered T') {bytes bytes' : Bytes}
    (ht : Turns (T.scalars.zip T'.scalars) bytes bytes') : T.turn T' bytes = bytes' := by
  apply ht.turnLeaves (T.spans.zip T'.spans) [] T.width
  · rw [← T.map_scalar_spansFrom 0, ← T'.map_scalar_spansFrom 0, List.zip_map]
    rfl
  · rw [List.map_fst_zip (Nat.le_of_eq h.length_spans.symm)]
    exact T.tiles_spans

/-- The leaves of two lists of layouts, pair by pair. -/
def leafPairs (Ts Ts' : List Layout) : List (Scalar × Scalar) :=
  (Ts.flatMap scalars).zip (Ts'.flatMap scalars)

theorem leafPairs_cons {T T' : Layout} (h : T.Reordered T') (Ts Ts' : List Layout) :
    leafPairs (T :: Ts) (T' :: Ts') = T.scalars.zip T'.scalars ++ leafPairs Ts Ts' := by
  rw [leafPairs, List.flatMap_cons, List.flatMap_cons, List.zip_append h.length_scalars.symm,
    leafPairs]

theorem scalars_zip {T T' : Layout} (h : T.scalar? = none) (h' : T'.scalar? = none) :
    T.scalars.zip T'.scalars = leafPairs T.members T'.members := by
  rw [scalars_composite h, scalars_composite h', leafPairs]

/-! ### Packing -/

/-- **Packed alike**: both are refused for one reason, or the bytes differ leaf by leaf. -/
inductive PackedAlike (ps : List (Scalar × Scalar)) : Except Error Bytes → Except Error Bytes → Prop
  | refused (e : Error) : PackedAlike ps (.error e) (.error e)
  | packed {bytes bytes' : Bytes} : Turns ps bytes bytes' → PackedAlike ps (.ok bytes) (.ok bytes')

theorem encodeAll_alike {Ts Ts' : List Layout}
    (h : List.Forall₂ (fun U U' => ∃ _ : U.Reordered U',
      ∀ v, PackedAlike (U.scalars.zip U'.scalars) (U.encode v) (U'.encode v)) Ts Ts') :
    ∀ vs : List Value, vs.length = Ts.length →
      PackedAlike (leafPairs Ts Ts') (encodeAll Ts vs) (encodeAll Ts' vs) := by
  induction h with
  | nil =>
    intro vs hl
    rw [List.length_eq_zero_iff.mp hl]
    exact .packed .nil
  | @cons T T' Ts Ts' hT _ ih =>
    intro vs hl
    cases vs with
    | nil => cases hl
    | cons v vs =>
      obtain ⟨hT, hpacked⟩ := hT
      have hv := hpacked v
      have hvs := ih vs (Nat.succ.inj hl)
      rw [encodeAll_cons, encodeAll_cons, leafPairs_cons hT]
      generalize T.encode v = r, T'.encode v = r' at hv
      generalize encodeAll Ts vs = q, encodeAll Ts' vs = q' at hvs
      cases hv with
      | refused e => exact .refused e
      | packed hb =>
        cases hvs with
        | refused e => exact .refused e
        | packed hbs => exact .packed (hb.append hbs)

theorem encode_scalar_refused {s : Scalar} {x : Number} {e : Error}
    (h : s.primitive.fault? x = some e) : (scalar s).encode (.number x) = .error e := by
  rw [encode, faults, fold_scalar, Scalar.fault?, h]
  rfl

theorem Reordered.encode_alike {T T' : Layout} (h : T.Reordered T') :
    ∀ v : Value, PackedAlike (T.scalars.zip T'.scalars) (T.encode v) (T'.encode v) := by
  induction h using Reordered.byMembers with
  | scalar p o o' =>
    intro v
    cases v with
    | list vs => exact .refused _
    | number x =>
      cases hf : p.fault? x with
      | none =>
        have he := encode_scalar_ok (s := ⟨p, o⟩).mpr ⟨x, rfl, hf, rfl⟩
        have he' := encode_scalar_ok (s := ⟨p, o'⟩).mpr ⟨x, rfl, hf, Scalar.turn_bytesOf p o o' x⟩
        rw [he, he']
        exact .packed (.leaf (Bytes.length_encode _ _ _))
      | some e =>
        rw [encode_scalar_refused hf, encode_scalar_refused hf]
        exact .refused e
  | composite T T' _ hT hT' hm =>
    intro v
    cases v with
    | number x =>
      rw [encode_number hT, encode_number hT']
      exact .refused _
    | list vs =>
      rw [encode_list hT, encode_list hT', scalars_zip hT hT', ← hm.length_eq]
      split
      · exact encodeAll_alike hm vs ‹_›
      · exact .refused _

/-! ### Unpacking -/

theorem decodeAll_turns {Ts Ts' : List Layout}
    (h : List.Forall₂ (fun U U' => ∃ _ : U.Reordered U', ∀ bytes : Bytes, bytes.length = U.width →
      ∃ bytes', Turns (U.scalars.zip U'.scalars) bytes bytes' ∧ U.decode bytes' = U'.decode bytes)
      Ts Ts') :
    ∀ bytes : Bytes, bytes.length = totalWidth Ts →
      ∃ bytes', Turns (leafPairs Ts Ts') bytes bytes' ∧
        decodeAll Ts bytes' = decodeAll Ts' bytes := by
  induction h with
  | nil =>
    intro bytes hl
    rw [List.length_eq_zero_iff.mp hl]
    exact ⟨[], .nil, rfl⟩
  | @cons T T' Ts Ts' hT _ ih =>
    intro bytes hl
    obtain ⟨hT, hdecode⟩ := hT
    obtain ⟨first, rest, rfl, hfirst, hrest⟩ := exists_append_of_length hl
    obtain ⟨first', hf, hfd⟩ := hdecode first hfirst
    obtain ⟨rest', hr, hrd⟩ := ih rest hrest
    refine ⟨first' ++ rest', leafPairs_cons hT Ts Ts' ▸ hf.append hr, ?_⟩
    rw [decodeAll_append (hf.length_eq.trans hfirst), decodeAll_append (hfirst.trans hT.width.symm),
      hfd, hrd]

theorem Reordered.decode_turns {T T' : Layout} (h : T.Reordered T') :
    ∀ bytes : Bytes, bytes.length = T.width →
      ∃ bytes', Turns (T.scalars.zip T'.scalars) bytes bytes' ∧
        T.decode bytes' = T'.decode bytes := by
  induction h using Reordered.byMembers with
  | scalar p o o' => exact fun bytes hl => ⟨_, .leaf hl, Scalar.decode_turn p o o' bytes⟩
  | composite T T' _ hT hT' hm =>
    intro bytes hl
    rw [width_composite hT] at hl
    obtain ⟨bytes', ht, hd⟩ := decodeAll_turns hm bytes hl
    refine ⟨bytes', scalars_zip hT hT' ▸ ht, ?_⟩
    rw [decode_composite hT, decode_composite hT', hd]

/-! ### Layouts and their bytes -/

/-- The numbers of a part: its offset, its width and the count of its members. -/
def Part.measures (p : Part) : Nat × Nat × Nat :=
  (p.offset, p.type.width, p.type.members.length)

/-- **What becomes of layouts and bytes when orders are turned round.** -/
structure Turned (T T' : Layout) : Prop where
  width : T'.width = T.width
  /-- A path comes to as many bytes and members, at the same offset. -/
  parts : ∀ path, (T'.at? path).map Part.measures = (T.at? path).map Part.measures
  /-- The leaves are the same primitives, at the same bytes. -/
  leaves : T'.spans.map (fun s => (s.start, s.scalar.primitive)) =
    T.spans.map fun s => (s.start, s.scalar.primitive)
  /-- What is refused is refused for the same reason, and what is packed is turned. -/
  pack : ∀ v, T'.pack v = (T.pack v).map (T.turn T')
  unpack : ∀ bytes : Bytes, bytes.length = T.width → T'.unpack bytes = T.unpack (T.turn T' bytes)

theorem Reordered.length_members {T T' : Layout} (h : T.Reordered T') :
    T'.members.length = T.members.length := by
  induction h using Reordered.byMembers with
  | scalar p o o' => rfl
  | composite T T' _ _ _ hm => exact hm.length_eq.symm

theorem Reordered.turned {T T' : Layout} (h : T.Reordered T') : T.Turned T' where
  width := h.width
  parts := by
    intro path
    have hp := h.at? path
    generalize T.at? path = x, T'.at? path = y at hp
    cases hp with
    | none => rfl
    | some hp =>
      obtain ⟨htype, hoffset, -⟩ := hp
      show some _ = some _
      rw [Part.measures, Part.measures, hoffset, htype.width, htype.length_members]
  leaves := h.spansFrom 0
  pack := by
    intro v
    have hv := h.encode_alike v
    rw [pack_eq_encode, pack_eq_encode]
    generalize T.encode v = r, T'.encode v = r' at hv
    cases hv with
    | refused e => rfl
    | packed ht => exact congrArg Except.ok (ht.turn_eq h).symm
  unpack := by
    intro bytes hl
    obtain ⟨bytes', ht, hd⟩ := h.decode_turns bytes hl
    rw [ht.turn_eq h, unpack_eq, unpack_eq, if_pos (hl.trans h.width.symm),
      if_pos (ht.length_eq.trans hl), hd]

end Layout

end ByteLayout
