import ByteLayout.Proofs.Layout.Encoding
import ByteLayout.Proofs.Layout.Making
import ByteLayout.Proofs.Layout.Tiling

/-!
# What constructors promise

A layout that was made keeps what its constructors checked and worked out, at
every node of it.  `Measured.Sound` is what holds there of the numbers that are
stored: widths are those that there are, arrays and structs are as wide as their
parts, a field starts where the fields before it end, and its name finds it and
no other.  None of this is in the type, and packing and unpacking rely on the
widths without looking at them again.

`constructible_sound` puts this together with the bytes, which the scalars at
the leaves share out among them, and with the other direction: a scalar, an
array or a struct that cannot be made has one of the flaws, and a struct is
refused for the first.
-/

namespace ByteLayout

/-! ### Fields by name and by place -/

namespace Fields

theorem map_name_entriesFrom : ∀ (fs : Fields) (start : Nat),
    (fs.entriesFrom start).map Entry.name = fs.names
  | .nil => fun _ => rfl
  | .cons name type rest => fun start => by
    rw [entriesFrom, List.map_cons, map_name_entriesFrom rest, names, names, toList, List.map_cons]

theorem widthBefore_eq : ∀ (fs : Fields) (i : Nat),
    fs.widthBefore i = Layout.totalWidth (fs.types.take i)
  | .nil, i => by rw [widthBefore, types, List.take_nil, Layout.totalWidth]
  | .cons .., 0 => by rw [widthBefore, List.take_zero, Layout.totalWidth]
  | .cons _ type rest, i + 1 => by
    rw [widthBefore, widthBefore_eq rest, types, List.take_succ_cons, Layout.totalWidth]

theorem find?_name_of_mem {es : List Entry} (h : (es.map Entry.name).Nodup) {e : Entry}
    (he : e ∈ es) : es.find? (·.name == e.name) = some e := by
  induction es with
  | nil => cases he
  | cons a es ih =>
    rw [List.map_cons, List.nodup_cons] at h
    rcases List.mem_cons.mp he with rfl | he
    · exact List.find?_cons_of_pos (beq_self_eq_true _)
    · have hne : a.name ≠ e.name := fun hn => h.1 (hn ▸ List.mem_map_of_mem he)
      rw [List.find?_cons_of_neg (by simpa using hne), ih h.2 he]

/-- **Fields that are where they say.** -/
structure Placed (fs : Fields) : Prop where
  named : "" ∉ fs.names
  distinct : fs.names.Nodup
  width : fs.width = Layout.totalWidth fs.types
  /-- A field starts after the widths of the fields before it. -/
  offset : ∀ (i : Nat) (e : Entry), fs.entries[i]? = some e →
    fs.toList[i]? = some (e.name, e.type) ∧ e.offset = Layout.totalWidth (fs.types.take i)
  /-- A name finds the field that has it, and there is no second one. -/
  found : ∀ (name : String) (e : Entry),
    fs.field? name = some e ↔ e ∈ fs.entries ∧ e.name = name

theorem Valid.placed {fs : Fields} (h : Valid fs.toList) : fs.Placed where
  named := h.named
  distinct := h.distinct
  width := (Layout.totalWidth_types fs).symm
  offset := by
    intro i e he
    rw [entries_getElem?, Option.map_eq_some_iff] at he
    obtain ⟨f, hf, rfl⟩ := he
    exact ⟨hf, widthBefore_eq fs i⟩
  found := by
    intro name e
    have hn : (fs.entries.map Entry.name).Nodup := map_name_entriesFrom fs 0 ▸ h.distinct
    constructor
    · intro he
      exact ⟨List.mem_of_find?_eq_some he, by simpa using List.find?_some he⟩
    · rintro ⟨he, rfl⟩
      exact find?_name_of_mem hn he

end Fields

/-! ### Every node -/

theorem Primitive.width_eq (p : Primitive) :
    if p.kind = .float then p.width = 4 ∨ p.width = 8
    else p.width = 1 ∨ p.width = 2 ∨ p.width = 4 ∨ p.width = 8 := by
  cases p <;> decide

theorem Primitive.width_le (p : Primitive) : p.width ≤ 8 := by
  cases p <;> decide

namespace Layout

theorem WellFormed.width_lt {T : Layout} (h : T.WellFormed) : T.width < addressSpace := by
  cases h with
  | scalar s => exact Nat.lt_of_le_of_lt s.primitive.width_le (by decide)
  | array _ hw => exact hw
  | @struct fs _ hv =>
    have hf := hv.fits
    rwa [Fields.map_snd_toList, totalWidth_types] at hf

theorem WellFormed.placed {fs : Fields} (h : (Layout.struct fs).WellFormed) : fs.Placed := by
  cases h with
  | struct _ hv => exact hv.placed

end Layout

/-- **Fields that are where they say**, in a struct of some width, by what is stored. -/
structure MeasuredFields.Placed (fs : MeasuredFields) (width : Nat) : Prop where
  named : ∀ f ∈ fs.toList, f.name ≠ ""
  distinct : (fs.toList.map MeasuredField.name).Nodup
  width_eq : width = Measured.totalWidth (fs.toList.map MeasuredField.type)
  /-- A field starts after the widths of the fields before it. -/
  offset_eq : ∀ (i : Nat) (f : MeasuredField), fs.toList[i]? = some f →
    f.offset = Measured.totalWidth ((fs.toList.take i).map MeasuredField.type)
  /-- A name finds the field that has it, and there is no second one. -/
  found : ∀ (name : String) (f : MeasuredField),
    fs.field? name = some f ↔ f ∈ fs.toList ∧ f.name = name
  offset_found : ∀ (name : String) (offset : Nat),
    fs.offset? name = some offset ↔ ∃ f ∈ fs.toList, f.name = name ∧ f.offset = offset

theorem MeasuredFields.offset?_eq_some_iff {fs : MeasuredFields}
    (h : ∀ (name : String) (f : MeasuredField),
      fs.field? name = some f ↔ f ∈ fs.toList ∧ f.name = name) (name : String) (offset : Nat) :
    fs.offset? name = some offset ↔ ∃ f ∈ fs.toList, f.name = name ∧ f.offset = offset := by
  rw [offset?, Option.map_eq_some_iff]
  constructor
  · rintro ⟨f, hf, ho⟩
    obtain ⟨hmem, hname⟩ := (h name f).mp hf
    exact ⟨f, hmem, hname, ho⟩
  · rintro ⟨f, hmem, hname, ho⟩
    exact ⟨f, (h name f).mpr ⟨hmem, hname⟩, ho⟩

namespace Fields

theorem map_type_measuredFrom (fs : Fields) (start : Nat) :
    (fs.measuredFrom start).toList.map MeasuredField.type = fs.types.map Layout.measured := by
  rw [toList_measuredFrom, ← map_type_entriesFrom fs start, List.map_map, List.map_map]
  rfl

theorem map_name_measuredFrom (fs : Fields) (start : Nat) :
    (fs.measuredFrom start).toList.map MeasuredField.name = fs.names := by
  rw [toList_measuredFrom, ← map_name_entriesFrom fs start, List.map_map]
  rfl

theorem field?_measuredFrom (fs : Fields) (name : String) :
    (fs.measuredFrom 0).field? name = (fs.field? name).map Entry.measured := by
  rw [MeasuredFields.field?, toList_measuredFrom, List.find?_map]
  rfl

/-- **Fields that are where they say have the right offsets stored.** -/
theorem Placed.measured {fs : Fields} (h : fs.Placed) :
    (fs.measuredFrom 0).Placed fs.width := by
  have hfound : ∀ (name : String) (f : MeasuredField),
      (fs.measuredFrom 0).field? name = some f ↔
        f ∈ (fs.measuredFrom 0).toList ∧ f.name = name := by
    intro name f
    rw [field?_measuredFrom, toList_measuredFrom, Option.map_eq_some_iff, List.mem_map]
    constructor
    · rintro ⟨e, he, rfl⟩
      obtain ⟨hmem, hname⟩ := (h.found name e).mp he
      exact ⟨⟨e, hmem, rfl⟩, hname⟩
    · rintro ⟨⟨e, hmem, rfl⟩, hname⟩
      exact ⟨e, (h.found name e).mpr ⟨hmem, hname⟩, rfl⟩
  refine ⟨?_, ?_, ?_, ?_, hfound, MeasuredFields.offset?_eq_some_iff hfound⟩
  · intro f hf hname
    apply h.named
    rw [← map_name_measuredFrom fs 0, ← hname]
    exact List.mem_map_of_mem hf
  · rw [map_name_measuredFrom]
    exact h.distinct
  · rw [map_type_measuredFrom, Measured.totalWidth_measured]
    exact h.width
  · intro i f hf
    rw [toList_measuredFrom, List.getElem?_map, Option.map_eq_some_iff] at hf
    obtain ⟨e, he, rfl⟩ := hf
    rw [List.map_take, map_type_measuredFrom, ← List.map_take, Measured.totalWidth_measured]
    exact (h.offset i e he).2

end Fields

namespace Measured

/-- **The layouts within a layout**, itself among them, and the elements even of empty arrays. -/
inductive Node : Measured → Measured → Prop
  | self (t : Measured) : Node t t
  | element {element u : Measured} {count width : Nat} :
      Node element u → Node (.array element count width) u
  | field {fs : MeasuredFields} {width : Nat} {f : MeasuredField} {u : Measured} :
      f ∈ fs.toList → Node f.type u → Node (.struct fs width) u

/-- **What holds at a node of a layout that was made**, of the numbers that are stored there.  The
data that is written and read for a scalar has the width of the scalar. -/
def Sound : Measured → Prop
  | .scalar s => s.scalar.width = s.width ∧
    if s.kind = .float then s.width = 4 ∨ s.width = 8
    else s.width = 1 ∨ s.width = 2 ∨ s.width = 4 ∨ s.width = 8
  | .array element count width => width = count * element.width
  | .struct fs width => fs.Placed width

/-- The type alone promises nothing: three bytes can be said to be four. -/
example : ¬Sound (.array (.scalar ⟨.unsigned, 1, .bigEndian⟩) 3 4) := by
  show ¬4 = 3 * 1
  decide

end Measured

namespace Layout

theorem WellFormed.sound {T : Layout} (h : T.WellFormed) :
    T.measured.Sound ∧ T.measured.width < addressSpace := by
  refine ⟨?_, T.width_measured ▸ h.width_lt⟩
  cases h with
  | scalar s => exact ⟨congrArg Scalar.width s.scalar_measured, s.primitive.width_eq⟩
  | @array element count _ _ =>
    show element.width * count = count * element.measured.width
    rw [width_measured, Nat.mul_comm]
  | struct _ hv => exact hv.placed.measured

/-- Within a layout without a flaw that is measured, there are only such. -/
theorem WellFormed.node {t u : Measured} (hu : Measured.Node t u) :
    ∀ T : Layout, T.WellFormed → T.measured = t → ∃ U : Layout, U.WellFormed ∧ U.measured = u := by
  induction hu with
  | self t =>
    intro T hT ht
    exact ⟨T, hT, ht⟩
  | element _ ih =>
    intro T hT ht
    cases hT with
    | scalar s => cases ht
    | struct _ _ => cases ht
    | array he _ =>
      obtain ⟨rfl, -, -⟩ := Measured.array.inj ht
      exact ih _ he rfl
  | field hf _ ih =>
    intro T hT ht
    cases hT with
    | scalar s => cases ht
    | array _ _ => cases ht
    | @struct fs hts _ =>
      obtain ⟨rfl, -⟩ := Measured.struct.inj ht
      have hmem := List.mem_map_of_mem (f := MeasuredField.type) hf
      rw [Fields.map_type_measuredFrom] at hmem
      obtain ⟨U, hU, hUf⟩ := List.mem_map.mp hmem
      exact ih U (hts U hU) hUf

end Layout

/-! ### Scalars -/

theorem Kind.supportsWidth_iff {k : Kind} {w : Nat} : k.supportsWidth w = true ↔
    if k = .float then w = 4 ∨ w = 8 else w = 1 ∨ w = 2 ∨ w = 4 ∨ w = 8 := by
  cases k <;> simp [supportsWidth, widths]

/-- **A scalar type stores the kind and the width that it is asked for**, if they go together. -/
theorem MeasuredScalar.ofKind_ok {k : Kind} {w : Nat} {o : ByteOrder} {s : MeasuredScalar} :
    ofKind k w o = .ok s ↔ s = ⟨k, w, o⟩ ∧
      if k = .float then w = 4 ∨ w = 8 else w = 1 ∨ w = 2 ∨ w = 4 ∨ w = 8 := by
  rw [← Kind.supportsWidth_iff, ofKind]
  constructor
  · intro h
    split at h
    · rename_i hk
      exact ⟨(Except.ok.inj h).symm, hk⟩
    · cases h
  · rintro ⟨rfl, hk⟩
    rw [if_pos hk]

/-! ### All together -/

namespace Layout

/-- The points by a struct, and the rest by a builder. -/
theorem tagged_constructible : tagged.Constructible := by
  have hpoint : (struct (.cons "x" (.scalar ⟨.int16, .bigEndian⟩)
      (.cons "y" (.scalar ⟨.float32, .littleEndian⟩) .nil))).Constructible := by
    refine @Constructible.struct [("x", .scalar ⟨.int16, .bigEndian⟩),
      ("y", .scalar ⟨.float32, .littleEndian⟩)] _ ?_ rfl
    simp only [List.forall_mem_cons]
    exact ⟨.primitive _ _, .primitive _ _, nofun⟩
  refine @Constructible.builder [.field "tag" (.scalar ⟨.uint8, .bigEndian⟩),
    .array "points" (.struct (.cons "x" (.scalar ⟨.int16, .bigEndian⟩)
      (.cons "y" (.scalar ⟨.float32, .littleEndian⟩) .nil))) 2] _ ?_ rfl
  simp only [List.forall_mem_cons]
  exact ⟨.primitive _ _, hpoint, nofun⟩

end Layout

namespace Measured

/-- **Layouts that were made are sound, and what could not be made has a flaw.**  At every node the
widths and offsets that are stored are those of the parts, and each byte belongs to one scalar at a
leaf.  An array is refused if its elements fill the address space, and a struct for the first flaw
of a field. -/
theorem constructible_sound :
    (∀ t : Measured, t.Constructible →
      (∀ u, Node t u → u.Sound ∧ u.width < addressSpace) ∧ Tiles 0 t.spans t.width ∧
      ∀ i < t.width, ∃ pre s post, t.spans = pre ++ s :: post ∧ (s.start ≤ i ∧ i < s.finish) ∧
        ∀ r ∈ pre ++ post, ¬(r.start ≤ i ∧ i < r.finish)) ∧
    (∀ (k : Kind) (w : Nat) (o : ByteOrder) (s : MeasuredScalar),
      MeasuredScalar.ofKind k w o = .ok s ↔ s = ⟨k, w, o⟩ ∧
        if k = .float then w = 4 ∨ w = 8 else w = 1 ∨ w = 2 ∨ w = 4 ∨ w = 8) ∧
    (∀ (element : Measured) (count : Nat),
      (element.arrayOf count).result =
        if element.width * count < addressSpace then
          .ok (.array element count (element.width * count))
        else .error (.unsupportedComposition (.arrayOverflow count element.layout))) ∧
    (∀ (members : List (String × Measured)) (t : Measured), (structOf members).result = .ok t ↔
      t = .struct (MeasuredFields.place 0 members) (totalWidth (members.map Prod.snd)) ∧
        ∀ i, MeasuredFields.flawAt members i = none) ∧
    ∀ (members : List (String × Measured)) (e : Error), (structOf members).result = .error e ↔
      ∃ i f, MeasuredFields.flawAt members i = some f ∧
        (∀ j < i, MeasuredFields.flawAt members j = none) ∧ e = .unsupportedComposition f := by
  refine ⟨?_, fun _ _ _ _ => MeasuredScalar.ofKind_ok, ?_, fun _ _ => structOf_result_ok,
    fun _ _ => structOf_result_error⟩
  · intro t ht
    obtain ⟨T, hT, rfl⟩ := ht.exists_measured
    have htiles : Tiles 0 T.measured.spans T.measured.width := by
      rw [spans, T.spansFrom_measured, T.width_measured]
      exact T.tiles_spans
    refine ⟨?_, htiles, ?_⟩
    · intro u hu
      obtain ⟨U, hU, rfl⟩ := Layout.WellFormed.node hu T hT.wellFormed rfl
      exact hU.sound
    · intro i hi
      exact htiles.existsUnique (Nat.zero_le i) hi
  · intro element count
    rw [arrayOf_eq, BuildM.result_checked, arrayFlaw?]
    split <;> simp_all

/-- The places of the scalars are read off what was stored.  A second field of one name is refused,
though it is also the one that would fill the address space. -/
theorem constructible_sound_tagged :
    Layout.tagged.measured.Constructible ∧ Layout.tagged.measured.Sound ∧
      Tiles 0 Layout.tagged.measured.spans 13 ∧
      Layout.tagged.measured.spans.map Span.start = [0, 1, 3, 7, 9] ∧
      (structOf [("a", .scalar ⟨.unsigned, 1, .bigEndian⟩), ("a", .array
        (.scalar ⟨.unsigned, 1, .bigEndian⟩) (addressSpace - 1) (addressSpace - 1))]).result =
        .error (.unsupportedComposition (.duplicateField "a")) := by
  have htagged : Layout.tagged.measured.Constructible :=
    constructible_iff.mpr ⟨Layout.tagged, Layout.tagged_constructible, rfl⟩
  obtain ⟨hsound, -, -, -, herror⟩ := constructible_sound
  obtain ⟨hnode, htiles, -⟩ := hsound _ htagged
  refine ⟨htagged, (hnode _ (.self _)).1, htiles, rfl, ?_⟩
  exact (herror _ _).mpr ⟨1, .duplicateField "a", by decide, by decide, rfl⟩

end Measured

end ByteLayout
