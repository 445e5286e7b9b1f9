import ByteLayout.Layout.Measured

/-!
# Measures that are right

`Layout.measured` is a layout with the measures that it has, at every depth:
the widths of scalars, arrays and structs, and the offsets of fields.  Without
the measures it is the layout again (`layout_measured`).

Where the measures are right, packing and unpacking by them is packing and
unpacking by the plain layout, which works its widths out: `packInto_measured`
and `unpackAt_measured` say so in a buffer, `pack_measured` and
`unpack_measured` for bytes of their own.
-/

namespace ByteLayout

/-! ### Scalars -/

/-- A scalar type with its kind and its width. -/
def Scalar.measured (s : Scalar) : MeasuredScalar := .ofPrimitive s.primitive s.order

@[simp] theorem Scalar.scalar_measured (s : Scalar) : s.measured.scalar = s := by
  obtain ⟨p, o⟩ := s
  cases p <;> rfl

/-- **A kind has a width if there is a primitive of both.** -/
theorem MeasuredScalar.ofKind_eq (k : Kind) (w : Nat) (o : ByteOrder) :
    ofKind k w o = Scalar.measured <$> Scalar.ofKind k w o := by
  rw [ofKind, ← Primitive.isSome_ofKind?, Scalar.ofKind]
  cases hp : Primitive.ofKind? k w with
  | none => rfl
  | some p =>
    obtain ⟨rfl, rfl⟩ := Primitive.eq_of_ofKind? hp
    rfl

/-! ### Right measures -/

mutual

/-- **A layout with the measures that it has.** -/
def Layout.measured : Layout → Measured
  | .scalar s => .scalar s.measured
  | .array element count => .array element.measured count (element.width * count)
  | .struct fields => .struct (fields.measuredFrom 0) fields.width

/-- The fields with the places where they start, the first one starting at `start`. -/
def Fields.measuredFrom (start : Nat) : Fields → MeasuredFields
  | .nil => .nil
  | .cons name type rest => .cons name type.measured start (rest.measuredFrom (start + type.width))

end

def Entry.measured (e : Entry) : MeasuredField := ⟨e.name, e.type.measured, e.offset⟩

@[simp] theorem Layout.width_measured (T : Layout) : T.measured.width = T.width := by
  cases T <;> rfl

mutual

@[simp] theorem Layout.layout_measured : ∀ T : Layout, T.measured.layout = T
  | .scalar s => by rw [Layout.measured, Measured.layout, Scalar.scalar_measured]
  | .array element count => by
    rw [Layout.measured, Measured.layout, Layout.layout_measured element]
  | .struct fields => by
    rw [Layout.measured, Measured.layout, Fields.layouts_measuredFrom fields]

theorem Fields.layouts_measuredFrom : ∀ (fs : Fields) (start : Nat),
    (fs.measuredFrom start).layouts = fs
  | .nil, _ => rfl
  | .cons name type rest, start => by
    rw [Fields.measuredFrom, MeasuredFields.layouts, Layout.layout_measured type,
      Fields.layouts_measuredFrom rest]

end

/-- The fields that are stored are the entries of the struct. -/
theorem Fields.toList_measuredFrom : ∀ (fs : Fields) (start : Nat),
    (fs.measuredFrom start).toList = (fs.entriesFrom start).map Entry.measured
  | .nil, _ => rfl
  | .cons name type rest, start => by
    rw [measuredFrom, MeasuredFields.toList, toList_measuredFrom rest, entriesFrom, List.map_cons,
      Entry.measured]

/-! ### Packing and unpacking -/

theorem Fields.length_measuredFrom (fs : Fields) (start : Nat) :
    (fs.measuredFrom start).toList.length = fs.length := by
  rw [toList_measuredFrom, List.length_map, length_entriesFrom]

mutual

theorem Layout.packInto_measured : ∀ T : Layout, T.measured.packInto = T.packInto
  | .scalar s => by
    funext v
    rw [Layout.measured, Measured.packInto, Scalar.scalar_measured, Layout.packInto]
  | .array element count => by
    funext v
    rw [Layout.measured, Measured.packInto, Layout.packInto, Layout.packInto_measured element]
  | .struct fields => by
    funext v
    rw [Layout.measured, Measured.packInto, Layout.packInto, Fields.packEach_measuredFrom fields,
      Fields.length_measuredFrom]

theorem Fields.packEach_measuredFrom : ∀ (fs : Fields) (start : Nat),
    (fs.measuredFrom start).packEach = fs.packEach
  | .nil, _ => rfl
  | .cons name type rest, start => by
    funext vs
    cases vs with
    | nil => rfl
    | cons v vs =>
      rw [Fields.measuredFrom, MeasuredFields.packEach, Fields.packEach,
        Layout.packInto_measured type, Fields.packEach_measuredFrom rest]

end

mutual

theorem Layout.unpackAt_measured : ∀ T : Layout, T.measured.unpackAt = T.unpackAt
  | .scalar s => by
    rw [Layout.measured, Measured.unpackAt, Scalar.scalar_measured, Layout.unpackAt]
  | .array element count => by
    rw [Layout.measured, Measured.unpackAt, Layout.unpackAt, Layout.unpackAt_measured element]
  | .struct fields => by
    rw [Layout.measured, Measured.unpackAt, Layout.unpackAt, Fields.unpackEach_measuredFrom fields]

theorem Fields.unpackEach_measuredFrom : ∀ (fs : Fields) (start : Nat),
    (fs.measuredFrom start).unpackEach = fs.unpackEach
  | .nil, _ => rfl
  | .cons name type rest, start => by
    rw [Fields.measuredFrom, MeasuredFields.unpackEach, Fields.unpackEach,
      Layout.unpackAt_measured type, Fields.unpackEach_measuredFrom rest]

end

theorem Layout.pack_measured (T : Layout) : T.measured.pack = T.pack := by
  funext v
  cases T with
  | scalar s =>
    rw [measured, Measured.pack, pack, Scalar.scalar_measured]
    rfl
  | array element count =>
    rw [measured, Measured.pack, pack, packInto_measured]
  | struct fields =>
    rw [measured, Measured.pack, pack, Fields.packEach_measuredFrom, Fields.length_measuredFrom]
    rfl

theorem Layout.unpack_measured (T : Layout) : T.measured.unpack = T.unpack := by
  funext data
  rw [Measured.unpack, unpack, unpackAt_measured, width_measured]

end ByteLayout
