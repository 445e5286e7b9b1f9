import ByteLayout.Proofs.Layout.Measured
import ByteLayout.Proofs.Layout.Members

/-!
# Where the scalars of a layout lie

Every byte of a layout belongs to one scalar at a leaf of it.  `spans` lists the
scalars with the places where they start: the elements of an array at the
multiples of their width, and each field after those before it.  `tiles_spans`
says that these ranges of bytes lie end to end, from the start of the layout to
its width, and `Tiles.existsUnique` what that means for a byte.

A layout with measures has its scalars where the stored widths and offsets put
them.  If the measures are right, `spansFrom_measured` says that they are the
same places.
-/

namespace ByteLayout

/-- A scalar at the place where it starts. -/
structure Span where
  start : Nat
  scalar : Scalar
  deriving DecidableEq, Repr

/-- The place after the bytes of the scalar. -/
def Span.finish (s : Span) : Nat := s.start + s.scalar.width

/-- **Ranges of bytes that lie end to end** from one place to another: each starts where the one
before it ends, so there is no gap and no overlap. -/
def Tiles : Nat → List Span → Nat → Prop
  | start, [], stop => start = stop
  | start, s :: ss, stop => s.start = start ∧ Tiles s.finish ss stop

namespace Tiles

theorem append {a b c : Nat} {ss ts : List Span} (h : Tiles a ss b) (g : Tiles b ts c) :
    Tiles a (ss ++ ts) c := by
  induction ss generalizing a with
  | nil =>
    obtain rfl := h
    exact g
  | cons s ss ih => exact ⟨h.1, ih h.2⟩

/-- The start of a range lies no earlier than that of the first. -/
theorem start_le {a b : Nat} {ss : List Span} (h : Tiles a ss b) : ∀ s ∈ ss, a ≤ s.start := by
  induction ss generalizing a with
  | nil => intro s hs; cases hs
  | cons t ss ih =>
    obtain ⟨rfl, h⟩ := h
    intro s hs
    rcases List.mem_cons.mp hs with rfl | hs
    · exact Nat.le_refl _
    · exact Nat.le_trans (Nat.le_add_right _ _) (ih h s hs)

/-- **Each byte lies in one of the ranges**, and in no other. -/
theorem existsUnique {a b : Nat} {ss : List Span} (h : Tiles a ss b) {i : Nat} (ha : a ≤ i)
    (hb : i < b) : ∃ pre s post, ss = pre ++ s :: post ∧ (s.start ≤ i ∧ i < s.finish) ∧
      ∀ t ∈ pre ++ post, ¬(t.start ≤ i ∧ i < t.finish) := by
  induction ss generalizing a with
  | nil =>
    obtain rfl := h
    exact absurd hb (Nat.not_lt.mpr ha)
  | cons s ss ih =>
    obtain ⟨rfl, h⟩ := h
    by_cases hi : i < s.finish
    · refine ⟨[], s, ss, rfl, ⟨ha, hi⟩, ?_⟩
      rintro t ht ⟨hle, -⟩
      exact absurd hi (Nat.not_lt.mpr (Nat.le_trans (h.start_le t ht) hle))
    · obtain ⟨pre, t, post, rfl, ht, hno⟩ := ih h (Nat.not_lt.mp hi)
      refine ⟨s :: pre, t, post, rfl, ht, ?_⟩
      intro u hu
      rcases List.mem_cons.mp hu with rfl | hu
      · exact fun g => hi g.2
      · exact hno u hu

end Tiles

/-! ### The scalars of a layout -/

mutual

/-- **The scalars at the leaves of a layout that starts at a place.** -/
def Layout.spansFrom (start : Nat) : Layout → List Span
  | .scalar s => [⟨start, s⟩]
  | .array element count =>
    (List.range count).flatMap fun i => element.spansFrom (start + i * element.width)
  | .struct fields => fields.spansFrom start

def Fields.spansFrom (start : Nat) : Fields → List Span
  | .nil => []
  | .cons _ type rest => type.spansFrom start ++ rest.spansFrom (start + type.width)

end

def Layout.spans (T : Layout) : List Span := T.spansFrom 0

namespace Layout

theorem tiles_elements {element : Layout}
    (h : ∀ start, Tiles start (element.spansFrom start) (start + element.width))
    (start count : Nat) :
    Tiles start
      ((List.range count).flatMap fun i => element.spansFrom (start + i * element.width))
      (start + count * element.width) := by
  induction count with
  | zero =>
    show start = start + 0 * element.width
    rw [Nat.zero_mul, Nat.add_zero]
  | succ count ih =>
    rw [List.range_succ, List.flatMap_append, List.flatMap_singleton, Nat.succ_mul,
      ← Nat.add_assoc]
    exact ih.append (h _)

end Layout

mutual

theorem Layout.tiles_spansFrom :
    ∀ (T : Layout) (start : Nat), Tiles start (T.spansFrom start) (start + T.width)
  | .scalar _, _ => ⟨rfl, rfl⟩
  | .array element count, start => by
    rw [Layout.width, Nat.mul_comm]
    exact Layout.tiles_elements (Layout.tiles_spansFrom element) start count
  | .struct fields, start => Fields.tiles_spansFrom fields start

theorem Fields.tiles_spansFrom :
    ∀ (fs : Fields) (start : Nat), Tiles start (fs.spansFrom start) (start + fs.width)
  | .nil, _ => rfl
  | .cons _ type rest, start => by
    rw [Fields.spansFrom, Fields.width, ← Nat.add_assoc]
    exact (Layout.tiles_spansFrom type start).append (Fields.tiles_spansFrom rest _)

end

/-- **The scalars of a layout lie end to end**, and take all of its bytes. -/
theorem Layout.tiles_spans (T : Layout) : Tiles 0 T.spans T.width := by
  have h := T.tiles_spansFrom 0
  rwa [Nat.zero_add] at h

/-! ### By what is stored -/

mutual

/-- **The scalars at the leaves of a layout that starts at a place**, found by the widths and the
offsets that are stored.  A scalar takes the bytes of the data that is written and read for it. -/
def Measured.spansFrom (start : Nat) : Measured → List Span
  | .scalar s => [⟨start, s.scalar⟩]
  | .array element count _ =>
    (List.range count).flatMap fun i => element.spansFrom (start + i * element.width)
  | .struct fields _ => fields.spansFrom start

def MeasuredFields.spansFrom (start : Nat) : MeasuredFields → List Span
  | .nil => []
  | .cons _ type offset rest => type.spansFrom (start + offset) ++ rest.spansFrom start

end

def Measured.spans (t : Measured) : List Span := t.spansFrom 0

mutual

theorem Layout.spansFrom_measured : ∀ (T : Layout) (start : Nat),
    T.measured.spansFrom start = T.spansFrom start
  | .scalar s, start => by
    rw [Layout.measured, Measured.spansFrom, Scalar.scalar_measured, Layout.spansFrom]
  | .array element count, start => by
    rw [Layout.measured, Measured.spansFrom, Layout.spansFrom, Layout.width_measured]
    simp only [Layout.spansFrom_measured element]
  | .struct fields, start => by
    rw [Layout.measured, Measured.spansFrom, Layout.spansFrom, Fields.spansFrom_measuredFrom fields,
      Nat.add_zero]

/-- A field that stores its offset lies where it lies after those before it. -/
theorem Fields.spansFrom_measuredFrom : ∀ (fs : Fields) (offset start : Nat),
    (fs.measuredFrom offset).spansFrom start = fs.spansFrom (start + offset)
  | .nil, _, _ => rfl
  | .cons _ type rest, offset, start => by
    rw [Fields.measuredFrom, MeasuredFields.spansFrom, Fields.spansFrom,
      Layout.spansFrom_measured type, Fields.spansFrom_measuredFrom rest, Nat.add_assoc]

end

end ByteLayout
