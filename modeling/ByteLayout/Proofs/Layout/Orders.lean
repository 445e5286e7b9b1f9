import ByteLayout.Proofs.Layout.Parts
import ByteLayout.Proofs.Layout.Tiling
import Mathlib.Data.List.Forall2

/-!
# Layouts that differ in byte order

`flip` turns the order round in any choice of the scalars within a layout.  What
comes out is `Reordered`: the same fields and elements all the way down, with
the same primitives at the end and no matter which orders.  Only this is used of
it, so what is proved holds whichever scalars were chosen.

Nothing that is counted looks at an order: reordered layouts have parts at the
same offsets and places (`Reordered.at?`) and leaves at the same bytes
(`Reordered.spansFrom`).  `Reordered.byMembers` is the induction for what is
read and written, two layouts at a time.
-/

namespace ByteLayout

def Scalar.flip (s : Scalar) : Scalar := s.withOrder s.order.opposite

mutual

/-- **The layout with the order turned round in some of its scalars**, those at the chosen places.
The elements of an array are one layout, at place 0. -/
def Layout.flip (chosen : List Nat → Bool) : Layout → Layout
  | .scalar s => .scalar (if chosen [] then s.flip else s)
  | .array element count => .array (element.flip fun places => chosen (0 :: places)) count
  | .struct fields => .struct (fields.flipFrom 0 chosen)

/-- The fields with the order turned round in some of the scalars, the first field being at place
`i`. -/
def Fields.flipFrom (i : Nat) (chosen : List Nat → Bool) : Fields → Fields
  | .nil => .nil
  | .cons name type rest =>
    .cons name (type.flip fun places => chosen (i :: places)) (rest.flipFrom (i + 1) chosen)

end

mutual

/-- **The same layout up to the orders of scalars.** -/
inductive Layout.Reordered : Layout → Layout → Prop
  | scalar (p : Primitive) (o o' : ByteOrder) :
      Layout.Reordered (.scalar ⟨p, o⟩) (.scalar ⟨p, o'⟩)
  | array {T T' : Layout} (count : Nat) : Layout.Reordered T T' →
      Layout.Reordered (.array T count) (.array T' count)
  | struct {fs fs' : Fields} : Fields.Reordered fs fs' →
      Layout.Reordered (.struct fs) (.struct fs')

inductive Fields.Reordered : Fields → Fields → Prop
  | nil : Fields.Reordered .nil .nil
  | cons {T T' : Layout} {fs fs' : Fields} (name : String) : Layout.Reordered T T' →
      Fields.Reordered fs fs' → Fields.Reordered (.cons name T fs) (.cons name T' fs')

end

mutual

/-- **Turning orders round reorders.** -/
theorem Layout.reordered_flip :
    ∀ (T : Layout) (chosen : List Nat → Bool), T.Reordered (T.flip chosen)
  | .scalar ⟨p, o⟩, chosen => by
    rw [Layout.flip]
    split
    · exact .scalar p o o.opposite
    · exact .scalar p o o
  | .array element count, _ => .array count (Layout.reordered_flip element _)
  | .struct fields, chosen => .struct (Fields.reordered_flipFrom fields 0 chosen)

theorem Fields.reordered_flipFrom :
    ∀ (fs : Fields) (i : Nat) (chosen : List Nat → Bool), fs.Reordered (fs.flipFrom i chosen)
  | .nil, _, _ => .nil
  | .cons name type rest, i, chosen =>
    .cons name (Layout.reordered_flip type _) (Fields.reordered_flipFrom rest (i + 1) chosen)

end

/-! ### Member by member -/

mutual

/-- **Induction over the members of two layouts**: a relation holds of reordered layouts if it does
of two scalars with one primitive, and of composites whose members are reordered and in relation. -/
@[elab_as_elim]
theorem Layout.Reordered.byMembers {P : ∀ T T' : Layout, T.Reordered T' → Prop}
    (scalar : ∀ p o o', P _ _ (.scalar p o o'))
    (composite : ∀ T T' (h : T.Reordered T'), T.scalar? = none → T'.scalar? = none →
      List.Forall₂ (fun U U' => ∃ g : U.Reordered U', P U U' g) T.members T'.members →
      P T T' h) : ∀ {T T' : Layout} (h : T.Reordered T'), P T T' h
  | _, _, .scalar p o o' => scalar p o o'
  | _, _, .array count h => by
    have hP := Layout.Reordered.byMembers scalar composite h
    apply composite _ _ _ rfl rfl
    induction count with
    | zero => exact .nil
    | succ n ih => exact .cons ⟨h, hP⟩ ih
  | _, _, .struct h => composite _ _ _ rfl rfl (h.byMembers scalar composite)

theorem Fields.Reordered.byMembers {P : ∀ T T' : Layout, T.Reordered T' → Prop}
    (scalar : ∀ p o o', P _ _ (.scalar p o o'))
    (composite : ∀ T T' (h : T.Reordered T'), T.scalar? = none → T'.scalar? = none →
      List.Forall₂ (fun U U' => ∃ g : U.Reordered U', P U U' g) T.members T'.members →
      P T T' h) :
    ∀ {fs fs' : Fields}, fs.Reordered fs' →
      List.Forall₂ (fun U U' => ∃ g : U.Reordered U', P U U' g) fs.types fs'.types
  | _, _, .nil => .nil
  | _, _, .cons _ hT hfs =>
    .cons ⟨hT, Layout.Reordered.byMembers scalar composite hT⟩ (hfs.byMembers scalar composite)

end

/-! ### Widths, places and leaves -/

mutual

theorem Layout.Reordered.width : ∀ {T T' : Layout}, T.Reordered T' → T'.width = T.width
  | _, _, .scalar _ _ _ => rfl
  | _, _, .array _ h => by rw [Layout.width, Layout.width, h.width]
  | _, _, .struct h => h.width

theorem Fields.Reordered.width : ∀ {fs fs' : Fields}, fs.Reordered fs' → fs'.width = fs.width
  | _, _, .nil => rfl
  | _, _, .cons _ hT hfs => by rw [Fields.width, Fields.width, hT.width, hfs.width]

end
mutual

/-- **The leaves lie where they lay**, and hold the same primitives. -/
theorem Layout.Reordered.spansFrom : ∀ {T T' : Layout}, T.Reordered T' → ∀ start,
    (T'.spansFrom start).map (fun s => (s.start, s.scalar.primitive)) =
      (T.spansFrom start).map fun s => (s.start, s.scalar.primitive)
  | _, _, .scalar _ _ _, _ => rfl
  | _, _, .array _ h, start => by
    simp only [Layout.spansFrom, List.map_flatMap, h.width, h.spansFrom]
  | _, _, .struct h, start => h.spansFrom start

theorem Fields.Reordered.spansFrom : ∀ {fs fs' : Fields}, fs.Reordered fs' → ∀ start,
    (fs'.spansFrom start).map (fun s => (s.start, s.scalar.primitive)) =
      (fs.spansFrom start).map fun s => (s.start, s.scalar.primitive)
  | _, _, .nil, _ => rfl
  | _, _, .cons _ hT hfs, start => by
    rw [Fields.spansFrom, Fields.spansFrom, List.map_append, List.map_append, hT.width,
      hT.spansFrom, hfs.spansFrom]

end

namespace Fields.Reordered

theorem names : ∀ {fs fs' : Fields}, fs.Reordered fs' → fs'.names = fs.names
  | _, _, .nil => rfl
  | _, _, .cons name _ hfs => congrArg (name :: ·) hfs.names

theorem find?_entriesFrom (name : String) : ∀ (fs : Fields) {fs' : Fields}, fs.Reordered fs' →
    ∀ start,
    Option.Rel (fun e e' : Entry => e.type.Reordered e'.type ∧ e'.offset = e.offset)
      ((fs.entriesFrom start).find? (·.name == name))
      ((fs'.entriesFrom start).find? (·.name == name))
  | .nil => fun h start => by
    cases h
    exact .none
  | .cons first type rest => fun h start => by
    cases h with
    | cons _ hT hfs =>
      rw [entriesFrom, entriesFrom, hT.width]
      by_cases hn : first = name
      · rw [List.find?_cons_of_pos (by simpa using hn), List.find?_cons_of_pos (by simpa using hn)]
        exact .some ⟨hT, rfl⟩
      · rw [List.find?_cons_of_neg (by simpa using hn), List.find?_cons_of_neg (by simpa using hn)]
        exact find?_entriesFrom name rest hfs _

end Fields.Reordered

namespace Layout

theorem rel_bind {r : α → β → Prop} {q : γ → δ → Prop} {x : Option α} {y : Option β}
    {f : α → Option γ} {g : β → Option δ} (h : Option.Rel r x y)
    (hfg : ∀ a b, r a b → Option.Rel q (f a) (g b)) : Option.Rel q (x.bind f) (y.bind g) := by
  cases h with
  | none => exact .none
  | some h => exact hfg _ _ h

/-- The same part, but for the orders in it. -/
def Part.Reordered (p p' : Part) : Prop :=
  p.type.Reordered p'.type ∧ p'.offset = p.offset ∧ p'.places = p.places

theorem Reordered.member? {T T' : Layout} (h : T.Reordered T') (s : Selector) :
    Option.Rel Part.Reordered (T.member? s) (T'.member? s) := by
  cases h with
  | scalar p o o' => exact .none
  | array count h =>
    cases s with
    | field name => exact .none
    | element i =>
      rw [Layout.member?, Layout.member?, h.width]
      split
      · exact .some ⟨h, rfl, rfl⟩
      · exact .none
  | @struct fs fs' h =>
    cases s with
    | element i => exact .none
    | field name =>
      rw [Layout.member?, Layout.member?, h.names, Option.map_eq_bind, Option.map_eq_bind]
      apply rel_bind (Fields.Reordered.find?_entriesFrom name fs h 0)
      rintro e e' ⟨htype, hoffset⟩
      exact .some ⟨htype, hoffset, rfl⟩

/-- **A path comes to the same part**, at the same offset. -/
theorem Reordered.at? (path : List Selector) : ∀ {T T' : Layout}, T.Reordered T' →
    Option.Rel Part.Reordered (T.at? path) (T'.at? path) := by
  induction path with
  | nil => exact fun h => .some ⟨h, rfl, rfl⟩
  | cons s path ih =>
    intro T T' h
    apply rel_bind (h.member? s)
    rintro m m' ⟨htype, hoffset, hplaces⟩
    apply rel_bind (ih htype)
    rintro p p' ⟨htype', hoffset', hplaces'⟩
    exact .some ⟨htype', by rw [hoffset, hoffset'], by rw [hplaces, hplaces']⟩

end Layout

end ByteLayout
