import ByteLayout.Proofs.Layout.Nested

/-!
# Layouts within a layout

A path goes into a layout, to a field by its name or to an element by its index,
and so on from there.  What it comes to is a `Part`: a layout, the place where
it starts, which adds up the offsets along the path, and the places in the lists
of a value where its own value is found.

The offsets were counted when the fields were laid out, and the places are those
of the names.  `Fields.find?_entriesFrom` says that the two go together, so every
step of a path is one to the `i`-th member, past the widths of those before it:
`HasPart` is a path of such steps.  By induction on it a part lies within the
layout (`HasPart.inside`), and its bytes are decoded to the value at its places
(`HasPart.at?_decode`).
-/

namespace ByteLayout

/-! ### Values within a value -/

namespace Value

/-- The value at a place in each list on the way, the outermost first. -/
def at? : Value → List Nat → Option Value
  | v, [] => some v
  | .list vs, i :: places => vs[i]?.bind fun v => v.at? places
  | .number _, _ :: _ => none

/-- **The value with another in the place of the one that is there.** -/
def replace : Value → List Nat → Value → Value
  | _, [], w => w
  | .list vs, i :: places, w => .list (vs.modify i fun v => v.replace places w)
  | .number x, _ :: _, _ => .number x

end Value

/-! ### Paths -/

namespace Layout

/-- One step of a path. -/
inductive Selector
  | field (name : String)
  | element (index : Nat)
  deriving DecidableEq, Repr

/-- A layout within another one: where it starts in the bytes, and at which places in the value. -/
structure Part where
  type : Layout
  offset : Nat
  places : List Nat
  deriving DecidableEq, Repr

/-- The member that a step goes to: a field by name, or an element if there are as many. -/
def member? : Layout → Selector → Option Part
  | .scalar _, _ => none
  | .array element count, .element i =>
    if i < count then some ⟨element, i * element.width, [i]⟩ else none
  | .array .., .field _ => none
  | .struct fs, .field name =>
    (fs.field? name).map fun e => ⟨e.type, e.offset, [fs.names.idxOf name]⟩
  | .struct _, .element _ => none

/-- **The part that a path comes to**, if it comes to one; the offsets on the way add up. -/
def at? : Layout → List Selector → Option Part
  | T, [] => some ⟨T, 0, []⟩
  | T, s :: path => do
    let m ← T.member? s
    let p ← m.type.at? path
    return ⟨p.type, m.offset + p.offset, m.places ++ p.places⟩

/-- **A part by the places of members**: the members before it are what its offset leaves out. -/
inductive HasPart : Layout → Part → Prop
  | self (T : Layout) : HasPart T ⟨T, 0, []⟩
  | member {T U : Layout} {p : Part} {i : Nat} : T.members[i]? = some U → HasPart U p →
      HasPart T ⟨p.type, totalWidth (T.members.take i) + p.offset, i :: p.places⟩

/-! ### A step -/

end Layout

/-- **A name and the place of the name find the same field.** -/
theorem Fields.find?_entriesFrom {name : String} {e : Entry} : ∀ (fs : Fields) (start : Nat),
    (fs.entriesFrom start).find? (·.name == name) = some e →
      fs.types[fs.names.idxOf name]? = some e.type ∧
        e.offset = start + Layout.totalWidth (fs.types.take (fs.names.idxOf name))
  | .nil => fun _ h => by cases h
  | .cons first type rest => fun start h => by
    rw [entriesFrom] at h
    rw [names, toList, List.map_cons, List.idxOf_cons, types]
    by_cases hn : first = name
    · rw [List.find?_cons_of_pos (by simpa using hn), Option.some.injEq] at h
      rw [← h, hn, beq_self_eq_true, cond_true, List.take_zero]
      exact ⟨rfl, rfl⟩
    · rw [List.find?_cons_of_neg (by simpa using hn)] at h
      obtain ⟨ht, ho⟩ := find?_entriesFrom rest _ h
      rw [beq_false_of_ne hn, cond_false, List.take_succ_cons, Layout.totalWidth, ← Nat.add_assoc]
      exact ⟨ht, ho⟩

namespace Layout

/-- **A step goes to the `i`-th member**, which starts after the members before it. -/
theorem member?_eq_some {T : Layout} {s : Selector} {m : Part} (h : T.member? s = some m) :
    ∃ i U, T.members[i]? = some U ∧ m = ⟨U, totalWidth (T.members.take i), [i]⟩ := by
  cases T with
  | scalar t => cases h
  | array element count =>
    cases s with
    | field name => cases h
    | element i =>
      rw [member?] at h
      split at h
      · rename_i hi
        refine ⟨i, element, List.getElem?_replicate_of_lt hi, ?_⟩
        rw [members, List.take_replicate, totalWidth_replicate, Nat.min_eq_left (Nat.le_of_lt hi),
          Nat.mul_comm]
        exact (Option.some.inj h).symm
      · cases h
  | struct fs =>
    cases s with
    | element i => cases h
    | field name =>
      obtain ⟨e, he, rfl⟩ := Option.map_eq_some_iff.mp h
      obtain ⟨ht, ho⟩ := fs.find?_entriesFrom 0 he
      rw [Nat.zero_add] at ho
      exact ⟨_, e.type, ht, by rw [ho, members]⟩

theorem hasPart_of_at? {path : List Selector} :
    ∀ {T : Layout} {p : Part}, T.at? path = some p → T.HasPart p := by
  induction path with
  | nil =>
    intro T p h
    rw [← Option.some.inj h]
    exact .self T
  | cons s path ih =>
    intro T p h
    obtain ⟨m, hm, h⟩ := Option.bind_eq_some_iff.mp h
    obtain ⟨q, hq, h⟩ := Option.bind_eq_some_iff.mp h
    obtain ⟨i, U, hU, rfl⟩ := member?_eq_some hm
    rw [← Option.some.inj h]
    exact .member hU (ih hq)

/-! ### A path -/

/-- **A part lies within the layout.** -/
theorem HasPart.inside {T : Layout} {p : Part} (h : T.HasPart p) :
    p.offset + p.type.width ≤ T.width := by
  induction h with
  | self T => exact Nat.le_of_eq (Nat.zero_add _)
  | @member T U p i hU _ ih =>
    have hw := width_le_totalWidth_drop hU
    have ht := totalWidth_take_add_drop T.members i
    rw [width_composite (scalar?_of_members hU)]
    show totalWidth (T.members.take i) + p.offset + p.type.width ≤ _
    omega

/-- A member lies within the composite. -/
theorem member_inside {T U : Layout} {i : Nat} (h : T.members[i]? = some U) :
    totalWidth (T.members.take i) + U.width ≤ T.width :=
  (HasPart.member h (.self U)).inside

/-- Each member is decoded from its own bytes. -/
theorem decodeAll_getElem? : ∀ (Ts : List Layout) (bytes : Bytes) (i : Nat),
    (decodeAll Ts bytes)[i]? =
      Ts[i]?.map fun U => U.decode (Buffer.next ⟨bytes, totalWidth (Ts.take i)⟩ U.width) := by
  intro Ts
  induction Ts with
  | nil => intro bytes i; rfl
  | cons T Ts ih =>
    intro bytes i
    rw [decodeAll_cons]
    cases i with
    | zero => rfl
    | succ i =>
      rw [List.getElem?_cons_succ, ih, List.getElem?_cons_succ, List.take_succ_cons, totalWidth]
      simp only [Buffer.next, List.drop_drop]

/-- **The bytes of a part are decoded to the value at its places.** -/
theorem HasPart.at?_decode {T : Layout} {p : Part} (h : T.HasPart p) :
    ∀ bytes : Bytes, bytes.length = T.width →
      (T.decode bytes).at? p.places =
        some (p.type.decode (Buffer.next ⟨bytes, p.offset⟩ p.type.width)) := by
  induction h with
  | self T =>
    intro bytes hl
    rw [Buffer.next, List.drop_zero, ← hl, List.take_length, Value.at?]
  | @member T U p i hU hp ih =>
    intro bytes hl
    have hm := member_inside hU
    rw [decode_composite (scalar?_of_members hU), Value.at?, decodeAll_getElem?, hU]
    show (U.decode _).at? p.places = _
    rw [ih _ (Buffer.length_next (hl ▸ hm)), Buffer.next_next _ _ hp.inside]

end Layout

end ByteLayout
