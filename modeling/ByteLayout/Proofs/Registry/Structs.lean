import ByteLayout.Proofs.Layout.WellFormed
import Mathlib.Data.List.Forall2

/-!
# Structs from builders and registries

There are three ways to a struct: from its fields at once, from a builder that
is told one field at a time, and from a registry that is told the names of the
types.  All three come to `Fields.make`.  They differ in what they look at
before, and so in which of several faults is told: a builder tells the first
array that cannot stand, a registry the first type that it does not know, and
only where there is none are the fields looked at in declaration order.

`Builder.Agrees` and `Registry.Agrees` say this.  Their equations are between
steps that also take notes, so they say as well what is noted: an array that
cannot stand is noted when it is met, the fields at most once, and a type that
is not known never.
-/

namespace ByteLayout

-- Powers are those of the core library.
attribute [local instance (2000)] instPowNat

/-! ### What is noted of fields -/

/-- The flaws of a name, with the notes of them; a struct that is too wide is refused without. -/
inductive Flaw.OfName : Flaw → Event → Prop
  | emptyFieldName : OfName .emptyFieldName .emptyFieldName
  | duplicateField (name : String) : OfName (.duplicateField name) (.duplicateField name)

namespace Fields

theorem note?_flawAfter {before : List (String × Layout)} {m : String × Layout} {f : Flaw}
    (h : flawAfter before m = some f) {event : Event} :
    f.note? = some event ↔ f.OfName event := by
  rw [flawAfter, fieldFlaw?] at h
  split at h
  · obtain rfl := Option.some.inj h
    constructor
    · intro he
      exact Option.some.inj he ▸ .emptyFieldName
    · intro he
      cases he
      rfl
  · split at h
    · obtain rfl := Option.some.inj h
      constructor
      · intro he
        exact Option.some.inj he ▸ .duplicateField _
      · intro he
        cases he
        rfl
    · split at h
      · obtain rfl := Option.some.inj h
        constructor
        · intro he
          cases he
        · intro he
          cases he
      · cases h

/-- **A note is taken of the first flaw**, if that is a flaw of a name. -/
theorem note?_firstFlaw (members : List (String × Layout)) (event : Event) :
    (firstAfter flawAfter [] members).bind Flaw.note? = some event ↔
      ∃ i f, flawAt members i = some f ∧ (∀ j < i, flawAt members j = none) ∧ f.OfName event := by
  rw [Option.bind_eq_some_iff]
  simp only [firstAfter_eq_some_iff]
  constructor
  · rintro ⟨f, ⟨i, hi, hj⟩, he⟩
    obtain ⟨m, -, hm⟩ := Option.bind_eq_some_iff.mp hi
    exact ⟨i, f, hi, hj, (note?_flawAfter hm).mp he⟩
  · rintro ⟨i, f, hi, hj, he⟩
    obtain ⟨m, -, hm⟩ := Option.bind_eq_some_iff.mp hi
    exact ⟨f, ⟨i, hi, hj⟩, (note?_flawAfter hm).mpr he⟩

theorem notes_make (members : List (String × Layout)) :
    (make members).notes = ((firstAfter flawAfter [] members).bind Flaw.note?).toList := by
  rw [make_eq]
  cases firstAfter flawAfter [] members <;> rfl

end Fields

/-! ### Builders -/

namespace Builder

/-- The array of a step would fill the address space. -/
def Step.Overflows : Step → Prop
  | .field .. => False
  | .array _ element count => addressSpace ≤ element.width * count

instance : DecidablePred Step.Overflows
  | .field .. => inferInstanceAs (Decidable False)
  | .array _ element count => inferInstanceAs (Decidable (addressSpace ≤ element.width * count))

/-- The note of a step whose array would fill the address space. -/
def Step.rejection? : Step → Option Event
  | .field .. => none
  | .array _ element count =>
    if addressSpace ≤ element.width * count then some (.arrayRejected count element) else none

theorem Step.flaw?_eq_none_iff {s : Step} : s.flaw? = none ↔ ¬s.Overflows := by
  cases s with
  | field name type => simp [flaw?, Overflows]
  | array name element count => rw [flaw?, Layout.arrayFlaw?_eq_none, Overflows, Nat.not_le]

theorem Step.note?_flaw? (s : Step) : s.flaw?.bind Flaw.note? = s.rejection? := by
  cases s with
  | field name type => rfl
  | array name element count =>
    rw [flaw?, Layout.arrayFlaw?, rejection?]
    by_cases h : element.width * count < addressSpace
    · rw [if_pos h, if_neg (Nat.not_le.mpr h)]
      rfl
    · rw [if_neg h, if_pos (Nat.not_lt.mp h)]
      rfl

theorem notes_eq (steps : List Step) : notes steps = steps.filterMap Step.rejection? := by
  simp only [notes, Step.note?_flaw?]
  exact (List.filterMap_eq_flatMap_toList _ _).symm

/-- **The first array that fills the address space** is one of `count` elements. -/
def FirstOverflow (steps : List Step) (element : Layout) (count : Nat) : Prop :=
  ∃ (before rest : List Step) (name : String),
    steps = before ++ .array name element count :: rest ∧ (∀ s ∈ before, ¬s.Overflows) ∧
      addressSpace ≤ element.width * count

theorem overflowing_or_not (steps : List Step) :
    (∀ s ∈ steps, ¬s.Overflows) ∨ ∃ element count, FirstOverflow steps element count := by
  induction steps with
  | nil => exact .inl nofun
  | cons s steps ih =>
    by_cases ho : s.Overflows
    · cases s with
      | field name type => exact ho.elim
      | array name element count =>
        exact .inr ⟨element, count, [], steps, name, rfl, nofun, ho⟩
    · rcases ih with h | ⟨element, count, before, rest, name, rfl, hb, h⟩
      · exact .inl (List.forall_mem_cons.mpr ⟨ho, h⟩)
      · exact .inr ⟨element, count, s :: before, rest, name, rfl,
          List.forall_mem_cons.mpr ⟨ho, hb⟩, h⟩

/-- **What the steps of a builder come to.** -/
structure Agrees (steps : List Step) : Prop where
  /-- The first array that fills the address space is the error, whatever is before and after. -/
  overflow : ∀ (element : Layout) (count : Nat), FirstOverflow steps element count →
    ∃ e, (element.arrayOf count).result = .error e ∧ (run steps).result = .error e
  /-- An array that does not fill the address space stands as a field. -/
  array : ∀ (name : String) (element : Layout) (count : Nat),
    .array name element count ∈ steps → ¬Step.Overflows (.array name element count) →
    (element.arrayOf count).result = .ok (Step.member (.array name element count)).2
  /-- Where no array fills it, the builder is the struct of the fields that the steps declare. -/
  make : (∀ s ∈ steps, ¬s.Overflows) → run steps = Fields.make (steps.map Step.member)
  /-- One or the other is the case. -/
  exhaustive : (∀ s ∈ steps, ¬s.Overflows) ∨ ∃ element count, FirstOverflow steps element count
  /-- Every array that fills it is noted, and the fields only if there is none. -/
  notes : (run steps).notes = steps.filterMap Step.rejection? ++
    if ∃ s ∈ steps, s.Overflows then [] else (Fields.make (steps.map Step.member)).notes

theorem FirstOverflow.findSome? {steps : List Step} {element : Layout} {count : Nat}
    (h : FirstOverflow steps element count) :
    steps.findSome? Step.flaw? = some (.arrayOverflow count element) := by
  obtain ⟨before, rest, name, rfl, hb, ho⟩ := h
  have hnone : before.findSome? Step.flaw? = none :=
    List.findSome?_eq_none_iff.mpr fun s hs => Step.flaw?_eq_none_iff.mpr (hb s hs)
  have hstep : Step.flaw? (.array name element count) = some (.arrayOverflow count element) := by
    rw [Step.flaw?, Layout.arrayFlaw?, if_neg (Nat.not_lt.mpr ho)]
  rw [List.findSome?_append, hnone, Option.none_or, List.findSome?_cons, hstep]

theorem FirstOverflow.arrayOf {steps : List Step} {element : Layout} {count : Nat}
    (h : FirstOverflow steps element count) :
    (element.arrayOf count).result = .error (.unsupportedComposition (.arrayOverflow count element))
    := by
  obtain ⟨-, -, -, -, -, ho⟩ := h
  rw [Layout.arrayOf_eq, BuildM.result_checked, Layout.arrayFlaw?, if_neg (Nat.not_lt.mpr ho)]

theorem agrees (steps : List Step) : Agrees steps where
  overflow := by
    intro element count h
    refine ⟨_, h.arrayOf, ?_⟩
    rw [BuildM.result, run_apply, h.findSome?]
  array := by
    intro name element count _ h
    rw [Layout.arrayOf_eq, BuildM.result_checked,
      Layout.arrayFlaw?_eq_none.mpr (Nat.not_le.mp h)]
    rfl
  make := by
    intro h
    have hno : steps.findSome? Step.flaw? = none :=
      List.findSome?_eq_none_iff.mpr fun s hs => Step.flaw?_eq_none_iff.mpr (h s hs)
    funext es
    rw [run_apply, hno]
  exhaustive := overflowing_or_not steps
  notes := by
    rw [BuildM.notes, run_apply, ← notes_eq]
    cases hf : steps.findSome? Step.flaw? with
    | some f =>
      obtain ⟨s, hs, hflaw⟩ := List.exists_of_findSome?_eq_some hf
      have ho : s.Overflows := by
        by_contra hno
        rw [Step.flaw?_eq_none_iff.mpr hno] at hflaw
        cases hflaw
      rw [if_pos ⟨s, hs, ho⟩, List.append_nil]
      rfl
    | none =>
      have hno := List.findSome?_eq_none_iff.mp hf
      have hnone : ¬∃ s ∈ steps, s.Overflows := by
        rintro ⟨s, hs, ho⟩
        exact Step.flaw?_eq_none_iff.mp (hno s hs) ho
      rw [if_neg hnone, notes_flawless hno, List.nil_append]
      rfl

end Builder

/-! ### Registries -/

namespace Registry

variable {r : Registry}

theorem lookup_of_unknown {name : String} (h : (TypeName.ofString? name).bind r.get = none) :
    r.lookup name = .error (.typeNotFound name r.target) := by
  rw [lookup, h]

/-- The types of the fields are known, and are these scalars. -/
def Known (r : Registry) (fields : List (String × String)) (scalars : List Scalar) : Prop :=
  List.Forall₂ (fun f s => r.lookup f.2 = .ok s) fields scalars

/-- **The first type that is not known** is the one of a name. -/
def FirstUnknown (r : Registry) (fields : List (String × String)) (name : String) : Prop :=
  ∃ (before rest : List (String × String)) (field : String),
    fields = before ++ (field, name) :: rest ∧ (∀ f ∈ before, ∃ s, r.lookup f.2 = .ok s) ∧
      (TypeName.ofString? name).bind r.get = none

theorem known_or_firstUnknown (r : Registry) (fields : List (String × String)) :
    (∃ scalars, r.Known fields scalars) ∨ ∃ name, r.FirstUnknown fields name := by
  induction fields with
  | nil => exact .inl ⟨[], .nil⟩
  | cons f fields ih =>
    cases hf : (TypeName.ofString? f.2).bind r.get with
    | none => exact .inr ⟨f.2, [], fields, f.1, rfl, nofun, hf⟩
    | some s =>
      have hs : r.lookup f.2 = .ok s := by rw [lookup, hf]
      rcases ih with ⟨scalars, h⟩ | ⟨name, before, rest, field, rfl, hb, hn⟩
      · exact .inl ⟨s :: scalars, .cons hs h⟩
      · exact .inr ⟨name, f :: before, rest, field, rfl,
          List.forall_mem_cons.mpr ⟨⟨s, hs⟩, hb⟩, hn⟩

theorem FirstUnknown.lookupFields {fields : List (String × String)} {name : String}
    (h : r.FirstUnknown fields name) :
    r.lookupFields fields = .error (.typeNotFound name r.target) := by
  obtain ⟨before, rest, field, rfl, hb, hn⟩ := h
  induction before with
  | nil =>
    rw [List.nil_append, Registry.lookupFields, lookup_of_unknown hn]
    rfl
  | cons f before ih =>
    obtain ⟨⟨s, hs⟩, hbefore⟩ := List.forall_mem_cons.mp hb
    rw [List.cons_append, Registry.lookupFields, hs, ih hbefore]
    rfl

/-- The fields of scalars, under their names. -/
def scalarFields (fields : List (String × String)) (scalars : List Scalar) :
    List (String × Layout) :=
  (fields.map Prod.fst).zip (scalars.map Layout.scalar)

theorem Known.lookupFields {fields : List (String × String)} {scalars : List Scalar}
    (h : r.Known fields scalars) : r.lookupFields fields = .ok (scalarFields fields scalars) := by
  induction h with
  | nil => rfl
  | cons hs _ ih => exact lookupFields_cons_ok.mpr ⟨_, _, hs, ih, rfl⟩

/-- A builder that is told fields alone is the struct of them. -/
theorem run_fields (members : List (String × Layout)) :
    Builder.run (members.map fun m => .field m.1 m.2) = Fields.make members := by
  have hm : (members.map fun m => Builder.Step.field m.1 m.2).map Builder.Step.member =
      members := by
    rw [List.map_map]
    exact List.map_id members
  rw [(Builder.agrees _).make, hm]
  intro s hs
  obtain ⟨m, -, rfl⟩ := List.mem_map.mp hs
  exact id

/-- **What a list of fields of named types comes to.** -/
structure Agrees (r : Registry) (fields : List (String × String)) : Prop where
  /-- The first type that is not known is the error, whatever the fields are called, and nothing is
  noted. -/
  unknown : ∀ name, r.FirstUnknown fields name →
    ∀ notes, r.struct fields notes = .error (.typeNotFound name r.target) notes
  /-- Where all are known, the struct is that of the types, and so is that of a builder. -/
  make : ∀ scalars, r.Known fields scalars →
    r.struct fields = Fields.make (scalarFields fields scalars) ∧
      r.struct fields =
        Builder.run ((scalarFields fields scalars).map fun m => .field m.1 m.2)
  /-- One or the other is the case. -/
  exhaustive : (∃ scalars, r.Known fields scalars) ∨ ∃ name, r.FirstUnknown fields name

theorem agrees (r : Registry) (fields : List (String × String)) : Agrees r fields where
  unknown := by
    intro name h notes
    rw [struct, h.lookupFields]
    rfl
  make := by
    intro scalars h
    have hs : r.struct fields = Fields.make (scalarFields fields scalars) := by
      rw [struct, h.lookupFields]
      rfl
    exact ⟨hs, hs.trans (run_fields _).symm⟩
  exhaustive := r.known_or_firstUnknown fields

end Registry

/-! ### All ways to a struct -/

/-- **All ways of making a struct agree.**  A builder is the struct of the fields that it is told,
unless an array among them cannot stand; a registry is the struct of the types that it is told the
names of, unless it does not know one.  Of the fields themselves at most one note is taken, and that
is of the first that cannot stand, if its name is to blame. -/
theorem struct_ways_agree :
    (∀ steps : List Builder.Step, Builder.Agrees steps) ∧
    (∀ members : List (String × Layout), ∃ note? : Option Event,
      (Fields.make members).notes = note?.toList ∧
      ∀ event, note? = some event ↔ ∃ i f, Fields.flawAt members i = some f ∧
        (∀ j < i, Fields.flawAt members j = none) ∧ f.OfName event) ∧
    ∀ (r : Registry) (fields : List (String × String)), Registry.Agrees r fields :=
  ⟨Builder.agrees, fun members => ⟨_, Fields.notes_make members, Fields.note?_firstFlaw members⟩,
    Registry.agrees⟩

/-- The second array is the error and both are noted, though the field before has no name; and a
type that is not known is the error, though two fields have the same name. -/
theorem struct_ways_agree_faults :
    let octet : Layout := .scalar ⟨.uint8, .bigEndian⟩
    let steps : List Builder.Step :=
      [.field "" octet, .array "table" octet 4,
        .array "pages" (.array octet 65536) (2 ^ (48 : Nat)), .field "table" octet,
        .array "rest" (.array octet 2) (2 ^ (63 : Nat))]
    (∃ e, (Layout.arrayOf (.array octet 65536) (2 ^ (48 : Nat))).result = .error e ∧
        (Builder.run steps).result = .error e) ∧
      (Builder.run steps).notes = [.arrayRejected (2 ^ (48 : Nat)) (.array octet 65536),
        .arrayRejected (2 ^ (63 : Nat)) (.array octet 2)] ∧
      (Builder.run (steps.take 2)).notes = [.emptyFieldName] ∧
      (Registry.derive .arm .bigEndian).struct
          [("a", "byte"), ("a", "word"), ("b", "address")] [] =
        .error (.typeNotFound "address" ⟨.arm, .bigEndian⟩) [] := by
  intro octet steps
  obtain ⟨hbuilder, -, hregistry⟩ := struct_ways_agree
  refine ⟨?_, ?_, ?_, ?_⟩
  · exact (hbuilder steps).overflow _ _
      ⟨steps.take 2, steps.drop 3, "pages", rfl, by decide, by decide⟩
  · exact (hbuilder steps).notes.trans (by decide)
  · rw [(hbuilder (steps.take 2)).make (by decide)]
    rfl
  · have hknown : ∀ f ∈ [("a", "byte"), ("a", "word")],
        ∃ s, (Registry.derive .arm .bigEndian).lookup f.2 = .ok s :=
      List.forall_mem_cons.mpr ⟨⟨_, rfl⟩, List.forall_mem_cons.mpr ⟨⟨_, rfl⟩, nofun⟩⟩
    exact (hregistry _ _).unknown "address" ⟨_, [], "b", rfl, hknown, by decide⟩ []

end ByteLayout
