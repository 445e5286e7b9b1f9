import ByteLayout.Proofs.Layout.Measured
import ByteLayout.Proofs.Layout.WellFormed

/-!
# Making layouts with measures

A layout that is made with measures gets the right ones and no others.  Each
constructor, given layouts with the right measures, gives what the constructor of
plain layouts gives, with the right measures put in: the same thing, or the same
error, and the same notes (`arrayOf_measured`, `structOf_measured`,
`run_measured` and those of a registry).  So what can be made is what can be made
plainly, measured (`constructible_iff`), and the widths that packing and
unpacking rely on are those that there are (`Constructible.codec`).

For `structOf` the running sum of the widths that are stored carries this: it is
the offset of the next field, and what is left at the end is the width.
-/

namespace ByteLayout

/-- A field of a type, with the measures of the type. -/
def Layout.measuredMember (m : String × Layout) : String × Measured := (m.1, m.2.measured)

/-! ### Arrays -/

namespace Measured

/-- An array is flawed if its elements, of the width that is stored, fill the address space. -/
def arrayFlaw? (element : Measured) (count : Nat) : Option Flaw :=
  if element.width * count < addressSpace then none
  else some (.arrayOverflow count element.layout)

theorem arrayOf_eq (element : Measured) (count : Nat) :
    element.arrayOf count = BuildM.checked (element.arrayFlaw? count)
      (.array element count (element.width * count)) := by
  rw [arrayOf, arrayFlaw?]
  split <;> rfl

/-- **An array gets the right width**, if its elements have it. -/
theorem arrayOf_measured (T : Layout) (count : Nat) :
    T.measured.arrayOf count = Layout.measured <$> T.arrayOf count := by
  rw [arrayOf_eq, Layout.arrayOf_eq, BuildM.map_checked, arrayFlaw?, Layout.arrayFlaw?,
    Layout.layout_measured, Layout.width_measured, Layout.measured]

/-! ### Structs -/

/-- The number of bytes that is stored for layouts together. -/
def totalWidth : List Measured → Nat
  | [] => 0
  | t :: ts => t.width + totalWidth ts

theorem totalWidth_append (ts us : List Measured) :
    totalWidth (ts ++ us) = totalWidth ts + totalWidth us := by
  induction ts with
  | nil => exact (Nat.zero_add _).symm
  | cons t ts ih => rw [List.cons_append, totalWidth, ih, totalWidth, Nat.add_assoc]

theorem totalWidth_measured (Ts : List Layout) :
    totalWidth (Ts.map Layout.measured) = Layout.totalWidth Ts := by
  induction Ts with
  | nil => rfl
  | cons T Ts ih => rw [List.map_cons, totalWidth, ih, Layout.width_measured, Layout.totalWidth]

end Measured

namespace MeasuredFields

/-- **Fields one after the other**: each starts where the widths stored for those before it end. -/
def place (start : Nat) : List (String × Measured) → MeasuredFields
  | [] => .nil
  | (name, type) :: rest => .cons name type start (place (start + type.width) rest)

/-- **The flaw of a field that follows others**, by the widths that are stored. -/
def flawAfter (before : List (String × Measured)) (member : String × Measured) : Option Flaw :=
  fieldFlaw? (before.map Prod.fst) (Measured.totalWidth (before.map Prod.snd)) member.1
    member.2.width

/-- The flaw of the field at a place, if there is a field and it has one. -/
def flawAt (members : List (String × Measured)) (i : Nat) : Option Flaw :=
  members[i]?.bind (flawAfter (members.take i))

/-- The running sum of widths is the place of the next field, and at the end the width. -/
theorem makeFrom_eq (rest : List (String × Measured)) :
    ∀ (before : List (String × Measured)) (seen : List String),
      (∀ name, name ∈ seen ↔ name ∈ before.map Prod.fst) →
      makeFrom seen (Measured.totalWidth (before.map Prod.snd)) rest =
        BuildM.checked (firstAfter flawAfter before rest)
          (place (Measured.totalWidth (before.map Prod.snd)) rest,
            Measured.totalWidth ((before ++ rest).map Prod.snd)) := by
  induction rest with
  | nil =>
    intro before seen _
    rw [List.append_nil]
    rfl
  | cons m rest ih =>
    intro before seen hs
    have hstart : Measured.totalWidth ((before ++ [m]).map Prod.snd) =
        Measured.totalWidth (before.map Prod.snd) + m.2.width := by
      rw [List.map_append, Measured.totalWidth_append]
      rfl
    have hrest := ih (before ++ [m]) (m.1 :: seen) (mem_seen_iff hs m)
    rw [hstart, ← List.append_cons] at hrest
    rw [makeFrom, checkField_eq hs, hrest, firstAfter]
    exact BuildM.checked_bind_map_checked _ _ _ fun p : MeasuredFields × Nat =>
      (cons m.1 m.2 (Measured.totalWidth (before.map Prod.snd)) p.1, p.2)

theorem place_measured (members : List (String × Layout)) :
    ∀ start : Nat, place start (members.map Layout.measuredMember) =
      (Fields.ofList members).measuredFrom start := by
  induction members with
  | nil => intro start; rfl
  | cons m members ih =>
    intro start
    rw [List.map_cons, Layout.measuredMember, place, ih, Layout.width_measured, Fields.ofList,
      Fields.measuredFrom]

theorem flawAfter_measured (before : List (String × Layout)) (m : String × Layout) :
    flawAfter (before.map Layout.measuredMember) (Layout.measuredMember m) =
      Fields.flawAfter before m := by
  have hwidth : (before.map Layout.measuredMember).map Prod.snd =
      (before.map Prod.snd).map Layout.measured := by
    rw [List.map_map, List.map_map]
    rfl
  have hnames : (before.map Layout.measuredMember).map Prod.fst = before.map Prod.fst := by
    rw [List.map_map]
    rfl
  rw [flawAfter, Fields.flawAfter, hwidth, hnames, Measured.totalWidth_measured,
    Layout.measuredMember, Layout.width_measured]

end MeasuredFields

namespace Measured

theorem structOf_eq (members : List (String × Measured)) :
    structOf members = BuildM.checked (firstAfter MeasuredFields.flawAfter [] members)
      (.struct (MeasuredFields.place 0 members) (totalWidth (members.map Prod.snd))) := by
  have h := MeasuredFields.makeFrom_eq members [] [] fun _ => Iff.rfl
  rw [List.map_nil, totalWidth, List.nil_append] at h
  rw [structOf, h]
  exact BuildM.map_checked (fun p : MeasuredFields × Nat => Measured.struct p.1 p.2) _ _

/-- **A struct gets the right width and its fields the right offsets**, if the types of the fields
have the right measures. -/
theorem structOf_measured (members : List (String × Layout)) :
    structOf (members.map Layout.measuredMember) =
      (fun fs => (Layout.struct fs).measured) <$> Fields.make members := by
  have hflaw := firstAfter_map MeasuredFields.flawAfter_measured members []
  have hwidth : (members.map Layout.measuredMember).map Prod.snd =
      (Fields.ofList members).types.map Layout.measured := by
    rw [← Fields.map_snd_toList, Fields.toList_ofList, List.map_map, List.map_map]
    rfl
  rw [List.map_nil] at hflaw
  rw [structOf_eq, hflaw, MeasuredFields.place_measured, hwidth, totalWidth_measured,
    Layout.totalWidth_types, Fields.make_eq, BuildM.map_checked, Layout.measured]

/-- **A struct is made if no field has a flaw**, with offsets and width the running sums of the
widths that are stored. -/
theorem structOf_result_ok {members : List (String × Measured)} {t : Measured} :
    (structOf members).result = .ok t ↔
      t = .struct (MeasuredFields.place 0 members) (totalWidth (members.map Prod.snd)) ∧
        ∀ i, MeasuredFields.flawAt members i = none := by
  rw [structOf_eq, BuildM.result_firstAfter_ok]
  rfl

/-- **A struct is refused for the first field that has a flaw.** -/
theorem structOf_result_error {members : List (String × Measured)} {e : Error} :
    (structOf members).result = .error e ↔
      ∃ i f, MeasuredFields.flawAt members i = some f ∧
        (∀ j < i, MeasuredFields.flawAt members j = none) ∧ e = .unsupportedComposition f := by
  rw [structOf_eq, BuildM.result_firstAfter_error]
  rfl

end Measured

/-! ### Builders -/

def Builder.measured (b : Builder) : MeasuredBuilder :=
  ⟨b.members.map Layout.measuredMember, b.error?⟩

def Builder.Step.measured : Builder.Step → MeasuredBuilder.Step
  | .field name type => .field name type.measured
  | .array name element count => .array name element.measured count

namespace MeasuredBuilder

theorem field_measured (b : Builder) (name : String) (T : Layout) :
    b.measured.field name T.measured = (b.field name T).measured := by
  rw [field, Builder.measured, Builder.measured, Builder.field, List.map_append]
  rfl

theorem step_measured (b : Builder) (s : Builder.Step) :
    step b.measured s.measured = Builder.measured <$> b.step s := by
  cases s with
  | field name type =>
    rw [Builder.Step.measured, step, Builder.step, field_measured, map_pure]
  | array name element count =>
    funext notes
    rw [Builder.Step.measured, step, Builder.step, array, Builder.array,
      Measured.arrayOf_measured, Layout.arrayOf_eq, BuildM.map_checked]
    cases element.arrayFlaw? count with
    | none => exact congrArg (EStateM.Result.ok · notes) (field_measured b name _)
    | some f => rfl

theorem foldlM_measured (steps : List Builder.Step) : ∀ b : Builder,
    (steps.map Builder.Step.measured).foldlM step b.measured =
      Builder.measured <$> steps.foldlM Builder.step b := by
  induction steps with
  | nil => intro b; rfl
  | cons s steps ih =>
    intro b
    rw [List.map_cons, List.foldlM_cons, List.foldlM_cons, step_measured, bind_map_left, map_bind]
    exact bind_congr ih

theorem build_measured (b : Builder) :
    b.measured.build = (fun fs => (Layout.struct fs).measured) <$> b.build := by
  rw [build, Builder.build, Builder.measured]
  cases b.error? with
  | none => exact Measured.structOf_measured b.members
  | some e => rfl

/-- **A builder goes through the same steps**, with measures or without. -/
theorem run_measured (steps : List Builder.Step) :
    run (steps.map Builder.Step.measured) =
      (fun fs => (Layout.struct fs).measured) <$> Builder.run steps := by
  have h := foldlM_measured steps Builder.empty
  rw [run, Builder.run, map_bind]
  show (steps.map Builder.Step.measured).foldlM step Builder.empty.measured >>= build = _
  rw [h, bind_map_left]
  exact bind_congr build_measured

end MeasuredBuilder

/-! ### Registries -/

namespace Registry

theorem measuredArray_eq (r : Registry) (name : String) (count : Nat) :
    r.measuredArray name count = Layout.measured <$> r.array name count := by
  rw [measuredArray, array]
  cases r.lookup name with
  | error e => rfl
  | ok s => exact Measured.arrayOf_measured (.scalar s) count

theorem lookupMeasured_eq (r : Registry) : ∀ fields : List (String × String),
    r.lookupMeasured fields = (List.map Layout.measuredMember) <$> r.lookupFields fields := by
  intro fields
  induction fields with
  | nil => rfl
  | cons field fields ih =>
    rw [lookupMeasured, lookupFields, ih]
    cases r.lookup field.2 with
    | error e => rfl
    | ok s => cases r.lookupFields fields <;> rfl

theorem measuredStruct_eq (r : Registry) (fields : List (String × String)) :
    r.measuredStruct fields =
      (fun fs => (Layout.struct fs).measured) <$> r.struct fields := by
  rw [measuredStruct, lookupMeasured_eq, struct]
  cases r.lookupFields fields with
  | error e => rfl
  | ok members => exact Measured.structOf_measured members

end Registry

/-! ### What can be made -/

/-- The type that a step of a builder is given. -/
def MeasuredBuilder.Step.type : MeasuredBuilder.Step → Measured
  | .field _ type => type
  | .array _ element _ => element

/-- **The layouts with measures that come out of the constructors.** -/
inductive Measured.Constructible : Measured → Prop
  | ofKind {k : Kind} {w : Nat} {o : ByteOrder} {s : MeasuredScalar} :
      MeasuredScalar.ofKind k w o = .ok s → Constructible (.scalar s)
  | primitive (p : Primitive) (o : ByteOrder) : Constructible (.scalar (.ofPrimitive p o))
  | withOrder {s : MeasuredScalar} (o : ByteOrder) :
      Constructible (.scalar s) → Constructible (.scalar (s.withOrder o))
  | array {element t : Measured} {count : Nat} :
      Constructible element → (element.arrayOf count).result = .ok t → Constructible t
  | struct {members : List (String × Measured)} {t : Measured} :
      (∀ m ∈ members, Constructible m.2) → (Measured.structOf members).result = .ok t →
      Constructible t
  | builder {steps : List MeasuredBuilder.Step} {t : Measured} :
      (∀ s ∈ steps, Constructible s.type) → (MeasuredBuilder.run steps).result = .ok t →
      Constructible t
  | namedArray {r : Registry} {name : String} {count : Nat} {t : Measured} :
      (r.measuredArray name count).result = .ok t → Constructible t
  | namedStruct {r : Registry} {fields : List (String × String)} {t : Measured} :
      (r.measuredStruct fields).result = .ok t → Constructible t

theorem BuildM.result_map (f : α → β) (act : BuildM α) :
    (f <$> act).result = f <$> act.result := by
  simp only [result, Functor.map, EStateM.map]
  cases act [] <;> rfl

theorem BuildM.result_map_ok {f : α → β} {act : BuildM α} {b : β} :
    (f <$> act).result = .ok b ↔ ∃ a, act.result = .ok a ∧ f a = b := by
  rw [result_map]
  constructor
  · intro h
    cases hact : act.result with
    | error e =>
      rw [hact] at h
      cases h
    | ok a =>
      rw [hact] at h
      exact ⟨a, rfl, Except.ok.inj h⟩
  · rintro ⟨a, hact, rfl⟩
    rw [hact]
    rfl

/-- A list of images is the image of a list. -/
theorem exists_map_eq {f : α → β} {p : α → Prop} {bs : List β}
    (h : ∀ b ∈ bs, ∃ a, p a ∧ f a = b) : ∃ as : List α, (∀ a ∈ as, p a) ∧ as.map f = bs := by
  induction bs with
  | nil => exact ⟨[], nofun, rfl⟩
  | cons b bs ih =>
    obtain ⟨hb, hbs⟩ := List.forall_mem_cons.mp h
    obtain ⟨a, ha, rfl⟩ := hb
    obtain ⟨as, has, rfl⟩ := ih hbs
    exact ⟨a :: as, List.forall_mem_cons.mpr ⟨ha, has⟩, rfl⟩

namespace Measured

/-- **What is made has the right measures**, and is made of what can be made plainly. -/
theorem Constructible.exists_measured {t : Measured} (h : t.Constructible) :
    ∃ T : Layout, T.Constructible ∧ T.measured = t := by
  induction h with
  | @ofKind k w o _ h =>
    rw [MeasuredScalar.ofKind_eq] at h
    cases hs : Scalar.ofKind k w o with
    | error e =>
      rw [hs] at h
      cases h
    | ok s =>
      rw [hs] at h
      exact ⟨_, .ofKind hs, congrArg scalar (Except.ok.inj h)⟩
  | primitive p o => exact ⟨_, .primitive p o, rfl⟩
  | withOrder o _ ih =>
    obtain ⟨T, hT, hs⟩ := ih
    cases T with
    | array _ _ => cases hs
    | struct _ => cases hs
    | scalar s =>
      obtain rfl := scalar.inj hs
      exact ⟨_, .withOrder o hT, rfl⟩
  | array _ ht ih =>
    obtain ⟨element, he, rfl⟩ := ih
    rw [arrayOf_measured, BuildM.result_map_ok] at ht
    obtain ⟨T, hT, rfl⟩ := ht
    exact ⟨T, .array he hT, rfl⟩
  | @struct members _ _ ht ih =>
    have hms : ∀ m ∈ members, ∃ m', m'.2.Constructible ∧ Layout.measuredMember m' = m := by
      rintro ⟨name, t⟩ hm
      obtain ⟨T, hT, rfl⟩ := ih _ hm
      exact ⟨(name, T), hT, rfl⟩
    obtain ⟨plain, hplain, rfl⟩ := exists_map_eq hms
    rw [structOf_measured, BuildM.result_map_ok] at ht
    obtain ⟨fs, hfs, rfl⟩ := ht
    exact ⟨_, .struct hplain hfs, rfl⟩
  | @builder steps _ _ ht ih =>
    have hss : ∀ s ∈ steps, ∃ s' : Builder.Step, s'.type.Constructible ∧ s'.measured = s := by
      intro s hs
      obtain ⟨T, hT, hTs⟩ := ih s hs
      cases s with
      | field name type =>
        obtain rfl := hTs
        exact ⟨.field name T, hT, rfl⟩
      | array name element count =>
        obtain rfl := hTs
        exact ⟨.array name T count, hT, rfl⟩
    obtain ⟨plain, hplain, rfl⟩ := exists_map_eq hss
    rw [MeasuredBuilder.run_measured, BuildM.result_map_ok] at ht
    obtain ⟨fs, hfs, rfl⟩ := ht
    exact ⟨_, .builder hplain hfs, rfl⟩
  | namedArray ht =>
    rw [Registry.measuredArray_eq, BuildM.result_map_ok] at ht
    obtain ⟨T, hT, rfl⟩ := ht
    exact ⟨T, .namedArray hT, rfl⟩
  | namedStruct ht =>
    rw [Registry.measuredStruct_eq, BuildM.result_map_ok] at ht
    obtain ⟨fs, hfs, rfl⟩ := ht
    exact ⟨_, .namedStruct hfs, rfl⟩

theorem constructible_of_wellFormed {T : Layout} (h : T.WellFormed) :
    T.measured.Constructible := by
  induction h with
  | scalar s => exact .primitive s.primitive s.order
  | @array element count _ hw ih =>
    have ht : (element.measured.arrayOf count).result =
        .ok (Layout.array element count).measured := by
      rw [arrayOf_measured, BuildM.result_map_ok]
      exact ⟨_, Layout.arrayOf_result_ok_of_lt hw, rfl⟩
    exact .array ih ht
  | @struct fs _ hv ih =>
    have ht : (structOf (fs.toList.map Layout.measuredMember)).result =
        .ok (Layout.struct fs).measured := by
      rw [structOf_measured, BuildM.result_map_ok]
      exact ⟨fs, Fields.make_result_ok_iff_valid.mpr ⟨(Fields.ofList_toList fs).symm, hv⟩, rfl⟩
    refine .struct ?_ ht
    intro m hm
    obtain ⟨f, hf, rfl⟩ := List.mem_map.mp hm
    exact ih f.2 (Fields.map_snd_toList fs ▸ List.mem_map_of_mem hf)

/-- **What can be made with measures is what can be made plainly, with the right ones.** -/
theorem constructible_iff {t : Measured} :
    t.Constructible ↔ ∃ T : Layout, T.Constructible ∧ T.measured = t := by
  constructor
  · exact Constructible.exists_measured
  · rintro ⟨T, hT, rfl⟩
    exact constructible_of_wellFormed hT.wellFormed

/-- **Layouts that were made are the same if they are without their measures.** -/
theorem Constructible.eq_of_layout {t u : Measured} (ht : t.Constructible) (hu : u.Constructible)
    (h : t.layout = u.layout) : t = u := by
  obtain ⟨T, -, rfl⟩ := ht.exists_measured
  obtain ⟨U, -, rfl⟩ := hu.exists_measured
  rw [Layout.layout_measured, Layout.layout_measured] at h
  rw [h]

/-- **The measures that are stored can be trusted**: packing and unpacking by them is what it is
where widths are worked out. -/
theorem Constructible.codec {t : Measured} (ht : t.Constructible) :
    t.width = t.layout.width ∧ t.packInto = t.layout.packInto ∧ t.unpackAt = t.layout.unpackAt ∧
      t.pack = t.layout.pack ∧ t.unpack = t.layout.unpack := by
  obtain ⟨T, -, rfl⟩ := ht.exists_measured
  rw [Layout.layout_measured]
  exact ⟨T.width_measured, T.packInto_measured, T.unpackAt_measured, T.pack_measured,
    T.unpack_measured⟩

end Measured

end ByteLayout
