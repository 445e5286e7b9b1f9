import ByteLayout.Proofs.Layout.Building
import ByteLayout.Registry

/-!
# Layouts that can be made

`Constructible` are the layouts that come out of the constructors, in whatever
order these are used: of scalars, arrays and structs, of builders, and of
registries.  `WellFormed` are those without a flaw at any depth, and that takes
no constructor to say.  By `constructible_iff_wellFormed` they are the same: the
constructors let nothing pass that has a flaw, and turn nothing away that has
none.
-/

namespace ByteLayout

namespace Fields

theorem map_snd_toList : ∀ fs : Fields, fs.toList.map Prod.snd = fs.types
  | .nil => rfl
  | .cons name type rest => by rw [toList, List.map_cons, map_snd_toList rest, types]

/-! ### Fields without a flaw -/

/-- **Fields that can stand together**: they have names, no two the same, and can be addressed. -/
structure Valid (members : List (String × Layout)) : Prop where
  named : "" ∉ members.map Prod.fst
  distinct : (members.map Prod.fst).Nodup
  fits : Layout.totalWidth (members.map Prod.snd) < addressSpace

theorem valid_concat_iff {before : List (String × Layout)} {m : String × Layout} :
    Valid (before ++ [m]) ↔ Valid before ∧ flawAfter before m = none := by
  have hn : (before ++ [m]).map Prod.fst = before.map Prod.fst ++ [m.1] := by simp
  have hw := totalWidth_snd_concat before m
  rw [flawAfter, fieldFlaw?_eq_none]
  constructor
  · rintro ⟨hnamed, hdistinct, hfits⟩
    rw [hn] at hnamed hdistinct
    rw [hw] at hfits
    obtain ⟨hb, -, hd⟩ := List.nodup_append.mp hdistinct
    refine ⟨⟨fun h => hnamed (List.mem_append_left _ h), hb, by omega⟩, ?_, ?_, hfits⟩
    · exact fun h => hnamed (List.mem_append_right _ (List.mem_singleton.mpr h.symm))
    · exact fun h => hd _ h _ (List.mem_singleton_self _) rfl
  · rintro ⟨⟨hnamed, hdistinct, -⟩, he, hm, hfits⟩
    refine ⟨?_, ?_, hw ▸ hfits⟩
    · rw [hn, List.mem_append, List.mem_singleton]
      exact fun h => h.elim hnamed fun h => he h.symm
    · rw [hn, List.nodup_append]
      refine ⟨hdistinct, List.pairwise_singleton _ _, ?_⟩
      rintro a ha b hb rfl
      exact hm (List.mem_singleton.mp hb ▸ ha)

theorem valid_append_iff (rest : List (String × Layout)) :
    ∀ before : List (String × Layout),
      Valid (before ++ rest) ↔ Valid before ∧ firstAfter flawAfter before rest = none := by
  induction rest with
  | nil => intro before; simp [firstAfter]
  | cons m rest ih =>
    intro before
    rw [List.append_cons, ih, valid_concat_iff, firstAfter, Option.or_eq_none_iff, and_assoc]

theorem valid_iff (members : List (String × Layout)) :
    Valid members ↔ firstAfter flawAfter [] members = none := by
  have hnil : Valid [] := ⟨nofun, List.nodup_nil, by decide⟩
  have h := valid_append_iff members []
  rwa [List.nil_append, and_iff_right hnil] at h

/-- **Fields are made exactly if they can stand together.** -/
theorem make_result_ok_iff_valid {members : List (String × Layout)} {fs : Fields} :
    (make members).result = .ok fs ↔ fs = ofList members ∧ Valid members := by
  rw [make_eq, BuildM.result_checked_ok, valid_iff]

end Fields

/-! ### Made, and without a flaw -/

/-- The layout that a step of a builder is given. -/
def Builder.Step.type : Builder.Step → Layout
  | .field _ type => type
  | .array _ element _ => element

/-- **The layouts that come out of the constructors.** -/
inductive Layout.Constructible : Layout → Prop
  | ofKind {k : Kind} {w : Nat} {o : ByteOrder} {s : Scalar} :
      Scalar.ofKind k w o = .ok s → Constructible (.scalar s)
  | primitive (p : Primitive) (o : ByteOrder) : Constructible (.scalar ⟨p, o⟩)
  | withOrder {s : Scalar} (o : ByteOrder) :
      Constructible (.scalar s) → Constructible (.scalar (s.withOrder o))
  | array {element T : Layout} {count : Nat} :
      Constructible element → (element.arrayOf count).result = .ok T → Constructible T
  | struct {members : List (String × Layout)} {fs : Fields} :
      (∀ m ∈ members, Constructible m.2) → (Fields.make members).result = .ok fs →
      Constructible (.struct fs)
  | builder {steps : List Builder.Step} {fs : Fields} :
      (∀ s ∈ steps, Constructible s.type) → (Builder.run steps).result = .ok fs →
      Constructible (.struct fs)
  | namedArray {r : Registry} {name : String} {count : Nat} {T : Layout} :
      (r.array name count).result = .ok T → Constructible T
  | namedStruct {r : Registry} {fields : List (String × String)} {fs : Fields} :
      (r.struct fields).result = .ok fs → Constructible (.struct fs)

/-- **The layouts without a flaw at any depth.** -/
inductive Layout.WellFormed : Layout → Prop
  | scalar (s : Scalar) : WellFormed (.scalar s)
  | array {element : Layout} {count : Nat} :
      WellFormed element → element.width * count < addressSpace →
      WellFormed (.array element count)
  | struct {fs : Fields} :
      (∀ T ∈ fs.types, WellFormed T) → Fields.Valid fs.toList → WellFormed (.struct fs)

theorem BuildM.result_ofExcept_bind {x : Except Error α} {f : α → BuildM β} {b : β} :
    (do let a ← MonadExcept.ofExcept x; f a : BuildM β).result = .ok b ↔
      ∃ a, x = .ok a ∧ (f a).result = .ok b := by
  cases x with
  | error e => exact ⟨nofun, fun ⟨_, h, _⟩ => nomatch h⟩
  | ok a => exact ⟨fun h => ⟨a, rfl, h⟩, fun ⟨_, h, hf⟩ => Except.ok.inj h ▸ hf⟩

namespace Registry

theorem lookupFields_cons_ok {r : Registry} {field name : String} {fields : List (String × String)}
    {members : List (String × Layout)} :
    r.lookupFields ((field, name) :: fields) = .ok members ↔
      ∃ s rest, r.lookup name = .ok s ∧ r.lookupFields fields = .ok rest ∧
        members = (field, .scalar s) :: rest := by
  rw [lookupFields]
  constructor
  · intro h
    cases hs : r.lookup name with
    | error e => rw [hs] at h; cases h
    | ok s =>
      cases hf : r.lookupFields fields with
      | error e => rw [hs, hf] at h; cases h
      | ok rest => rw [hs, hf] at h; exact ⟨s, rest, rfl, rfl, (Except.ok.inj h).symm⟩
  · rintro ⟨s, rest, hs, hf, rfl⟩
    rw [hs, hf]
    rfl

theorem scalar_of_lookupFields (r : Registry) :
    ∀ {fields : List (String × String)} {members : List (String × Layout)},
      r.lookupFields fields = .ok members → ∀ m ∈ members, ∃ s, m.2 = .scalar s := by
  intro fields
  induction fields with
  | nil =>
    intro members h m hm
    obtain rfl := Except.ok.inj h
    cases hm
  | cons f fields ih =>
    intro members h m hm
    obtain ⟨s, rest, -, hf, rfl⟩ := lookupFields_cons_ok.mp h
    rcases List.mem_cons.mp hm with rfl | hm
    · exact ⟨s, rfl⟩
    · exact ih hf m hm

end Registry

namespace Layout

theorem arrayOf_result_ok_of_lt {element : Layout} {count : Nat}
    (h : element.width * count < addressSpace) :
    (element.arrayOf count).result = .ok (.array element count) := by
  rw [arrayOf_eq, BuildM.result_checked_ok]
  exact ⟨rfl, arrayFlaw?_eq_none.mpr h⟩

theorem WellFormed.of_arrayOf {element T : Layout} {count : Nat} (h : element.WellFormed)
    (hT : (element.arrayOf count).result = .ok T) : T.WellFormed := by
  rw [arrayOf_eq, BuildM.result_checked_ok, arrayFlaw?_eq_none] at hT
  obtain ⟨rfl, hw⟩ := hT
  exact .array h hw

theorem WellFormed.of_make {members : List (String × Layout)} {fs : Fields}
    (h : ∀ m ∈ members, m.2.WellFormed) (hfs : (Fields.make members).result = .ok fs) :
    (Layout.struct fs).WellFormed := by
  obtain ⟨rfl, hv⟩ := Fields.make_result_ok_iff_valid.mp hfs
  refine .struct ?_ (by rwa [Fields.toList_ofList])
  rw [← Fields.map_snd_toList, Fields.toList_ofList]
  intro T hT
  obtain ⟨m, hm, rfl⟩ := List.mem_map.mp hT
  exact h m hm

/-- The fields that a builder adds are those it was given, and arrays that can be made of them. -/
theorem WellFormed.of_step {s : Builder.Step} (h : s.type.WellFormed) (hs : s.flaw? = none) :
    s.member.2.WellFormed := by
  cases s with
  | field name type => exact h
  | array name element count => exact .array h (arrayFlaw?_eq_none.mp hs)

theorem Constructible.wellFormed {T : Layout} (h : T.Constructible) : T.WellFormed := by
  induction h with
  | ofKind _ => exact .scalar _
  | primitive p o => exact .scalar _
  | withOrder o _ _ => exact .scalar _
  | array _ hT ih => exact ih.of_arrayOf hT
  | struct _ hfs ih => exact .of_make ih hfs
  | builder _ hfs ih =>
    refine .of_make ?_ (Builder.run_result_ok hfs)
    intro m hm
    obtain ⟨s, hs, rfl⟩ := List.mem_map.mp hm
    obtain ⟨hs, hn⟩ := List.mem_filter.mp hs
    exact (ih s hs).of_step (Option.isNone_iff_eq_none.mp hn)
  | namedArray hT =>
    obtain ⟨s, -, hT⟩ := BuildM.result_ofExcept_bind.mp hT
    exact (WellFormed.scalar s).of_arrayOf hT
  | @namedStruct r fields fs hfs =>
    obtain ⟨members, hm, hfs⟩ := BuildM.result_ofExcept_bind.mp hfs
    refine .of_make ?_ hfs
    intro m hmem
    obtain ⟨s, hs⟩ := r.scalar_of_lookupFields hm m hmem
    exact hs ▸ .scalar s

theorem WellFormed.constructible {T : Layout} (h : T.WellFormed) : T.Constructible := by
  induction h with
  | scalar s => exact .primitive s.primitive s.order
  | array _ hw ih => exact .array ih (arrayOf_result_ok_of_lt hw)
  | @struct fs _ hv ih =>
    have hfs : (Fields.make fs.toList).result = .ok fs :=
      Fields.make_result_ok_iff_valid.mpr ⟨(Fields.ofList_toList fs).symm, hv⟩
    refine .struct ?_ hfs
    intro m hm
    exact ih m.2 (Fields.map_snd_toList fs ▸ List.mem_map_of_mem hm)

/-- **What can be made is what has no flaw.** -/
theorem constructible_iff_wellFormed {T : Layout} : T.Constructible ↔ T.WellFormed :=
  ⟨Constructible.wellFormed, WellFormed.constructible⟩

end Layout

end ByteLayout
