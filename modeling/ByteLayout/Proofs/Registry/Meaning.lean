import ByteLayout.Proofs.Layout.Soundness

/-!
# What names mean

Of the registry of an architecture only two things matter to a name: the size of
a machine word, and the order.  `TypeName.primitive` is the primitive that a name
stands for where words have a size, and `get_derive` says that the table of the
registry has it, in the order, for every name.  So the registries all know the
same names, and a string that is not the spelling of one is unknown to each of
them (`lookup_derive`).

Whether fields make a struct is then no matter of the registry.  `refusal?` looks
at the names of types and fields alone, and finds the reason why there is none
(`struct_of_refusal`).  As long as the fields are so few that the widest types
could be addressed, there is no other (`struct_of_texts`).
-/

namespace ByteLayout

/-! ### Tables -/

namespace TypeTable

/-- A table that takes in what `f` gives to some names has that for these names. -/
theorem get_derive_filterMap (f : TypeName → Option Scalar) (n : TypeName) (names : List TypeName) :
    ∀ t : TypeTable, (t.derive (names.filterMap fun m => (f m).map (m, ·))).get n =
      if n ∈ names then (f n).or (t.get n) else t.get n := by
  induction names with
  | nil => intro t; rfl
  | cons m names ih =>
    intro t
    cases hf : f m with
    | none =>
      rw [List.filterMap_cons_none (by rw [hf]; rfl), ih]
      by_cases hn : n = m
      · subst hn
        rw [hf, Option.none_or, if_pos List.mem_cons_self, ite_self]
      · simp only [List.mem_cons, hn, false_or]
    | some s =>
      rw [List.filterMap_cons_some (by rw [hf]; rfl)]
      show ((t.insert m s).derive _).get n = _
      rw [ih, get_insert]
      by_cases hn : n = m
      · subst hn
        rw [hf, if_pos rfl, if_pos List.mem_cons_self, Option.some_or, Option.some_or, ite_self]
      · simp only [List.mem_cons, hn, false_or, if_neg (Ne.symm hn)]

theorem get_base (o : ByteOrder) (n : TypeName) :
    (base o).get n = (fixed? n).map fun p => ⟨p, o⟩ := by
  have h := get_derive_filterMap (fun m => (fixed? m).map fun p => ⟨p, o⟩) n TypeName.all empty
  rw [if_pos (TypeName.mem_all n), get_empty, Option.or_none] at h
  simp only [Option.map_map] at h
  exact h

end TypeTable

/-- The primitive that is a machine word with a sign. -/
def WordSize.signed : WordSize → Primitive
  | bits32 => .int32
  | bits64 => .int64

/-- The primitive that is a machine word without a sign. -/
def WordSize.unsigned : WordSize → Primitive
  | bits32 => .uint32
  | bits64 => .uint64

namespace TypeName

/-- **The primitive that a name stands for** where machine words have a size. -/
def primitive (w : WordSize) (n : TypeName) : Primitive :=
  match TypeTable.fixed? n with
  | some p => p
  | none => if n = .long then w.signed else w.unsigned

/-- The layout of a name, in an order. -/
def layout (w : WordSize) (o : ByteOrder) (n : TypeName) : Layout := .scalar ⟨n.primitive w, o⟩

end TypeName

namespace Registry

/-- **Every name has a type** in the registry of an architecture, and it is in its order. -/
theorem get_derive (a : Architecture) (o : ByteOrder) (n : TypeName) :
    (derive a o).get n = some ⟨n.primitive a.wordSize, o⟩ := by
  show ((TypeTable.base o).derive (WordTypes.of a.wordSize o).entries).get n = _
  simp only [TypeTable.derive, WordTypes.entries, List.foldl_cons, List.foldl_nil,
    TypeTable.get_insert, TypeTable.get_base]
  cases a.wordSize <;> cases n <;> rfl

/-- **The spellings of names have types**, and nothing else has one. -/
theorem lookup_derive (a : Architecture) (o : ByteOrder) (name : String) :
    (derive a o).lookup name = match TypeName.ofString? name with
      | some n => .ok ⟨n.primitive a.wordSize, o⟩
      | none => .error (.typeNotFound name ⟨a, o⟩) := by
  rw [lookup]
  cases TypeName.ofString? name with
  | none => rfl
  | some n => rw [Option.bind_some, get_derive]

end Registry

/-! ### Names that are known -/

/-- No two names are spelled the same. -/
theorem TypeName.text_injective (m n : TypeName) (h : m.text = n.text) : m = n := by
  have hm := ofString?_text m
  rw [h, ofString?_text n] at hm
  exact (Option.some.inj hm).symm

/-- The first of some strings that is not the spelling of a name. -/
def TypeName.unknown? (names : List String) : Option String :=
  names.find? fun name => (ofString? name).isNone

/-- **Where no string is unknown, all are spellings.** -/
theorem TypeName.unknown?_eq_none_iff {names : List String} :
    unknown? names = none ↔ ∃ ns : List TypeName, names = ns.map text := by
  constructor
  · intro h
    rw [unknown?, List.find?_eq_none] at h
    induction names with
    | nil => exact ⟨[], rfl⟩
    | cons name names ih =>
      obtain ⟨hname, hnames⟩ := List.forall_mem_cons.mp h
      obtain ⟨ns, rfl⟩ := ih hnames
      cases hn : ofString? name with
      | none => exact absurd (by rw [hn]; rfl) hname
      | some n => exact ⟨n :: ns, congrArg (· :: _) (ofString?_eq_some_iff.mp hn).symm⟩
  · rintro ⟨ns, rfl⟩
    rw [unknown?, List.find?_eq_none]
    intro name hname
    obtain ⟨n, -, rfl⟩ := List.mem_map.mp hname
    rw [ofString?_text]
    exact Bool.false_ne_true

/-- What comes of an action that depends on a result. -/
theorem BuildM.result_ofExcept_bind_eq (x : Except Error α) (f : α → BuildM β) :
    (do let a ← MonadExcept.ofExcept x; f a : BuildM β).result = match x with
      | .ok a => (f a).result
      | .error e => .error e := by
  cases x <;> rfl

namespace Registry

variable {a : Architecture} {o : ByteOrder}

/-- The first string that is unknown stops the looking up. -/
theorem lookupFields_of_unknown {name : String} :
    ∀ {fields : List (String × String)}, TypeName.unknown? (fields.map Prod.snd) = some name →
      (derive a o).lookupFields fields = .error (.typeNotFound name ⟨a, o⟩) := by
  intro fields
  induction fields with
  | nil => intro h; cases h
  | cons field fields ih =>
    intro h
    rw [TypeName.unknown?, List.map_cons, List.find?_cons] at h
    rw [lookupFields, lookup_derive]
    cases hn : TypeName.ofString? field.2 with
    | none =>
      rw [hn] at h
      rw [← Option.some.inj h]
      rfl
    | some n =>
      rw [hn] at h
      rw [ih h]
      rfl

theorem lookupFields_texts : ∀ {fields : List (String × String)} {ns : List TypeName},
    fields.map Prod.snd = ns.map TypeName.text →
    (derive a o).lookupFields fields =
      .ok ((fields.map Prod.fst).zip (ns.map (TypeName.layout a.wordSize o))) := by
  intro fields
  induction fields with
  | nil => intro ns _; rfl
  | cons field fields ih =>
    intro ns h
    cases ns with
    | nil => cases h
    | cons n ns =>
      obtain ⟨hn, hns⟩ := List.cons.inj h
      have hs : (derive a o).lookup field.2 = .ok ⟨n.primitive a.wordSize, o⟩ := by
        rw [lookup_derive, hn, TypeName.ofString?_text]
      exact lookupFields_cons_ok.mpr ⟨_, _, hs, ih hns, rfl⟩

end Registry

/-! ### Fields without a struct -/

namespace Fields

/-- The flaw of a name that follows others. -/
def nameFlaw? (before : List String) (name : String) : Option Flaw :=
  if name = "" then some .emptyFieldName
  else if name ∈ before then some (.duplicateField name)
  else none

/-- **Fields that can be addressed together** have no flaw but in their names. -/
theorem firstAfter_nameFlaw (rest : List (String × Layout)) :
    ∀ before : List (String × Layout),
      Layout.totalWidth (before.map Prod.snd) + Layout.totalWidth (rest.map Prod.snd) <
        addressSpace →
      firstAfter flawAfter before rest =
        firstAfter nameFlaw? (before.map Prod.fst) (rest.map Prod.fst) := by
  induction rest with
  | nil => intro before _; rfl
  | cons m rest ih =>
    intro before h
    rw [List.map_cons, Layout.totalWidth, ← Nat.add_assoc] at h
    have hm : flawAfter before m = nameFlaw? (before.map Prod.fst) m.1 := by
      rw [flawAfter, fieldFlaw?, nameFlaw?, if_neg (by omega : ¬addressSpace ≤ _)]
    have hrest := ih (before ++ [m]) (by rw [totalWidth_snd_concat]; exact h)
    rw [firstAfter, hm, hrest, List.map_append]
    rfl

end Fields

namespace Registry

theorem length_texts {fields : List (String × String)} {ns : List TypeName}
    (h : fields.map Prod.snd = ns.map TypeName.text) : fields.length = ns.length := by
  have hl := congrArg List.length h
  rwa [List.length_map, List.length_map] at hl

theorem zip_texts {fields : List (String × String)} {ns : List TypeName}
    (h : fields.map Prod.snd = ns.map TypeName.text) (f : TypeName → Layout) :
    ((fields.map Prod.fst).zip (ns.map f)).map Prod.fst = fields.map Prod.fst ∧
      ((fields.map Prod.fst).zip (ns.map f)).map Prod.snd = ns.map f := by
  have hl := length_texts h
  exact ⟨List.map_fst_zip (by simp [hl]), List.map_snd_zip (by simp [hl])⟩

/-- No type is wider than eight bytes. -/
theorem totalWidth_layout_le (w : WordSize) (o : ByteOrder) (ns : List TypeName) :
    Layout.totalWidth (ns.map (TypeName.layout w o)) ≤ 8 * ns.length := by
  induction ns with
  | nil => exact Nat.le_refl 0
  | cons n ns ih =>
    have hn : (TypeName.layout w o n).width ≤ 8 := (n.primitive w).width_le
    rw [List.map_cons, Layout.totalWidth, List.length_cons]
    omega

/-- Fields of named types have no flaw but in their own names, if they are not too many. -/
theorem firstFlaw_texts {fields : List (String × String)} {ns : List TypeName}
    (h : fields.map Prod.snd = ns.map TypeName.text) (hshort : 8 * fields.length < addressSpace)
    {w : WordSize} {o : ByteOrder} :
    firstAfter Fields.flawAfter [] ((fields.map Prod.fst).zip (ns.map (TypeName.layout w o))) =
      firstAfter Fields.nameFlaw? [] (fields.map Prod.fst) := by
  obtain ⟨hfst, hsnd⟩ := zip_texts h (TypeName.layout w o)
  have hl := length_texts h
  have hle := totalWidth_layout_le w o ns
  rw [Fields.firstAfter_nameFlaw _ [], hfst]
  · rfl
  · rw [hsnd]
    show 0 + _ < _
    omega

/-- **Why fields make no struct**, whatever the architecture: a type has a name that is not known,
or the names of the fields have a flaw. -/
inductive Refusal
  | unknownType (name : String)
  | flawed (flaw : Flaw)
  deriving DecidableEq, Repr

/-- The error that a refusal is on a target. -/
def Refusal.error (t : Target) : Refusal → Error
  | unknownType name => .typeNotFound name t
  | flawed flaw => .unsupportedComposition flaw

/-- **The first reason why fields make no struct**: types are looked up before fields are looked
at. -/
def refusal? (fields : List (String × String)) : Option Refusal :=
  match TypeName.unknown? (fields.map Prod.snd) with
  | some name => some (.unknownType name)
  | none => (firstAfter Fields.nameFlaw? [] (fields.map Prod.fst)).map .flawed

theorem refusal?_eq_none_iff {fields : List (String × String)} :
    refusal? fields = none ↔
      (∃ ns : List TypeName, fields.map Prod.snd = ns.map TypeName.text) ∧
        firstAfter Fields.nameFlaw? [] (fields.map Prod.fst) = none := by
  rw [refusal?, ← TypeName.unknown?_eq_none_iff]
  cases TypeName.unknown? (fields.map Prod.snd) with
  | none => simp
  | some name => simp

variable {a : Architecture} {o : ByteOrder} {fields : List (String × String)}

/-- **What is refused, is refused by every registry**, and for the same reason. -/
theorem struct_of_refusal {r : Refusal} (h : refusal? fields = some r)
    (hshort : 8 * fields.length < addressSpace) :
    ((derive a o).struct fields).result = .error (r.error ⟨a, o⟩) := by
  rw [struct, BuildM.result_ofExcept_bind_eq]
  rw [refusal?] at h
  cases hu : TypeName.unknown? (fields.map Prod.snd) with
  | some name =>
    rw [hu] at h
    rw [lookupFields_of_unknown hu, ← Option.some.inj h]
    rfl
  | none =>
    rw [hu] at h
    obtain ⟨f, hf, rfl⟩ := Option.map_eq_some_iff.mp h
    obtain ⟨ns, hns⟩ := TypeName.unknown?_eq_none_iff.mp hu
    rw [lookupFields_texts hns]
    show (Fields.make _).result = _
    rw [Fields.make_eq, BuildM.result_checked, firstFlaw_texts hns hshort, hf]
    rfl

/-- **What is not refused is made by every registry.** -/
theorem struct_of_texts {ns : List TypeName} (h : fields.map Prod.snd = ns.map TypeName.text)
    (hno : firstAfter Fields.nameFlaw? [] (fields.map Prod.fst) = none)
    (hshort : 8 * fields.length < addressSpace) :
    ∃ fs, ((derive a o).struct fields).result = .ok fs ∧ fs.names = fields.map Prod.fst ∧
      fs.types = ns.map (TypeName.layout a.wordSize o) := by
  obtain ⟨hfst, hsnd⟩ := zip_texts h (TypeName.layout a.wordSize o)
  refine ⟨.ofList ((fields.map Prod.fst).zip (ns.map (TypeName.layout a.wordSize o))), ?_, ?_, ?_⟩
  · rw [struct, BuildM.result_ofExcept_bind_eq, lookupFields_texts h]
    show (Fields.make _).result = _
    rw [Fields.make_eq, BuildM.result_checked, firstFlaw_texts h hshort, hno]
  · rw [Fields.names, Fields.toList_ofList, hfst]
  · rw [← Fields.map_snd_toList, Fields.toList_ofList, hsnd]

end Registry

end ByteLayout
