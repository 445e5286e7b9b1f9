import ByteLayout.Layout.Build
import ByteLayout.Proofs.Layout.Members

/-!
# What can be made

Each constructor is a check, and then the thing itself: `BuildM.checked` is given
the flaw that was found, if there is one, and what is made where there is none.
So `arrayOf_eq` and `make_eq` say all that the constructors do, and what is left
is to know the flaw.

`Fields.flawAt` is the flaw of one field among others.  The fields of a struct
are refused for the first of these in declaration order, which is what
`firstAfter` finds.  A builder adds up the steps that have no flaw, and
`members_foldl` says which fields it comes to.
-/

namespace ByteLayout

/-- The note that is taken of a flaw; some are refused without one. -/
def Flaw.note? : Flaw → Option Event
  | .arrayOverflow count element => some (.arrayRejected count element)
  | .emptyFieldName => some .emptyFieldName
  | .duplicateField name => some (.duplicateField name)
  | _ => none

namespace BuildM

/-- **A thing that is made if there is no flaw in it**, and else refused with a note of it. -/
def checked (flaw? : Option Flaw) (a : α) : BuildM α := fun notes =>
  match flaw? with
  | none => .ok a notes
  | some f => .error (.unsupportedComposition f) (notes ++ f.note?.toList)

theorem result_checked (flaw? : Option Flaw) (a : α) :
    (checked flaw? a).result = match flaw? with
      | none => .ok a
      | some f => .error (.unsupportedComposition f) := by
  cases flaw? <;> rfl

theorem result_checked_ok {flaw? : Option Flaw} {a a' : α} :
    (checked flaw? a).result = .ok a' ↔ a' = a ∧ flaw? = none := by
  rw [result_checked]
  cases flaw? with
  | none => exact ⟨fun h => ⟨(Except.ok.inj h).symm, rfl⟩, fun h => congrArg _ h.1.symm⟩
  | some f => exact ⟨nofun, fun h => nomatch h.2⟩

theorem result_checked_error {flaw? : Option Flaw} {a : α} {e : Error} :
    (checked flaw? a).result = .error e ↔ ∃ f, flaw? = some f ∧ e = .unsupportedComposition f := by
  rw [result_checked]
  cases flaw? with
  | none => exact ⟨nofun, fun ⟨_, h, _⟩ => nomatch h⟩
  | some f =>
    constructor
    · intro h
      exact ⟨f, rfl, (Except.error.inj h).symm⟩
    · rintro ⟨g, hg, rfl⟩
      rw [Option.some.inj hg]

theorem map_checked (f : α → β) (flaw? : Option Flaw) (a : α) :
    f <$> checked flaw? a = checked flaw? (f a) := by
  funext notes
  cases flaw? <;> rfl

/-- **A thing is checked after another**, and the flaw is that of the first that has one. -/
theorem checked_bind_map_checked (p q : Option Flaw) (b : β) (f : β → γ) :
    (do checked p (); let b ← checked q b; return f b : BuildM γ) = checked (p.or q) (f b) := by
  funext notes
  cases p <;> cases q <;> rfl

end BuildM

/-! ### Arrays -/

/-- An array is flawed if its elements fill the address space. -/
def Layout.arrayFlaw? (element : Layout) (count : Nat) : Option Flaw :=
  if element.width * count < addressSpace then none else some (.arrayOverflow count element)

theorem Layout.arrayOf_eq (element : Layout) (count : Nat) :
    element.arrayOf count = BuildM.checked (element.arrayFlaw? count) (.array element count) := by
  rw [arrayOf, arrayFlaw?]
  split <;> rfl

theorem Layout.arrayFlaw?_eq_none {element : Layout} {count : Nat} :
    element.arrayFlaw? count = none ↔ element.width * count < addressSpace := by
  rw [arrayFlaw?]
  split <;> simp_all

/-! ### The first of several -/

/-- **What is found first in a list**, where each item is looked at with those before it. -/
def firstAfter (find : List α → α → Option β) (before : List α) : List α → Option β
  | [] => none
  | a :: rest => (find before a).or (firstAfter find (before ++ [a]) rest)

theorem firstAfter_eq_none_iff (find : List α → α → Option β) (rest : List α) :
    ∀ before : List α, firstAfter find before rest = none ↔
      ∀ i, rest[i]?.bind (find (before ++ rest.take i)) = none := by
  induction rest with
  | nil => intro before; simp [firstAfter]
  | cons a rest ih =>
    intro before
    rw [firstAfter, Option.or_eq_none_iff, ih]
    constructor
    · rintro ⟨ha, hr⟩ i
      cases i with
      | zero => simpa using ha
      | succ i => simpa [List.append_assoc] using hr i
    · intro h
      refine ⟨by simpa using h 0, ?_⟩
      intro i
      simpa [List.append_assoc] using h (i + 1)

theorem firstAfter_eq_some_iff (find : List α → α → Option β) (rest : List α) {b : β} :
    ∀ before : List α, firstAfter find before rest = some b ↔
      ∃ i, rest[i]?.bind (find (before ++ rest.take i)) = some b ∧
        ∀ j < i, rest[j]?.bind (find (before ++ rest.take j)) = none := by
  induction rest with
  | nil => intro before; simp [firstAfter]
  | cons a rest ih =>
    intro before
    rw [firstAfter, Option.or_eq_some_iff, ih]
    constructor
    · rintro (ha | ⟨ha, i, hi, hj⟩)
      · exact ⟨0, by simpa using ha, nofun⟩
      · refine ⟨i + 1, by simpa [List.append_assoc] using hi, ?_⟩
        intro j hji
        cases j with
        | zero => simpa using ha
        | succ j => simpa [List.append_assoc] using hj j (Nat.lt_of_succ_lt_succ hji)
    · rintro ⟨i, hi, hj⟩
      cases i with
      | zero => exact .inl (by simpa using hi)
      | succ i =>
        refine .inr ⟨by simpa using hj 0 (Nat.succ_pos i), i, ?_, ?_⟩
        · simpa [List.append_assoc] using hi
        · intro j hji
          simpa [List.append_assoc] using hj (j + 1) (Nat.succ_lt_succ hji)

/-- What is found does not change with the items, if each is looked at to the same effect. -/
theorem firstAfter_map {find : List α → α → Option β} {find' : List γ → γ → Option β} {f : γ → α}
    (h : ∀ before c, find (before.map f) (f c) = find' before c) (rest : List γ) :
    ∀ before : List γ,
      firstAfter find (before.map f) (rest.map f) = firstAfter find' before rest := by
  induction rest with
  | nil => intro before; rfl
  | cons c rest ih =>
    intro before
    have hc : before.map f ++ [f c] = (before ++ [c]).map f := by
      rw [List.map_append, List.map_singleton]
    rw [List.map_cons, firstAfter, h, hc, ih, firstAfter]

namespace BuildM

theorem result_firstAfter_ok {find : List α → α → Option Flaw} {items : List α} {b b' : β} :
    (checked (firstAfter find [] items) b).result = .ok b' ↔
      b' = b ∧ ∀ i, items[i]?.bind (find (items.take i)) = none := by
  rw [result_checked_ok, firstAfter_eq_none_iff]
  rfl

/-- **What is made of several items is refused for the first that has a flaw.** -/
theorem result_firstAfter_error {find : List α → α → Option Flaw} {items : List α} {b : β}
    {e : Error} :
    (checked (firstAfter find [] items) b).result = .error e ↔
      ∃ i f, items[i]?.bind (find (items.take i)) = some f ∧
        (∀ j < i, items[j]?.bind (find (items.take j)) = none) ∧ e = .unsupportedComposition f := by
  rw [result_checked_error]
  simp only [firstAfter_eq_some_iff]
  constructor
  · rintro ⟨f, ⟨i, hi, hj⟩, he⟩
    exact ⟨i, f, hi, hj, he⟩
  · rintro ⟨i, f, hi, hj, he⟩
    exact ⟨f, ⟨i, hi, hj⟩, he⟩

end BuildM

/-! ### The fields of a struct -/

/-- **The flaw of a field that follows others**, given their names and the bytes they take: it has
no name, it has the name of one of them, or with it they fill the address space. -/
def fieldFlaw? (names : List String) (start : Nat) (name : String) (width : Nat) : Option Flaw :=
  if name = "" then some .emptyFieldName
  else if name ∈ names then some (.duplicateField name)
  else if addressSpace ≤ start + width then some (.structOverflow name)
  else none

theorem fieldFlaw?_eq_none {names : List String} {start : Nat} {name : String} {width : Nat} :
    fieldFlaw? names start name width = none ↔
      name ≠ "" ∧ name ∉ names ∧ start + width < addressSpace := by
  rw [fieldFlaw?]
  split
  · simp_all
  · split
    · simp_all
    · split <;> simp_all

theorem checkField_eq {seen names : List String} (h : ∀ name, name ∈ seen ↔ name ∈ names)
    (start : Nat) (name : String) (width : Nat) :
    checkField seen start name width = BuildM.checked (fieldFlaw? names start name width) () := by
  funext notes
  rw [checkField, fieldFlaw?]
  by_cases he : name = ""
  · simp only [if_pos he]
    rfl
  · by_cases hd : name ∈ names
    · simp only [if_neg he, h, if_pos hd]
      rfl
    · by_cases hw : addressSpace ≤ start + width
      · simp only [if_neg he, h, if_neg hd, if_pos hw]
        exact congrArg (EStateM.Result.error _) (List.append_nil notes).symm
      · simp only [if_neg he, h, if_neg hd, if_neg hw]
        rfl

/-- One more name that was seen, whichever end it is put at. -/
theorem mem_seen_iff {seen : List String} {before : List (String × α)}
    (h : ∀ name, name ∈ seen ↔ name ∈ before.map Prod.fst) (m : String × α) (name : String) :
    name ∈ m.1 :: seen ↔ name ∈ (before ++ [m]).map Prod.fst := by
  rw [List.mem_cons, h, List.map_append, List.mem_append, List.map_singleton, List.mem_singleton,
    or_comm]

namespace Fields

def flawAfter (before : List (String × Layout)) (member : String × Layout) : Option Flaw :=
  fieldFlaw? (before.map Prod.fst) (Layout.totalWidth (before.map Prod.snd)) member.1
    member.2.width

/-- The flaw of the field at a place, if there is a field and it has one. -/
def flawAt (members : List (String × Layout)) (i : Nat) : Option Flaw :=
  members[i]?.bind (flawAfter (members.take i))

theorem totalWidth_snd_concat (before : List (String × Layout)) (m : String × Layout) :
    Layout.totalWidth ((before ++ [m]).map Prod.snd) =
      Layout.totalWidth (before.map Prod.snd) + m.2.width := by
  rw [List.map_append, Layout.totalWidth_append]
  rfl

/-- **Fields are made one after the other**, each looked at with those before it. -/
theorem makeFrom_eq (rest : List (String × Layout)) :
    ∀ (before : List (String × Layout)) (seen : List String),
      (∀ name, name ∈ seen ↔ name ∈ before.map Prod.fst) →
      makeFrom seen (Layout.totalWidth (before.map Prod.snd)) rest =
        BuildM.checked (firstAfter flawAfter before rest) (ofList rest) := by
  induction rest with
  | nil => intro before seen _; rfl
  | cons m rest ih =>
    intro before seen hs
    have hrest := ih (before ++ [m]) (m.1 :: seen) (mem_seen_iff hs m)
    rw [totalWidth_snd_concat] at hrest
    rw [makeFrom, checkField_eq hs, hrest, firstAfter]
    exact BuildM.checked_bind_map_checked _ _ _ _

theorem make_eq (members : List (String × Layout)) :
    make members = BuildM.checked (firstAfter flawAfter [] members) (ofList members) :=
  makeFrom_eq members [] [] fun _ => Iff.rfl

end Fields

/-! ### Builders -/

namespace Builder

/-- The flaw of a step: only an array can have one before the struct is built. -/
def Step.flaw? : Step → Option Flaw
  | .field .. => none
  | .array _ element count => element.arrayFlaw? count

/-- The field that a step adds, if it has no flaw. -/
def Step.member : Step → String × Layout
  | .field name type => (name, type)
  | .array name element count => (name, .array element count)

/-- The builder after a step. -/
def after (b : Builder) (s : Step) : Builder :=
  match s.flaw? with
  | none => b.field s.member.1 s.member.2
  | some f => { b with error? := some (b.error?.getD (.unsupportedComposition f)) }

/-- The notes that steps take. -/
def notes (steps : List Step) : List Event :=
  steps.flatMap fun s => (s.flaw?.bind Flaw.note?).toList

theorem step_apply (b : Builder) (s : Step) (es : List Event) :
    b.step s es = .ok (b.after s) (es ++ notes [s]) := by
  cases s with
  | field name type => exact congrArg (EStateM.Result.ok _) (List.append_nil es).symm
  | array name element count =>
    have hn : notes [.array name element count] =
        ((element.arrayFlaw? count).bind Flaw.note?).toList := List.append_nil _
    rw [step, array, Layout.arrayOf_eq, after, hn, Step.flaw?]
    cases element.arrayFlaw? count with
    | none => exact congrArg (EStateM.Result.ok _) (List.append_nil es).symm
    | some f => rfl

/-- **A builder is never stopped**: it goes through all of its steps. -/
theorem foldlM_step (steps : List Step) : ∀ (b : Builder) (es : List Event),
    steps.foldlM step b es = .ok (steps.foldl after b) (es ++ notes steps) := by
  induction steps with
  | nil => intro b es; exact congrArg (EStateM.Result.ok b) (List.append_nil es).symm
  | cons s steps ih =>
    intro b es
    rw [List.foldlM_cons, Steps.bind_apply, step_apply]
    show steps.foldlM step (b.after s) (es ++ notes [s]) = _
    rw [ih, List.append_assoc, List.foldl_cons]
    simp only [notes, List.flatMap_cons, List.flatMap_nil, List.append_nil]

theorem members_foldl (steps : List Step) : ∀ b : Builder,
    (steps.foldl after b).members =
      b.members ++ (steps.filter fun s => s.flaw?.isNone).map Step.member := by
  induction steps with
  | nil => intro b; exact (List.append_nil _).symm
  | cons s steps ih =>
    intro b
    rw [List.foldl_cons, ih, after]
    cases h : s.flaw? with
    | none => simp [h, field]
    | some f => simp [h]

/-- The error that is kept is that of the first step with a flaw. -/
theorem error?_foldl (steps : List Step) : ∀ b : Builder,
    (steps.foldl after b).error? =
      b.error?.or ((steps.findSome? Step.flaw?).map .unsupportedComposition) := by
  induction steps with
  | nil => intro b; exact Option.or_none.symm
  | cons s steps ih =>
    intro b
    rw [List.foldl_cons, ih, after, List.findSome?_cons]
    cases s.flaw? with
    | none => rfl
    | some f => cases b.error? <;> rfl

theorem filter_flawless {steps : List Step} (h : ∀ s ∈ steps, s.flaw? = none) :
    (steps.filter fun s => s.flaw?.isNone) = steps :=
  List.filter_eq_self.mpr fun s hs => Option.isNone_iff_eq_none.mpr (h s hs)

theorem notes_flawless {steps : List Step} (h : ∀ s ∈ steps, s.flaw? = none) :
    notes steps = [] := by
  rw [notes, List.flatMap_eq_nil_iff]
  intro s hs
  rw [h s hs]
  rfl

/-- **All that a builder comes to**: the error of the first step with a flaw, or else the struct of
the fields that the steps declare. -/
theorem run_apply (steps : List Step) (es : List Event) :
    run steps es = match steps.findSome? Step.flaw? with
      | some f => .error (.unsupportedComposition f) (es ++ notes steps)
      | none => Fields.make (steps.map Step.member) es := by
  have herror := error?_foldl steps empty
  rw [run, Steps.bind_apply, foldlM_step]
  show (steps.foldl after empty).build (es ++ notes steps) = _
  rw [build, herror]
  cases h : steps.findSome? Step.flaw? with
  | some f => rfl
  | none =>
    have hno := List.findSome?_eq_none_iff.mp h
    show Fields.make (steps.foldl after empty).members (es ++ notes steps) = _
    rw [members_foldl, filter_flawless hno, notes_flawless hno, List.append_nil]
    rfl

/-- **A builder makes the struct of the fields that its steps add.** -/
theorem run_result_ok {steps : List Step} {fs : Fields} (h : (run steps).result = .ok fs) :
    (Fields.make ((steps.filter fun s => s.flaw?.isNone).map Step.member)).result = .ok fs := by
  rw [BuildM.result, run_apply] at h
  cases hf : steps.findSome? Step.flaw? with
  | some f =>
    rw [hf] at h
    cases h
  | none =>
    rw [hf] at h
    rw [filter_flawless (List.findSome?_eq_none_iff.mp hf)]
    exact h

end Builder

end ByteLayout
