import ByteLayout.Proofs.Layout.Turning
import ByteLayout.Proofs.Layout.WellFormed

/-!
# Either byte order

A byte order decides in which direction the bytes of a number are written, and
nothing else.  For layouts this is `Reordered.turned`, whichever scalars are
turned round.  Registries take the order into every entry of their table, those
of the base and those of the words that depend on the architecture, so the two
registries of an architecture differ in all entries and in nothing but their
order (`Registry.get_derive_opposite`), and so do the structs that they make.
-/

namespace ByteLayout

/-! ### Turned round everywhere -/

/-- The layout with the order turned round in all of its scalars. -/
def Layout.opposite (T : Layout) : Layout := T.flip fun _ => true

/-- The fields with the order turned round in all of their scalars. -/
def Fields.opposite (fs : Fields) : Fields := fs.flipFrom 0 fun _ => true

theorem Scalar.flip_flip (s : Scalar) : s.flip.flip = s := by
  rw [flip, flip, withOrder, withOrder, ByteOrder.opposite_opposite]

mutual

/-- **Turning round twice** the same scalars gives the layout back. -/
theorem Layout.flip_flip :
    ∀ (T : Layout) (chosen : List Nat → Bool), (T.flip chosen).flip chosen = T
  | .scalar s, chosen => by
    rw [Layout.flip, Layout.flip]
    split
    · rw [s.flip_flip]
    · rfl
  | .array element _, _ => by rw [Layout.flip, Layout.flip, Layout.flip_flip element]
  | .struct fields, chosen => congrArg Layout.struct (Fields.flipFrom_flipFrom fields 0 chosen)

theorem Fields.flipFrom_flipFrom :
    ∀ (fs : Fields) (i : Nat) (chosen : List Nat → Bool),
      (fs.flipFrom i chosen).flipFrom i chosen = fs
  | .nil, _, _ => rfl
  | .cons _ type rest, i, chosen => by
    rw [Fields.flipFrom, Fields.flipFrom, Layout.flip_flip type, Fields.flipFrom_flipFrom rest]

end

/-! ### Tables -/

namespace TypeTable

/-- Tables that differ by a change of their scalars still do so with more entries. -/
theorem get_derive_map (f : Scalar → Scalar) (entries : List (TypeName × Scalar)) :
    ∀ {t t' : TypeTable}, (∀ n, t'.get n = (t.get n).map f) → ∀ n,
      (t'.derive (entries.map fun e => (e.1, f e.2))).get n = ((t.derive entries).get n).map f := by
  induction entries with
  | nil => exact fun h => h
  | cons e entries ih =>
    intro t t' h
    apply ih
    intro n
    rw [get_insert, get_insert, h]
    split <;> rfl

theorem get_base_opposite (o : ByteOrder) (n : TypeName) :
    (base o.opposite).get n = ((base o).get n).map Scalar.flip := by
  have hentries : (TypeName.all.filterMap fun n => (fixed? n).map fun p => (n, ⟨p, o.opposite⟩)) =
      (TypeName.all.filterMap fun n => (fixed? n).map fun p => (n, (⟨p, o⟩ : Scalar))).map
        fun e => (e.1, e.2.flip) := by
    rw [List.map_filterMap]
    congr 1
    funext n
    rw [Option.map_map]
    rfl
  rw [base, base, ofList, hentries]
  exact get_derive_map _ _ (fun n => by rw [get_empty]; rfl) n

end TypeTable

theorem WordTypes.entries_opposite (w : WordSize) (o : ByteOrder) :
    (of w o.opposite).entries = (of w o).entries.map fun e => (e.1, e.2.flip) := by
  cases w <;> rfl

namespace Registry

/-- **The registry of the other order** has the types of the one, turned round. -/
theorem get_derive_opposite (a : Architecture) (o : ByteOrder) (n : TypeName) :
    (derive a o.opposite).get n = ((derive a o).get n).map Scalar.flip := by
  show ((TypeTable.base o.opposite).derive (WordTypes.of a.wordSize o.opposite).entries).get n = _
  rw [WordTypes.entries_opposite]
  exact TypeTable.get_derive_map _ _ (TypeTable.get_base_opposite o) n

theorem lookup_opposite {a : Architecture} {o : ByteOrder} {name : String} {s : Scalar}
    (h : (derive a o).lookup name = .ok s) : (derive a o.opposite).lookup name = .ok s.flip := by
  rw [lookup] at h ⊢
  cases hn : TypeName.ofString? name with
  | none => rw [hn] at h; cases h
  | some n =>
    rw [hn, Option.bind_some] at h
    rw [Option.bind_some, get_derive_opposite]
    cases hs : (derive a o).get n with
    | none => rw [hs] at h; cases h
    | some t => rw [hs] at h; rw [← Except.ok.inj h, Option.map_some]

theorem lookupFields_opposite {a : Architecture} {o : ByteOrder} :
    ∀ {fields : List (String × String)} {members : List (String × Layout)},
      (derive a o).lookupFields fields = .ok members →
      (derive a o.opposite).lookupFields fields =
        .ok (members.map fun m => (m.1, m.2.opposite)) := by
  intro fields
  induction fields with
  | nil =>
    intro members h
    rw [← Except.ok.inj h]
    rfl
  | cons field fields ih =>
    intro members h
    obtain ⟨s, rest, hs, hf, rfl⟩ := lookupFields_cons_ok.mp h
    exact lookupFields_cons_ok.mpr ⟨s.flip, _, lookup_opposite hs, ih hf, rfl⟩

end Registry

/-! ### Structs -/

namespace Fields

theorem ofList_opposite (members : List (String × Layout)) :
    ∀ i, (ofList members).flipFrom i (fun _ => true) =
      ofList (members.map fun m => (m.1, m.2.opposite)) := by
  induction members with
  | nil => exact fun _ => rfl
  | cons m members ih =>
    intro i
    rw [ofList, flipFrom, ih, List.map_cons, ofList]
    rfl

theorem Valid.opposite {members : List (String × Layout)} (h : Valid members) :
    Valid (members.map fun m => (m.1, m.2.opposite)) := by
  have hn : (members.map fun m => (m.1, m.2.opposite)).map Prod.fst = members.map Prod.fst :=
    List.map_map
  have hw : Layout.totalWidth ((members.map fun m => (m.1, m.2.opposite)).map Prod.snd) =
      Layout.totalWidth (members.map Prod.snd) := by
    clear h hn
    induction members with
    | nil => rfl
    | cons m members ih =>
      simp only [List.map_cons, Layout.totalWidth, ih]
      rw [Layout.opposite, (m.2.reordered_flip _).width]
  exact ⟨hn ▸ h.named, hn ▸ h.distinct, hw ▸ h.fits⟩

end Fields

theorem Registry.struct_opposite {a : Architecture} {o : ByteOrder}
    {fields : List (String × String)} {fs : Fields}
    (h : ((derive a o).struct fields).result = .ok fs) :
    ((derive a o.opposite).struct fields).result = .ok fs.opposite := by
  obtain ⟨members, hm, hfs⟩ := BuildM.result_ofExcept_bind.mp h
  obtain ⟨rfl, hv⟩ := Fields.make_result_ok_iff_valid.mp hfs
  refine BuildM.result_ofExcept_bind.mpr ⟨_, lookupFields_opposite hm, ?_⟩
  exact Fields.make_result_ok_iff_valid.mpr ⟨Fields.ofList_opposite members 0, hv.opposite⟩

/-- **A byte order permutes bytes within scalars, and does nothing else.**  Whichever scalars of a
layout are turned round, the same values are refused, and the bytes are those of the layout with the
ranges of these scalars in reverse.  The structs that the two registries of an architecture make are
turned round in all of their scalars. -/
theorem flip_turned :
    (∀ (T : Layout) (chosen : List Nat → Bool), T.Turned (T.flip chosen)) ∧
      ∀ (a : Architecture) (o : ByteOrder) (fields : List (String × String)) (fs : Fields),
        ((Registry.derive a o.opposite).struct fields).result = .ok fs ↔
          ∃ gs, ((Registry.derive a o).struct fields).result = .ok gs ∧
            Layout.struct fs = (Layout.struct gs).flip fun _ => true := by
  refine ⟨fun T chosen => (T.reordered_flip chosen).turned, ?_⟩
  intro a o fields fs
  constructor
  · intro h
    have hg := Registry.struct_opposite h
    rw [o.opposite_opposite] at hg
    exact ⟨_, hg, (Layout.flip_flip (.struct fs) _).symm⟩
  · rintro ⟨gs, hg, hfs⟩
    rw [Layout.struct.inj hfs]
    exact Registry.struct_opposite hg

/-- The first coordinate of both points turned round, in both directions; and a struct with a byte
and a word, on a processor in the order that it does not run in. -/
theorem flip_turned_tagged :
    (Layout.tagged.flip (· == [1, 0, 0])).pack
        (Layout.taggedOf (.int 2) (.int 1) (.int (-1)) (.int (-3)) (.int 4)) =
      .ok [2, 1, 0, 0, 0, 128, 191, 253, 255, 0, 0, 128, 64] ∧
    (Layout.tagged.flip (· == [1, 0, 0])).unpack
        [2, 1, 0, 0, 0, 128, 191, 253, 255, 0, 0, 128, 64] =
      Layout.tagged.unpack [2, 0, 1, 0, 0, 128, 191, 255, 253, 0, 0, 128, 64] ∧
    ((Registry.derive .x86 .bigEndian).struct [("kind", "byte"), ("next", "pointer")]).result =
      .ok (.cons "kind" (.scalar ⟨.uint8, .bigEndian⟩)
        (.cons "next" (.scalar ⟨.uint32, .bigEndian⟩) .nil)) := by
  obtain ⟨hflip, hstruct⟩ := flip_turned
  have h := hflip Layout.tagged (· == [1, 0, 0])
  have hv : Layout.tagged.pack
      (Layout.taggedOf (.int 2) (.int 1) (.int (-1)) (.int (-3)) (.int 4)) =
      .ok [2, 0, 1, 0, 0, 128, 191, 255, 253, 0, 0, 128, 64] := rfl
  refine ⟨?_, ?_, ?_⟩
  · rw [h.pack, hv]
    rfl
  · rw [h.unpack _ (by decide)]
    rfl
  · exact (hstruct .x86 .littleEndian _ _).mpr ⟨_, rfl, rfl⟩

end ByteLayout
