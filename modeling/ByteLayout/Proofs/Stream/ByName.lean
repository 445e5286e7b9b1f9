import ByteLayout.Proofs.Layout.WellFormed
import ByteLayout.Proofs.Stream.Calls
import ByteLayout.Proofs.Stream.Names

/-!
# One name at a time, or all as a struct

A list of names stands for a struct as well: give each of them a field, and
`Registry.struct` looks them all up.  The fields of the struct have the types of
the names (`struct_ok`), so both ways go over the same bytes.

They differ in when they look.  The struct has its types before it counts the
bytes, and it counts them once, while names are looked up and counted one at a
time.  So reading agrees where it is not refused, and where it is refused the
names tell the first fault.  Writing asks for no bytes and the types are known,
so there the errors agree as well; what is different is how much was written
before (`writeEach_apply`).
-/

namespace ByteLayout

/-! ### The struct of names -/

namespace Registry

theorem lookupFields_ok {g : Registry} :
    ∀ {fields : List (String × String)} {members : List (String × Layout)},
      g.lookupFields fields = .ok members →
      (∀ name ∈ fields.map Prod.snd, ∃ s, g.lookup name = .ok s) ∧
        members.map Prod.fst = fields.map Prod.fst ∧
        members.map Prod.snd = g.typesOf (fields.map Prod.snd) := by
  intro fields
  induction fields with
  | nil =>
    intro members h
    rw [lookupFields] at h
    obtain rfl := Except.ok.inj h
    refine ⟨?_, rfl, rfl⟩
    intro name hname
    cases hname
  | cons field fields ih =>
    intro members h
    obtain ⟨s, rest, hs, hf, rfl⟩ := lookupFields_cons_ok.mp h
    obtain ⟨hnames, hlabels, htypes⟩ := ih hf
    refine ⟨List.forall_mem_cons.mpr ⟨⟨s, hs⟩, hnames⟩, congrArg (field.1 :: ·) hlabels, ?_⟩
    rw [List.map_cons, List.map_cons, typesOf_cons hs, htypes]

theorem lookupFields_of_resolved {g : Registry} {fields : List (String × String)}
    (h : ∀ name ∈ fields.map Prod.snd, ∃ s, g.lookup name = .ok s) :
    ∃ members, g.lookupFields fields = .ok members := by
  induction fields with
  | nil => exact ⟨[], rfl⟩
  | cons field fields ih =>
    obtain ⟨⟨s, hs⟩, hrest⟩ := List.forall_mem_cons.mp h
    obtain ⟨rest, hrest⟩ := ih hrest
    exact ⟨_, lookupFields_cons_ok.mpr ⟨s, rest, hs, hrest, rfl⟩⟩

/-- **The struct of names has their types.** -/
theorem struct_ok {g : Registry} {fields : List (String × String)} {fs : Fields}
    (h : (g.struct fields).result = .ok fs) :
    (∀ name ∈ fields.map Prod.snd, ∃ s, g.lookup name = .ok s) ∧
      fs.types = g.typesOf (fields.map Prod.snd) ∧ fs.types.length = fields.length := by
  obtain ⟨members, hm, hfs⟩ := BuildM.result_ofExcept_bind.mp h
  obtain ⟨rfl, -⟩ := Fields.make_result_ok_iff_valid.mp hfs
  obtain ⟨hnames, hlabels, htypes⟩ := lookupFields_ok hm
  have hl := congrArg List.length hlabels
  rw [← Fields.map_snd_toList, Fields.toList_ofList]
  exact ⟨hnames, htypes, by simpa using hl⟩

/-- **Names make a struct if they have types** that can be addressed together. -/
theorem struct_ok_iff {g : Registry} {fields : List (String × String)}
    (hnamed : "" ∉ fields.map Prod.fst) (hdistinct : (fields.map Prod.fst).Nodup) :
    (∃ fs, (g.struct fields).result = .ok fs) ↔
      (∀ name ∈ fields.map Prod.snd, ∃ s, g.lookup name = .ok s) ∧
        Layout.totalWidth (g.typesOf (fields.map Prod.snd)) < addressSpace := by
  constructor
  · rintro ⟨fs, h⟩
    obtain ⟨members, hm, hfs⟩ := BuildM.result_ofExcept_bind.mp h
    obtain ⟨hnames, -, htypes⟩ := lookupFields_ok hm
    exact ⟨hnames, htypes ▸ (Fields.make_result_ok_iff_valid.mp hfs).2.fits⟩
  · rintro ⟨hnames, hfits⟩
    obtain ⟨members, hm⟩ := lookupFields_of_resolved hnames
    obtain ⟨-, hlabels, htypes⟩ := lookupFields_ok hm
    refine ⟨_, BuildM.result_ofExcept_bind.mpr ⟨members, hm,
      Fields.make_result_ok_iff_valid.mpr ⟨rfl, ?_, ?_, ?_⟩⟩⟩
    · rwa [hlabels]
    · rwa [hlabels]
    · rwa [htypes]

end Registry

/-! ### Writing -/

namespace Writer

open Steps

/-- Appends a value for each name, up to the first that is refused. -/
def writeEach : List String → List Value → WriteM Unit
  | name :: names, v :: vs => do
    write name v
    writeEach names vs
  | _, _ => return

theorem write_apply {name : String} {w : Writer} {s : Scalar} (hs : w.registry.lookup name = .ok s)
    (v : Value) :
    write name v w = match (Layout.scalar s).encode v with
      | .ok bytes => .ok () { w with bytes := w.bytes ++ bytes }
      | .error e => .error e w := by
  have hb : (Call.write name v).bytes w = (Layout.scalar s).encode v := by
    rw [Call.bytes, hs, ← Layout.pack_eq_encode]
    rfl
  rw [← hb]
  exact (Call.write name v).run_apply w

/-- **The calls stop at a place**: the values before it are written, and that one is refused. -/
def StopsAt (names : List String) (vs : List Value) (i : Nat) (e : Error) (w w' : Writer) : Prop :=
  ∃ name v, names[i]? = some name ∧ vs[i]? = some v ∧
    writeEach (names.take i) (vs.take i) w = .ok () w' ∧ write name v w' = .error e w'

theorem StopsAt.cons {name : String} {v : Value} {names : List String} {vs : List Value} {i : Nat}
    {e : Error} {w w' w'' : Writer} (hv : write name v w = .ok () w')
    (h : StopsAt names vs i e w' w'') : StopsAt (name :: names) (v :: vs) (i + 1) e w w'' := by
  obtain ⟨last, x, hlast, hx, hbefore, hstop⟩ := h
  refine ⟨last, x, hlast, hx, ?_, hstop⟩
  rw [List.take_succ_cons, List.take_succ_cons, writeEach, bind_apply, hv]
  exact hbefore

/-- **Values written one at a time** append the bytes of all, or stop at the first that has none. -/
theorem writeEach_apply (names : List String) : ∀ {w : Writer} {vs : List Value},
    (∀ name ∈ names, ∃ s, w.registry.lookup name = .ok s) → vs.length = names.length →
    match Layout.encodeAll (w.registry.typesOf names) vs with
    | .ok bytes => writeEach names vs w = .ok () { w with bytes := w.bytes ++ bytes }
    | .error e => ∃ i w', StopsAt names vs i e w w' ∧ writeEach names vs w = .error e w' := by
  induction names with
  | nil =>
    intro w vs _ hl
    rw [List.length_eq_zero_iff.mp hl]
    show (return () : WriteM Unit) w = .ok () { w with bytes := w.bytes ++ [] }
    rw [List.append_nil]
    rfl
  | cons name names ih =>
    intro w vs hnames hl
    cases vs with
    | nil => cases hl
    | cons v vs =>
      obtain ⟨⟨s, hs⟩, hrest⟩ := List.forall_mem_cons.mp hnames
      have hv := write_apply hs v
      rw [Registry.typesOf_cons hs, Layout.encodeAll_cons, writeEach, bind_apply]
      cases hfirst : (Layout.scalar s).encode v with
      | error e =>
        rw [hfirst] at hv
        exact ⟨0, w, ⟨name, v, rfl, rfl, rfl, hv⟩, by simp only [hv]⟩
      | ok first =>
        rw [hfirst] at hv
        have hvs := ih (w := { w with bytes := w.bytes ++ first }) hrest (Nat.succ.inj hl)
        simp only [hv]
        cases hall : Layout.encodeAll (w.registry.typesOf names) vs with
        | ok rest =>
          simp only [hall, List.append_assoc] at hvs
          exact hvs
        | error e =>
          simp only [hall] at hvs
          obtain ⟨i, w', hstop, he⟩ := hvs
          exact ⟨i + 1, w', hstop.cons hv, he⟩

/-- The struct is written as its members are, in whole or not at all. -/
theorem writeLayout_struct_apply {fs : Fields} {vs : List Value} (hl : vs.length = fs.types.length)
    (w : Writer) :
    writeLayout (.struct fs) (.list vs) w = match Layout.encodeAll fs.types vs with
      | .ok bytes => .ok () { w with bytes := w.bytes ++ bytes }
      | .error e => .error e w := by
  have he : (Layout.struct fs).pack (.list vs) = Layout.encodeAll fs.types vs := by
    rw [Layout.pack_eq_encode, Layout.encode_list rfl]
    exact if_pos hl
  rw [writeLayout, he]
  exact append_apply _ w

/-- **Values written one at a time are written as a struct**, but for what an error leaves. -/
theorem writeEach_struct {w : Writer} {fields : List (String × String)} {fs : Fields}
    {vs : List Value} (hfs : (w.registry.struct fields).result = .ok fs)
    (hl : vs.length = fields.length) :
    (∀ w', writeEach (fields.map Prod.snd) vs w = .ok () w' ↔
      writeLayout (.struct fs) (.list vs) w = .ok () w') ∧
    ∀ e w', writeEach (fields.map Prod.snd) vs w = .error e w' →
      writeLayout (.struct fs) (.list vs) w = .error e w ∧
        ∃ i, StopsAt (fields.map Prod.snd) vs i e w w' := by
  obtain ⟨hnames, htypes, hlength⟩ := Registry.struct_ok hfs
  have heach := writeEach_apply _ hnames (hl.trans (List.length_map _).symm)
  rw [writeLayout_struct_apply (hl.trans hlength.symm), htypes]
  cases hall : Layout.encodeAll (w.registry.typesOf (fields.map Prod.snd)) vs with
  | ok bytes =>
    simp only [hall] at heach
    rw [heach]
    refine ⟨fun _ => Iff.rfl, ?_⟩
    intro e w' h
    cases h
  | error e =>
    simp only [hall] at heach
    obtain ⟨i, w', hstop, he⟩ := heach
    rw [he]
    refine ⟨fun _ => ⟨nofun, nofun⟩, ?_⟩
    intro e' w'' h
    obtain ⟨rfl, rfl⟩ := EStateM.Result.error.inj h
    exact ⟨rfl, i, hstop⟩

end Writer

/-! ### Both ways -/

/-- **One name at a time, or all as a struct.**  Names are read if they have types and there are
bytes for them, and then to the values and the place of the struct; else the first fault is told and
the reader stays.  Values are written one at a time if and as the struct writes them, and the first
to be refused is the one for which the struct is. -/
theorem names_agree_with_struct :
    (∀ (names : List String) (r : Reader),
      ((∃ vs s, Reader.readNames names r = .ok vs s) ↔
        (∀ name ∈ names, ∃ s, r.registry.lookup name = .ok s) ∧
          Layout.totalWidth (r.registry.typesOf names) ≤ r.remaining) ∧
      (∀ vs s, Reader.readNames names r = .ok vs s →
        Reader.readEach names r = .ok vs s ∧
        ∀ fields fs, fields.map Prod.snd = names → (r.registry.struct fields).result = .ok fs →
          Reader.readFields fs r = .ok vs s) ∧
      ∀ e s, Reader.readNames names r = .error e s ↔
        s = r ∧ ∃ i, r.faultAt names i = some e ∧ ∀ j < i, r.faultAt names j = none) ∧
    (∀ (g : Registry) (fields : List (String × String)), "" ∉ fields.map Prod.fst →
      (fields.map Prod.fst).Nodup →
      ((∃ fs, (g.struct fields).result = .ok fs) ↔
        (∀ name ∈ fields.map Prod.snd, ∃ s, g.lookup name = .ok s) ∧
          Layout.totalWidth (g.typesOf (fields.map Prod.snd)) < addressSpace)) ∧
    ∀ (w : Writer) (fields : List (String × String)) (fs : Fields) (vs : List Value),
      (w.registry.struct fields).result = .ok fs → vs.length = fields.length →
      (∀ w', Writer.writeEach (fields.map Prod.snd) vs w = .ok () w' ↔
        Writer.writeLayout (.struct fs) (.list vs) w = .ok () w') ∧
      ∀ e w', Writer.writeEach (fields.map Prod.snd) vs w = .error e w' →
        Writer.writeLayout (.struct fs) (.list vs) w = .error e w ∧
          ∃ i, Writer.StopsAt (fields.map Prod.snd) vs i e w w' := by
  refine ⟨?_, fun _ _ => Registry.struct_ok_iff, fun _ _ _ _ => Writer.writeEach_struct⟩
  intro names r
  refine ⟨?_, ?_, fun _ _ => Reader.readNames_error_iff⟩
  · rw [← Reader.faultless_iff]
    constructor
    · rintro ⟨vs, s, h⟩
      obtain ⟨hnames, hfit, -⟩ := Reader.readNames_ok_iff.mp h
      exact (Reader.faultless_iff names r).mpr ⟨hnames, hfit⟩
    · intro h
      exact ⟨_, _, Reader.readNames_of_faultless h⟩
  · intro vs s h
    obtain ⟨hnames, hfit, heach⟩ := Reader.readNames_ok_iff.mp h
    refine ⟨heach, ?_⟩
    rintro fields fs rfl hfs
    obtain ⟨-, htypes, -⟩ := Registry.struct_ok hfs
    have hwidth : fs.width = Layout.totalWidth (r.registry.typesOf (fields.map Prod.snd)) := by
      rw [← htypes, Layout.totalWidth_types]
    rw [Reader.readEach_of_faultless _ ((Reader.faultless_iff _ r).mpr ⟨hnames, hfit⟩)] at heach
    rw [Reader.readFields_apply, hwidth, if_neg (Nat.not_lt.mpr hfit), htypes]
    exact heach

/-- A header that is read both ways; a name without a type behind one that is too wide; and a second
number that does not fit, behind a first that does. -/
theorem names_agree_with_struct_header :
    let g := Registry.derive .arm .littleEndian
    let r : Reader := .new [1, 2, 3] g
    let fields := [("kind", "uint8"), ("size", "uint16")]
    let header : Fields := .cons "kind" (.scalar ⟨.uint8, .littleEndian⟩)
      (.cons "size" (.scalar ⟨.uint16, .littleEndian⟩) .nil)
    (∃ fs, (g.struct fields).result = .ok fs) ∧
    Reader.readFields header r = .ok [.number (.int 1), .number (.int 0x302)] (r.past 3) ∧
    Reader.readNames ["uint8", "uint32", "quad"] r = .error (.lengthMismatch 4 2) r ∧
    Writer.writeLayout (.struct header) (.list [.number (.int 9), .number (.int 65536)]) ⟨[7], g⟩ =
      .error (.valueOutOfRange (.int 65536) .uint16) ⟨[7], g⟩ := by
  intro g r fields header
  obtain ⟨hread, hstruct, hwrite⟩ := names_agree_with_struct
  have hheader : (g.struct fields).result = .ok header := rfl
  have hnames : Reader.readNames ["uint8", "uint16"] r =
      .ok [.number (.int 1), .number (.int 0x302)] (r.past 3) := rfl
  have hfault : r.faultAt ["uint8", "uint32", "quad"] 1 = some (.lengthMismatch 4 2) := rfl
  have hstop : Writer.writeEach (fields.map Prod.snd) [.number (.int 9), .number (.int 65536)]
      ⟨[7], g⟩ = .error (.valueOutOfRange (.int 65536) .uint16) ⟨[7, 9], g⟩ := rfl
  refine ⟨?_, ?_, ?_, ?_⟩
  · refine (hstruct g fields (by decide) (by decide)).mpr ⟨?_, by decide⟩
    exact List.forall_mem_cons.mpr ⟨⟨_, rfl⟩, List.forall_mem_cons.mpr ⟨⟨_, rfl⟩, nofun⟩⟩
  · exact ((hread _ r).2.1 _ _ hnames).2 fields header rfl hheader
  · refine ((hread _ r).2.2 _ _).mpr ⟨rfl, 1, hfault, ?_⟩
    intro j hj
    obtain rfl : j = 0 := by omega
    rfl
  · exact ((hwrite ⟨[7], g⟩ fields header _ hheader rfl).2 _ _ hstop).1

end ByteLayout
