import ByteLayout.Proofs.Layout.Precision
import ByteLayout.Proofs.Registry.Meaning

/-!
# From 32 bits to 64

A struct of named types means something on every architecture, and where the
order is the same, only the four names that are as wide as a machine word can
tell them apart.  What these hold grows from 32 bits to 64: `Fields.Widened` is
what two structs have in common of which the second has the wider words.

Everything is said first of lists of names.  The layouts of a list differ where
a name is word-sized, and there the second takes what the first takes
(`encode_wide`) and leaves as much of it.  The other way round a value may be
refused, at the first word-sized name with an integer that has no 32 bits:
`misfit?` finds this integer, and `encodeAll_narrow` says that it is the error.
-/

namespace ByteLayout

-- Powers are those of the core library.
attribute [local instance (2000)] instPowNat

namespace TypeName

/-! ### One name -/

theorem fixed?_eq_none_iff (n : TypeName) : TypeTable.fixed? n = none ↔ n.isWordSized := by
  cases n <;> decide

/-- A name that is not word-sized means the same everywhere. -/
theorem layout_of_not_word {n : TypeName} (h : n.isWordSized = false) (w w' : WordSize)
    (o : ByteOrder) : n.layout w o = n.layout w' o := by
  rw [layout, layout, primitive, primitive]
  cases hf : TypeTable.fixed? n with
  | some p => rfl
  | none => rw [(fixed?_eq_none_iff n).mp hf] at h; cases h

theorem width_layout_bits64 (n : TypeName) (o : ByteOrder) :
    (n.layout .bits64 o).width = (n.layout .bits32 o).width + if n.isWordSized then 4 else 0 := by
  cases n <;> rfl

/-- A word is an integer of four or of eight bytes, with the same sign. -/
theorem primitive_of_word {n : TypeName} (h : n.isWordSized) :
    (n.primitive .bits32 = .int32 ∧ n.primitive .bits64 = .int64) ∨
      (n.primitive .bits32 = .uint32 ∧ n.primitive .bits64 = .uint64) := by
  cases n <;> revert h <;> decide

theorem isInteger_word {n : TypeName} (h : n.isWordSized) (w : WordSize) :
    (n.primitive w).isInteger := by
  cases n <;> cases w <;> revert h <;> decide

/-- What fits 32 bits fits 64. -/
theorem holds_bits64 {n : TypeName} (h : n.isWordSized) {x : Int}
    (hx : (n.primitive .bits32).holds x) : (n.primitive .bits64).holds x := by
  rcases primitive_of_word h with ⟨h32, h64⟩ | ⟨h32, h64⟩
  · rw [h32, Primitive.holds_signed rfl] at hx
    rw [h64, Primitive.holds_signed rfl]
    change -2 ^ (31 : Nat) ≤ x ∧ x < 2 ^ (31 : Nat) at hx
    show -2 ^ (63 : Nat) ≤ x ∧ x < 2 ^ (63 : Nat)
    omega
  · rw [h32, Primitive.holds_unsigned rfl] at hx
    rw [h64, Primitive.holds_unsigned rfl]
    change 0 ≤ x ∧ x < 2 ^ (32 : Nat) at hx
    show 0 ≤ x ∧ x < 2 ^ (64 : Nat)
    omega

/-- **What a word takes** are the integers that it holds. -/
theorem encode_word_ok {n : TypeName} (h : n.isWordSized) {w : WordSize} {o : ByteOrder}
    {v : Value} : (∃ bytes, (n.layout w o).encode v = .ok bytes) ↔
      ∃ x : Int, v = .number (.int x) ∧ (n.primitive w).holds x := by
  have hi := isInteger_word h w
  constructor
  · rintro ⟨bytes, hv⟩
    obtain ⟨x, rfl, hf, -⟩ := Layout.encode_scalar_ok.mp hv
    cases x with
    | int x =>
      refine ⟨x, rfl, ?_⟩
      simpa [Primitive.fault?, hi] using hf
    | float x => simp [Primitive.fault?, hi] at hf
  · rintro ⟨x, rfl, hx⟩
    exact ⟨_, Layout.encode_scalar_ok.mpr ⟨.int x, rfl, by simp [Primitive.fault?, hx], rfl⟩⟩

/-- A word keeps an integer as it is. -/
theorem normalize_word {n : TypeName} (h : n.isWordSized) (w : WordSize) (o : ByteOrder) (x : Int) :
    (n.layout w o).normalize (.number (.int x)) = .number (.int x) := by
  have hk : (n.primitive w).keeps (.int x) := isInteger_word h w
  exact congrArg Value.number (Primitive.normalize_of_keeps hk)

/-- **What 32 bits take, 64 bits take**, and as much of it is left. -/
theorem encode_wide {n : TypeName} {o : ByteOrder} {v : Value} {bytes : Bytes}
    (h : (n.layout .bits32 o).encode v = .ok bytes) :
    (∃ bytes', (n.layout .bits64 o).encode v = .ok bytes') ∧
      (n.layout .bits64 o).normalize v = (n.layout .bits32 o).normalize v := by
  cases hw : n.isWordSized with
  | false =>
    rw [layout_of_not_word hw .bits64 .bits32 o]
    exact ⟨⟨bytes, h⟩, rfl⟩
  | true =>
    obtain ⟨x, rfl, hx⟩ := (encode_word_ok hw).mp ⟨bytes, h⟩
    rw [normalize_word hw, normalize_word hw]
    exact ⟨(encode_word_ok hw).mpr ⟨x, rfl, holds_bits64 hw hx⟩, rfl⟩

/-- **The integer in a value that has no 32 bits**, where the name is word-sized, with the type that
does not hold it. -/
def misfit? (n : TypeName) : Value → Option (Int × Primitive)
  | .number (.int x) =>
    if n.isWordSized ∧ ¬(n.primitive .bits32).holds x then some (x, n.primitive .bits32) else none
  | _ => none

/-- **What 32 bits make of a value that 64 bits take**: bytes, unless there is an integer that does
not fit, and then this is the error. -/
inductive Narrowed : Option (Int × Primitive) → Except Error Bytes → Prop
  | packed (bytes : Bytes) : Narrowed none (.ok bytes)
  | refused (x : Int) (p : Primitive) : p.width = 4 →
      Narrowed (some (x, p)) (.error (.valueOutOfRange (.int x) p))

/-- **Of what 64 bits take, 32 bits refuse the integers that do not fit**, and nothing else. -/
theorem encode_narrow {n : TypeName} {o : ByteOrder} {v : Value} {bytes' : Bytes}
    (h : (n.layout .bits64 o).encode v = .ok bytes') :
    Narrowed (n.misfit? v) ((n.layout .bits32 o).encode v) := by
  cases hw : n.isWordSized with
  | false =>
    have hm : n.misfit? v = none := by
      rw [misfit?.eq_def]
      split <;> simp [hw]
    rw [layout_of_not_word hw .bits32 .bits64 o, h, hm]
    exact .packed bytes'
  | true =>
    obtain ⟨x, rfl, -⟩ := (encode_word_ok hw).mp ⟨bytes', h⟩
    by_cases hx : (n.primitive .bits32).holds x
    · have hm : n.misfit? (.number (.int x)) = none := by simp [misfit?, hx]
      obtain ⟨bytes, hb⟩ := (encode_word_ok hw (w := .bits32) (o := o)).mpr ⟨x, rfl, hx⟩
      rw [hm, hb]
      exact .packed bytes
    · have hm : n.misfit? (.number (.int x)) = some (x, n.primitive .bits32) := by
        simp [misfit?, hw, hx]
      have hf : (n.primitive .bits32).fault? (.int x) =
          some (.valueOutOfRange (.int x) (n.primitive .bits32)) := by
        simp [Primitive.fault?, isInteger_word hw, hx]
      have hfour : (n.primitive .bits32).width = 4 := by
        rcases primitive_of_word hw with ⟨h32, -⟩ | ⟨h32, -⟩ <;> rw [h32] <;> rfl
      rw [hm, layout, Layout.encode, Layout.faults, Layout.fold_scalar, Scalar.fault?, hf]
      exact .refused x _ hfour

/-! ### One name after the other -/

/-- The first such integer among values, one for each name. -/
def firstMisfit? (ns : List TypeName) (vs : List Value) : Option (Int × Primitive) :=
  (ns.zip vs).findSome? fun p => p.1.misfit? p.2

theorem totalWidth_bits64 (ns : List TypeName) (o : ByteOrder) :
    Layout.totalWidth (ns.map (layout .bits64 o)) =
      Layout.totalWidth (ns.map (layout .bits32 o)) + 4 * ns.countP isWordSized := by
  induction ns with
  | nil => rfl
  | cons n ns ih =>
    rw [List.map_cons, List.map_cons, Layout.totalWidth, Layout.totalWidth, width_layout_bits64, ih,
      List.countP_cons]
    split <;> omega

/-- What 32 bits take of all, 64 bits take of all. -/
theorem encodeAll_wide (ns : List TypeName) {o : ByteOrder} : ∀ {vs : List Value} {bytes : Bytes},
    Layout.encodeAll (ns.map (layout .bits32 o)) vs = .ok bytes →
    (∃ bytes', Layout.encodeAll (ns.map (layout .bits64 o)) vs = .ok bytes') ∧
      List.zipWith Layout.normalize (ns.map (layout .bits64 o)) vs =
        List.zipWith Layout.normalize (ns.map (layout .bits32 o)) vs := by
  induction ns with
  | nil => intro vs bytes h; exact ⟨⟨bytes, h⟩, rfl⟩
  | cons n ns ih =>
    intro vs bytes h
    cases vs with
    | nil => exact ⟨⟨[], rfl⟩, rfl⟩
    | cons v vs =>
      obtain ⟨first, rest, hv, hvs, -⟩ := Layout.encodeAll_cons_ok.mp h
      obtain ⟨⟨first', hv'⟩, hn⟩ := encode_wide hv
      obtain ⟨⟨rest', hvs'⟩, hns⟩ := ih hvs
      refine ⟨⟨_, Layout.encodeAll_cons_ok.mpr ⟨first', rest', hv', hvs', rfl⟩⟩, ?_⟩
      rw [List.map_cons, List.map_cons, List.zipWith_cons_cons, List.zipWith_cons_cons, hn, hns]

/-- **The first integer that does not fit stops the packing**; the values before it are packed. -/
theorem encodeAll_narrow (ns : List TypeName) {o : ByteOrder} :
    ∀ {vs : List Value} {bytes' : Bytes},
      Layout.encodeAll (ns.map (layout .bits64 o)) vs = .ok bytes' →
      Narrowed (firstMisfit? ns vs) (Layout.encodeAll (ns.map (layout .bits32 o)) vs) := by
  induction ns with
  | nil => intro vs bytes' _; exact .packed []
  | cons n ns ih =>
    intro vs bytes' h
    cases vs with
    | nil => exact .packed []
    | cons v vs =>
      obtain ⟨first, rest, hv, hvs, -⟩ := Layout.encodeAll_cons_ok.mp h
      have hfirst := encode_narrow hv
      have hrest := ih hvs
      rw [firstMisfit?, List.zip_cons_cons, List.findSome?_cons, List.map_cons,
        Layout.encodeAll_cons]
      generalize n.misfit? v = m, (n.layout .bits32 o).encode v = first at hfirst ⊢
      cases hfirst with
      | refused x p hp => exact .refused x p hp
      | packed first =>
        show Narrowed (firstMisfit? ns vs) _
        generalize firstMisfit? ns vs = m,
          Layout.encodeAll (ns.map (layout .bits32 o)) vs = rest at hrest ⊢
        cases hrest with
        | refused x p hp => exact .refused x p hp
        | packed rest => exact .packed (first ++ rest)

end TypeName

/-! ### Structs -/

/-- **What two structs have in common** that have fields of the same named types, the second with
the words of 64 bits. -/
structure Fields.Widened (ns : List TypeName) (fs gs : Fields) : Prop where
  /-- The fields have the same names, in the same order. -/
  names : gs.names = fs.names
  /-- Their types are the same but for the word-sized ones. -/
  types : ∀ (i : Nat) (n : TypeName), ns[i]? = some n → n.isWordSized = false →
    gs.types[i]? = fs.types[i]?
  width : gs.width = fs.width + 4 * ns.countP TypeName.isWordSized
  /-- What fits the first fits the second, and is read back from both as the same. -/
  widened : ∀ vs bytes, fs.pack vs = .ok bytes → ∃ bytes' ws,
    gs.pack vs = .ok bytes' ∧ fs.unpack bytes = .ok ws ∧ gs.unpack bytes' = .ok ws
  /-- What fits the second fits the first, but for integers that have no 32 bits. -/
  narrowed : ∀ vs bytes', gs.pack vs = .ok bytes' →
    TypeName.Narrowed (TypeName.firstMisfit? ns vs) (fs.pack vs)

theorem Fields.widened_of_types {ns : List TypeName} {o : ByteOrder} {fs gs : Fields}
    (hnames : gs.names = fs.names) (hfs : fs.types = ns.map (TypeName.layout .bits32 o))
    (hgs : gs.types = ns.map (TypeName.layout .bits64 o)) : Widened ns fs gs where
  names := hnames
  types := by
    intro i n hn hw
    rw [hfs, hgs, List.getElem?_map, List.getElem?_map, hn]
    exact congrArg some (TypeName.layout_of_not_word hw _ _ o)
  width := by
    rw [← Layout.totalWidth_types, ← Layout.totalWidth_types, hfs, hgs, TypeName.totalWidth_bits64]
  widened := by
    intro vs bytes h
    obtain ⟨hl, hvs⟩ := Layout.fields_pack_ok.mp h
    obtain ⟨⟨bytes', hvs'⟩, hn⟩ := TypeName.encodeAll_wide ns (hfs ▸ hvs)
    have hl' : vs.length = gs.types.length := by
      rw [hl, hfs, hgs, List.length_map, List.length_map]
    have h' : gs.pack vs = .ok bytes' := Layout.fields_pack_ok.mpr ⟨hl', hgs ▸ hvs'⟩
    refine ⟨bytes', List.zipWith Layout.normalize fs.types vs, h', Layout.fields_unpack_pack h, ?_⟩
    rw [Layout.fields_unpack_pack h', hfs, hgs, hn]
  narrowed := by
    intro vs bytes' h
    obtain ⟨hl, hvs⟩ := Layout.fields_pack_ok.mp h
    have hl' : vs.length = fs.types.length := by
      rw [hl, hfs, hgs, List.length_map, List.length_map]
    rw [Layout.fields_pack_eq, if_pos hl', hfs]
    exact TypeName.encodeAll_narrow ns (hgs ▸ hvs)

namespace Registry

/-- **A description by names is portable from 32 bits to 64.**  The registries of both refuse the
same fields for the same reason, or make structs of which the second has wider words.  There may be
any number of fields that could be addressed with the widest types. -/
theorem struct_portable {a a' : Architecture} (h32 : a.wordSize = .bits32)
    (h64 : a'.wordSize = .bits64) (o : ByteOrder) (fields : List (String × String))
    (hshort : 8 * fields.length < addressSpace) :
    (∀ r : Refusal, refusal? fields = some r →
      ((derive a o).struct fields).result = .error (r.error ⟨a, o⟩) ∧
      ((derive a' o).struct fields).result = .error (r.error ⟨a', o⟩)) ∧
    (refusal? fields = none → ∃ (ns : List TypeName) (fs gs : Fields),
      fields.map Prod.snd = ns.map TypeName.text ∧ fs.names = fields.map Prod.fst ∧
      ((derive a o).struct fields).result = .ok fs ∧
      ((derive a' o).struct fields).result = .ok gs ∧ Fields.Widened ns fs gs) := by
  refine ⟨fun r hr => ⟨struct_of_refusal hr hshort, struct_of_refusal hr hshort⟩, ?_⟩
  intro hno
  obtain ⟨⟨ns, hns⟩, hflaw⟩ := refusal?_eq_none_iff.mp hno
  obtain ⟨fs, hfs, hnames, htypes⟩ := struct_of_texts (a := a) (o := o) hns hflaw hshort
  obtain ⟨gs, hgs, hnames', htypes'⟩ := struct_of_texts (a := a') (o := o) hns hflaw hshort
  rw [h32] at htypes
  rw [h64] at htypes'
  exact ⟨ns, fs, gs, hns, hnames, hfs, hgs,
    Fields.widened_of_types (hnames'.trans hnames.symm) htypes htypes'⟩

/-- A type that neither processor knows, which is told before a field without a name; and an entry
point that is out of range for one of the two. -/
theorem struct_portable_entry :
    let fields := [("e_type", "uint16"), ("e_entry", "pointer"), ("e_bias", "long")]
    let vs : List Value := [.number (.int 2), .number (.int 0x100000000), .number (.int (-1))]
    ((derive .mips .bigEndian).struct [("", "uint16"), ("e_entry", "address")]).result =
        .error (.typeNotFound "address" ⟨.mips, .bigEndian⟩) ∧
    ((derive .mips64 .bigEndian).struct [("", "uint16"), ("e_entry", "address")]).result =
        .error (.typeNotFound "address" ⟨.mips64, .bigEndian⟩) ∧
    ∃ fs gs, ((derive .mips .bigEndian).struct fields).result = .ok fs ∧
      ((derive .mips64 .bigEndian).struct fields).result = .ok gs ∧ gs.width = fs.width + 8 ∧
      gs.pack vs = .ok [0, 2, 0, 0, 0, 1, 0, 0, 0, 0, 255, 255, 255, 255, 255, 255, 255, 255] ∧
      fs.pack vs = .error (.valueOutOfRange (.int 0x100000000) .uint32) := by
  intro fields vs
  have hmips : Architecture.wordSize .mips = .bits32 := rfl
  have hmips64 : Architecture.wordSize .mips64 = .bits64 := rfl
  have hportable := struct_portable hmips hmips64 .bigEndian
  obtain ⟨hrefused, hrefused'⟩ :=
    (hportable [("", "uint16"), ("e_entry", "address")] (by decide)).1 (.unknownType "address") rfl
  obtain ⟨ns, fs, gs, hns, -, hfs, hgs, hw⟩ := (hportable fields (by decide)).2 rfl
  obtain rfl : [.uint16, .pointer, .long] = ns :=
    (List.map_inj_right TypeName.text_injective).mp hns
  have hpack : gs.pack vs =
      .ok [0, 2, 0, 0, 0, 1, 0, 0, 0, 0, 255, 255, 255, 255, 255, 255, 255, 255] := by
    rw [← Except.ok.inj hgs]
    rfl
  refine ⟨hrefused, hrefused', fs, gs, hfs, hgs, hw.width, hpack, ?_⟩
  have hnarrowed := hw.narrowed vs _ hpack
  generalize fs.pack vs = packed at hnarrowed ⊢
  cases hnarrowed
  rfl

end Registry

end ByteLayout
