import ByteLayout.Proofs.Layout.Decoding

/-!
# A struct made field by field

Each value can be packed over the bytes of its field, and when this is done for
all fields the struct is there.  `Fields.assemble` does so in any order of the
fields.

`Ready` is what the order does not matter to: each value is accepted, and the
bytes of the fields lie in the buffer and apart from each other.  Then two fields
that follow each other may change places, by `Buffer.splice_comm`, and so
`assemble_perm` is an induction over the permutation.  In declaration order each
field is written behind the last one, and what comes of it are the bytes of the
struct (`assemble_entriesFrom`).
-/

namespace ByteLayout

/-- **Packs values over fields**, one after the other, in a struct that starts at `base`. -/
def Fields.assemble (base : Nat) : List (Entry × Value) → Bytes → Except Error Bytes
  | [], data => .ok data
  | (e, v) :: rest, data =>
    match e.type.packInto v ⟨data, base + e.offset⟩ with
    | .ok _ b => assemble base rest b.data
    | .error err _ => .error err

/-- Two fields without a byte in common. -/
def Entry.Apart (e e' : Entry) : Prop :=
  e.offset + e.type.width ≤ e'.offset ∨ e'.offset + e'.type.width ≤ e.offset

namespace Fields

/-- **What it takes to pack values over fields in any order**, in a buffer of `length` bytes. -/
structure Ready (base length : Nat) (order : List (Entry × Value)) : Prop where
  accepted : ∀ f ∈ order, ∃ bytes, f.1.type.encode f.2 = .ok bytes
  inside : ∀ f ∈ order, base + f.1.offset + f.1.type.width ≤ length
  apart : order.Pairwise fun f g => f.1.Apart g.1

theorem Ready.tail {base length : Nat} {f : Entry × Value} {order : List (Entry × Value)}
    (h : Ready base length (f :: order)) : Ready base length order where
  accepted := fun g hg => h.accepted g (List.mem_cons_of_mem f hg)
  inside := fun g hg => h.inside g (List.mem_cons_of_mem f hg)
  apart := (List.pairwise_cons.mp h.apart).2

theorem Ready.perm {base length : Nat} {order order' : List (Entry × Value)}
    (h : Ready base length order) (hp : order.Perm order') : Ready base length order' where
  accepted := fun f hf => h.accepted f (hp.mem_iff.mpr hf)
  inside := fun f hf => h.inside f (hp.mem_iff.mpr hf)
  apart := (hp.pairwise_iff fun ha => ha.symm).mp h.apart

/-- One field is packed, and the others into what comes of it. -/
theorem assemble_cons {base : Nat} {f : Entry × Value} {order : List (Entry × Value)}
    {data bytes : Bytes} (he : f.1.type.encode f.2 = .ok bytes)
    (hin : base + f.1.offset + f.1.type.width ≤ data.length) :
    assemble base (f :: order) data =
      assemble base order (Buffer.splice ⟨data, base + f.1.offset⟩ bytes) := by
  rw [assemble, Layout.packInto_inside he hin]

/-- **The order of the fields does not matter.** -/
theorem assemble_perm {base : Nat} {order order' : List (Entry × Value)}
    (hp : order.Perm order') : ∀ data : Bytes, Ready base data.length order →
      assemble base order data = assemble base order' data := by
  induction hp with
  | nil => intro data _; rfl
  | @cons f order order' _ ih =>
    intro data h
    obtain ⟨bytes, he⟩ := h.accepted f List.mem_cons_self
    have hin := h.inside f List.mem_cons_self
    have hw := Layout.encode_length _ _ _ he
    have hl : (Buffer.splice ⟨data, base + f.1.offset⟩ bytes).length = data.length :=
      Buffer.length_splice (hw ▸ hin)
    rw [assemble_cons he hin, assemble_cons he hin]
    exact ih _ (hl ▸ h.tail)
  | swap f g order =>
    intro data h
    obtain ⟨bytes, he⟩ := h.accepted f (List.mem_cons_of_mem g List.mem_cons_self)
    obtain ⟨bytes', he'⟩ := h.accepted g List.mem_cons_self
    have hin := h.inside f (List.mem_cons_of_mem g List.mem_cons_self)
    have hin' := h.inside g List.mem_cons_self
    have hw := Layout.encode_length _ _ _ he
    have hw' := Layout.encode_length _ _ _ he'
    have hl : (Buffer.splice ⟨data, base + f.1.offset⟩ bytes).length = data.length :=
      Buffer.length_splice (hw ▸ hin)
    have hl' : (Buffer.splice ⟨data, base + g.1.offset⟩ bytes').length = data.length :=
      Buffer.length_splice (hw' ▸ hin')
    rw [assemble_cons he' hin', assemble_cons he (hl'.symm ▸ hin), assemble_cons he hin,
      assemble_cons he' (hl.symm ▸ hin')]
    congr 1
    rcases (List.pairwise_cons.mp h.apart).1 f List.mem_cons_self with ha | ha
    · exact Buffer.splice_comm (by omega) (by omega)
    · exact (Buffer.splice_comm (by omega) (by omega)).symm
  | trans hp _ ih ih' =>
    intro data h
    rw [ih data h, ih' data (h.perm hp)]

/-! ### The fields of a struct -/

/-- A field ends where the next one starts, so no two of them have a byte in common. -/
theorem apart_entriesFrom : ∀ (fs : Fields) (start : Nat),
    (fs.entriesFrom start).Pairwise Entry.Apart
  | .nil => fun _ => .nil
  | .cons name type rest => fun start => by
    rw [entriesFrom, List.pairwise_cons]
    refine ⟨?_, apart_entriesFrom rest _⟩
    intro e he
    exact .inl (inside_of_mem_entriesFrom rest _ e he).1

/-- **The fields of a struct are ready** if its values are accepted and it lies in the buffer. -/
theorem ready_entries {fs : Fields} {vs : List Value} {bytes : Bytes}
    (he : Layout.encodeAll fs.types vs = .ok bytes) (hl : vs.length = fs.types.length)
    {base length : Nat} (hb : base + fs.width ≤ length) :
    Ready base length (fs.entries.zip vs) where
  accepted := by
    intro f hf
    have hmem : (f.1.type, f.2) ∈ fs.types.zip vs := by
      rw [← map_type_entriesFrom fs 0, List.zip_map_left]
      exact List.mem_map_of_mem (f := Prod.map Entry.type id) hf
    exact Layout.encode_of_mem_zip he hmem
  inside := by
    intro f hf
    have := inside_of_mem_entriesFrom fs 0 f.1 (List.of_mem_zip hf).1
    omega
  apart := by
    have hfst : (fs.entries.zip vs).map Prod.fst = fs.entries := by
      apply List.map_fst_zip
      rw [hl, ← map_type_entriesFrom fs 0, List.length_map]
      exact Nat.le_refl _
    have hapart := apart_entriesFrom fs 0
    rw [← entries, ← hfst, List.pairwise_map] at hapart
    exact hapart

/-- **In declaration order** each field is written behind the last one, over bytes of any kind. -/
theorem assemble_entriesFrom {base : Nat} : ∀ (fs : Fields) (start : Nat) (vs : List Value)
    (bytes done old rest : Bytes), Layout.encodeAll fs.types vs = .ok bytes →
    vs.length = fs.types.length → done.length = base + start → old.length = fs.width →
      assemble base ((fs.entriesFrom start).zip vs) (done ++ (old ++ rest)) =
        .ok (done ++ (bytes ++ rest))
  | .nil => fun start vs bytes done old rest he hl _ hold => by
    rw [types, List.length_nil, List.length_eq_zero_iff] at hl
    rw [types, hl] at he
    rw [List.length_eq_zero_iff.mp hold, ← Except.ok.inj he]
    rfl
  | .cons name type fields => fun start vs bytes done old rest he hl hdone hold => by
    cases vs with
    | nil => cases hl
    | cons v vs =>
      obtain ⟨first, others, hv, hvs, rfl⟩ := Layout.encodeAll_cons_ok.mp he
      rw [← Layout.totalWidth_types, types] at hold
      obtain ⟨old, old', rfl, hold, hold'⟩ := Layout.exists_append_of_length hold
      rw [Layout.totalWidth_types] at hold'
      have hw := Layout.encode_length type v first hv
      have hput : type.packInto v ⟨done ++ (old ++ (old' ++ rest)), base + start⟩ =
          .ok () (.between (done ++ first) (old' ++ rest)) := by
        rw [Layout.packInto_eq, hv, Buffer.putResult_ok, ← hdone]
        exact Buffer.put_between (hold.trans hw.symm) done _
      have hend : (done ++ first).length = base + (start + type.width) := by
        rw [List.length_append]
        omega
      have hrest := assemble_entriesFrom fields (start + type.width) vs others (done ++ first)
        old' rest hvs (Nat.succ.inj hl) hend hold'
      rw [List.append_assoc, entriesFrom, List.zip_cons_cons, assemble, hput]
      show assemble base _ (done ++ first ++ (old' ++ rest)) =
        .ok (done ++ (first ++ others ++ rest))
      rw [List.append_assoc first, ← List.append_assoc done first]
      exact hrest

/-- **A struct may be made field by field in any order.**  When a struct accepts the values, packing
each of them over its own field, at the offset of the field, is never refused, whatever the order;
and it leaves the buffer that packing the struct leaves, whatever there was before. -/
theorem packInto_assembled {fs : Fields} {vs : List Value} {bytes : Bytes}
    (h : fs.pack vs = .ok bytes) {data : Bytes} {base : Nat}
    (hb : base + fs.width ≤ data.length) {order : List (Entry × Value)}
    (ho : order.Perm (fs.entries.zip vs)) :
    ∃ data', fs.packInto vs ⟨data, base⟩ = .ok () ⟨data', base + fs.width⟩ ∧
      assemble base order data = .ok data' := by
  have he : (Layout.struct fs).encode (.list vs) = .ok bytes := by
    rw [← Layout.pack_eq_encode]
    exact h
  obtain ⟨hl, hall⟩ := Layout.fields_pack_ok.mp h
  obtain ⟨done, old, rest, rfl, hdone, hold⟩ := Buffer.exists_window hb
  have hw : bytes.length = fs.width := Layout.encode_length _ _ _ he
  refine ⟨done ++ (bytes ++ rest), ?_, ?_⟩
  · have hput : fs.packInto vs ⟨done ++ (old ++ rest), base⟩ =
        .ok () ⟨Buffer.splice ⟨done ++ (old ++ rest), base⟩ bytes, base + fs.width⟩ :=
      Layout.packInto_inside (T := .struct fs) he hb
    have hsplice : Buffer.splice ⟨done ++ (old ++ rest), done.length⟩ bytes =
        done ++ (bytes ++ rest) :=
      Buffer.splice_between (hold.trans hw.symm) done rest
    rw [hput, ← hdone, hsplice]
  · have hready := ready_entries hall hl hb
    rw [assemble_perm ho _ (hready.perm ho.symm)]
    exact assemble_entriesFrom fs 0 vs bytes done old rest hall hl hdone hold

/-- A kind, two steps and a size between two other bytes: the last field first, over bytes that are
not zero. -/
theorem packInto_assembled_reversed :
    let fs : Fields := .cons "kind" (.scalar ⟨.uint8, .bigEndian⟩)
      (.cons "steps" (.array (.scalar ⟨.int16, .littleEndian⟩) 2)
        (.cons "size" (.scalar ⟨.uint32, .bigEndian⟩) .nil))
    let vs : List Value :=
      [.number (.int 1), .list [.number (.int (-2)), .number (.int 3)], .number (.int 258)]
    fs.packInto vs ⟨List.replicate 11 7, 1⟩ =
        .ok () ⟨[7, 1, 254, 255, 3, 0, 0, 0, 1, 2, 7], 10⟩ ∧
      assemble 1 (fs.entries.zip vs).reverse (List.replicate 11 7) =
        .ok [7, 1, 254, 255, 3, 0, 0, 0, 1, 2, 7] := by
  intro fs vs
  have hv : fs.pack vs = .ok [1, 254, 255, 3, 0, 0, 0, 1, 2] := rfl
  obtain ⟨data', hall, heach⟩ := packInto_assembled hv
    (show 1 + fs.width ≤ (List.replicate 11 7 : Bytes).length by decide)
    (List.reverse_perm (fs.entries.zip vs))
  obtain rfl : [7, 1, 254, 255, 3, 0, 0, 0, 1, 2, 7] = data' :=
    congrArg Buffer.data (EStateM.Result.ok.inj hall).2
  exact ⟨hall, heach⟩

end Fields

end ByteLayout
