import ByteLayout.Proofs.Layout.Parts
import ByteLayout.Proofs.Layout.Soundness

/-!
# Reading one part

The value of a part can be had without those around it: the part is unpacked by
itself, from the place where its path leads.  By `HasPart.at?_decode` this is the
value that the whole has at the part, and by `HasPart.inside` there are bytes
enough for it.

For the fields of a struct the same is said with names.  The values of all fields
are cut off one after the other, and `zip_decodeAll` reads each of them from the
offset of its field instead; so a name goes with the value that lies where the
name is found.
-/

namespace ByteLayout

namespace Fields

/-- **Names and values side by side**: each value is decoded at the offset of its field. -/
theorem zip_decodeAll (data : Bytes) : ∀ (fs : Fields) (start : Nat),
    fs.names.zip (Layout.decodeAll fs.types (data.drop start)) =
      (fs.entriesFrom start).map fun e =>
        (e.name, e.type.decode (Buffer.next ⟨data, e.offset⟩ e.type.width))
  | .nil => fun _ => rfl
  | .cons name type rest => fun start => by
    have hrest := zip_decodeAll data rest (start + type.width)
    rw [entriesFrom, List.map_cons, ← hrest, types, Layout.decodeAll_cons, List.drop_drop]
    rfl

theorem unpackNamed_eq {fs : Fields} {data : Bytes} (h : data.length = fs.width) :
    fs.unpackNamed data = .ok (fs.entries.map fun e =>
      (e.name, e.type.decode (Buffer.next ⟨data, e.offset⟩ e.type.width))) := by
  rw [unpackNamed, Layout.fields_unpack_eq, if_pos h]
  exact congrArg Except.ok (zip_decodeAll data fs 0)

theorem unpackAt_entry {fs : Fields} {e : Entry} (he : e ∈ fs.entries) {data : Bytes}
    (h : data.length = fs.width) :
    e.type.unpackAt ⟨data, e.offset⟩ =
      .ok (e.type.decode (Buffer.next ⟨data, e.offset⟩ e.type.width))
        ⟨data, e.offset + e.type.width⟩ := by
  have hin := inside_of_mem_entriesFrom fs 0 e he
  exact Layout.unpackAt_inside (by omega)

/-- **What is listed with a name is what belongs to the field that the name finds.** -/
theorem Placed.mem_map_entries {fs : Fields} (h : fs.Placed) (f : Entry → α) (name : String)
    (a : α) : (name, a) ∈ fs.entries.map (fun e => (e.name, f e)) ↔
      ∃ e, fs.field? name = some e ∧ f e = a := by
  rw [List.mem_map]
  constructor
  · rintro ⟨e, he, hea⟩
    obtain ⟨hname, ha⟩ := Prod.mk.inj hea
    exact ⟨e, (h.found name e).mpr ⟨he, hname⟩, ha⟩
  · rintro ⟨e, hfound, ha⟩
    obtain ⟨he, hname⟩ := (h.found name e).mp hfound
    exact ⟨e, he, by rw [hname, ha]⟩

end Fields

namespace Layout

/-- **A part is unpacked by itself** to the value that the whole has there. -/
theorem HasPart.unpackAt {T : Layout} {p : Part} (h : T.HasPart p) {data : Bytes} {base : Nat}
    (hb : base + T.width ≤ data.length) :
    ∃ v w, T.unpackAt ⟨data, base⟩ = .ok v ⟨data, base + T.width⟩ ∧ v.at? p.places = some w ∧
      p.type.unpackAt ⟨data, base + p.offset⟩ =
        .ok w ⟨data, base + p.offset + p.type.width⟩ := by
  have hin := h.inside
  have hv := h.at?_decode _ (Buffer.length_next hb)
  rw [Buffer.next_next _ _ hin] at hv
  exact ⟨_, _, unpackAt_inside hb, hv, unpackAt_inside (by omega)⟩

/-- **Unpacking one part is unpacking the whole and looking there.**  Where the whole has its bytes,
a part is unpacked at the offset of its path, to the value that is found in the whole by the same
path.  The named values of a struct are those that its fields have at their offsets. -/
theorem unpackAt_part :
    (∀ (T : Layout) (path : List Selector) (p : Part), T.at? path = some p →
      ∀ (data : Bytes) (base : Nat), base + T.width ≤ data.length →
        ∃ v w, T.unpackAt ⟨data, base⟩ = .ok v ⟨data, base + T.width⟩ ∧
          v.at? p.places = some w ∧
          p.type.unpackAt ⟨data, base + p.offset⟩ =
            .ok w ⟨data, base + p.offset + p.type.width⟩) ∧
    ∀ fs : Fields, (struct fs).Constructible → ∀ data : Bytes, data.length = fs.width →
      ∃ named, fs.unpackNamed data = .ok named ∧ named.map Prod.fst = fs.names ∧
        fs.names.Nodup ∧
        ∀ name v, (name, v) ∈ named ↔ ∃ e, fs.field? name = some e ∧
          fs.offset? name = some e.offset ∧
          e.type.unpackAt ⟨data, e.offset⟩ = .ok v ⟨data, e.offset + e.type.width⟩ := by
  constructor
  · intro T path p hp data base hb
    exact (hasPart_of_at? hp).unpackAt hb
  · intro fs hfs data h
    have hplaced : fs.Placed := hfs.wellFormed.placed
    refine ⟨_, Fields.unpackNamed_eq h, ?_, hplaced.distinct, ?_⟩
    · rw [List.map_map]
      exact Fields.map_name_entriesFrom fs 0
    · intro name v
      rw [hplaced.mem_map_entries]
      constructor
      · rintro ⟨e, hfound, rfl⟩
        have he := ((hplaced.found name e).mp hfound).1
        exact ⟨e, hfound, by rw [Fields.offset?, hfound, Option.map_some],
          Fields.unpackAt_entry he h⟩
      · rintro ⟨e, hfound, -, hv⟩
        have he := ((hplaced.found name e).mp hfound).1
        rw [Fields.unpackAt_entry he h] at hv
        exact ⟨e, hfound, (EStateM.Result.ok.inj hv).1⟩

/-- The second coordinate of the second point, between two other bytes; and the tag by its name. -/
theorem unpackAt_part_tagged :
    (tagged.at? [.field "points", .element 1, .field "y"] =
        some ⟨.scalar ⟨.float32, .littleEndian⟩, 9, [1, 1, 1]⟩ ∧
      1 + tagged.width ≤ 15 ∧
      ∃ v, tagged.unpackAt ⟨[7, 2, 0, 1, 0, 0, 128, 191, 255, 253, 0, 0, 128, 64, 7], 1⟩ =
          .ok v ⟨[7, 2, 0, 1, 0, 0, 128, 191, 255, 253, 0, 0, 128, 64, 7], 14⟩ ∧
        v.at? [1, 1, 1] = some (.number (.float (.ofNat 0x4010000000000000)))) ∧
    ∃ fs, (struct fs).Constructible ∧ tagged = struct fs ∧
      ∃ named, fs.unpackNamed [2, 0, 1, 0, 0, 128, 191, 255, 253, 0, 0, 128, 64] = .ok named ∧
        named.map Prod.fst = ["tag", "points"] ∧ ("tag", .number (.int 2)) ∈ named := by
  obtain ⟨hpart, hnamed⟩ := unpackAt_part
  have hp : tagged.at? [.field "points", .element 1, .field "y"] =
      some ⟨.scalar ⟨.float32, .littleEndian⟩, 9, [1, 1, 1]⟩ := rfl
  constructor
  · obtain ⟨v, w, hv, hw, hy⟩ := hpart _ _ _ hp
      [7, 2, 0, 1, 0, 0, 128, 191, 255, 253, 0, 0, 128, 64, 7] 1 (by decide)
    obtain rfl : .number (.float (.ofNat 0x4010000000000000)) = w :=
      (EStateM.Result.ok.inj hy).1
    exact ⟨hp, by decide, v, hv, hw⟩
  · obtain ⟨named, hok, hnames, -, hmem⟩ := hnamed _ tagged_constructible
      [2, 0, 1, 0, 0, 128, 191, 255, 253, 0, 0, 128, 64] rfl
    exact ⟨_, tagged_constructible, rfl, named, hok, hnames, (hmem _ _).mpr ⟨_, rfl, rfl, rfl⟩⟩

end Layout

end ByteLayout
