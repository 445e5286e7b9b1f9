import ByteLayout.Layout.Codec
import ByteLayout.Proofs.Buffer

/-!
# Layouts by their members

An array and a struct differ in how they name their members, not in how the
members lie: one after the other, without a gap.  So everything about the bytes
of a composite layout is said of `members`, the layouts of its members in
declaration order, where an array repeats its element.

`byMembers` is the induction that goes with it, and `fold` the recursion: a
function of layouts is given on scalars, and on composites from what it makes of
the members.  The packing and unpacking of `ByteLayout.Layout.Codec` is of this
kind too: `pack_composite`, `packInto_composite` and `unpackAt_composite` say it
once for arrays and structs.
-/

namespace ByteLayout

namespace Fields

/-- The layouts of the fields, in declaration order. -/
def types : Fields → List Layout
  | .nil => []
  | .cons _ type rest => type :: rest.types

theorem length_types : ∀ fs : Fields, fs.types.length = fs.length
  | .nil => rfl
  | .cons _ type rest => by rw [types, List.length_cons, length_types rest, length]

theorem map_type_entriesFrom : ∀ (fs : Fields) (start : Nat),
    (fs.entriesFrom start).map Entry.type = fs.types
  | .nil => fun _ => rfl
  | .cons _ type rest => fun start => by
    rw [entriesFrom, List.map_cons, map_type_entriesFrom rest, types]

/-- **A field lies within the struct.** -/
theorem inside_of_mem_entriesFrom : ∀ (fs : Fields) (start : Nat), ∀ e ∈ fs.entriesFrom start,
    start ≤ e.offset ∧ e.offset + e.type.width ≤ start + fs.width
  | .nil => fun _ _ he => by cases he
  | .cons name type rest => fun start e he => by
    rw [width]
    rw [entriesFrom] at he
    rcases List.mem_cons.mp he with rfl | he
    · show start ≤ start ∧ start + type.width ≤ _
      omega
    · have := inside_of_mem_entriesFrom rest _ e he
      omega

end Fields

namespace Layout

/-- **The layouts of the members**, in declaration order; a scalar has none. -/
def members : Layout → List Layout
  | .scalar _ => []
  | .array element count => List.replicate count element
  | .struct fields => fields.types

/-- The number of bytes that layouts take one after the other. -/
def totalWidth : List Layout → Nat
  | [] => 0
  | T :: Ts => T.width + totalWidth Ts

end Layout

mutual

/-- **Induction over the members**: a property of layouts holds if scalars have it, and composites
whose members do. -/
@[elab_as_elim]
theorem Layout.byMembers {P : Layout → Prop} (scalar : ∀ s, P (.scalar s))
    (composite : ∀ T, T.scalar? = none → (∀ U ∈ T.members, P U) → P T) : ∀ T, P T
  | .scalar s => scalar s
  | .array element _ => composite _ rfl fun _ h =>
    List.eq_of_mem_replicate h ▸ Layout.byMembers scalar composite element
  | .struct fields => composite _ rfl (fields.byMembers scalar composite)

theorem Fields.byMembers {P : Layout → Prop} (scalar : ∀ s, P (.scalar s))
    (composite : ∀ T, T.scalar? = none → (∀ U ∈ T.members, P U) → P T) :
    ∀ (fs : Fields), ∀ U ∈ fs.types, P U
  | .nil, _, h => nomatch h
  | .cons _ type rest, U, h =>
    (List.mem_cons.mp h).elim (fun e => e ▸ Layout.byMembers scalar composite type)
      (rest.byMembers scalar composite U)

end

mutual

/-- **Recursion over the members**: `node` is given the members and what was made of each. -/
def Layout.fold (leaf : Scalar → α) (node : List Layout → List α → α) : Layout → α
  | .scalar s => leaf s
  | .array element count =>
    node (List.replicate count element) (List.replicate count (element.fold leaf node))
  | .struct fields => node fields.types (fields.foldEach leaf node)

def Fields.foldEach (leaf : Scalar → α) (node : List Layout → List α → α) : Fields → List α
  | .nil => []
  | .cons _ type rest => type.fold leaf node :: rest.foldEach leaf node

end

theorem Fields.foldEach_eq (leaf : Scalar → α) (node : List Layout → List α → α) :
    ∀ fs : Fields, fs.foldEach leaf node = fs.types.map (Layout.fold leaf node)
  | .nil => rfl
  | .cons _ type rest => by rw [foldEach, foldEach_eq leaf node rest, types, List.map_cons]

namespace Layout

@[simp] theorem fold_scalar (leaf : Scalar → α) (node : List Layout → List α → α) (s : Scalar) :
    (scalar s).fold leaf node = leaf s := rfl

/-- **What a fold makes of a composite** comes from its members alone. -/
theorem fold_composite (leaf : Scalar → α) (node : List Layout → List α → α) {T : Layout}
    (h : T.scalar? = none) :
    T.fold leaf node = node T.members (T.members.map (fold leaf node)) := by
  cases T with
  | scalar s => exact nomatch h
  | array element count => rw [fold, members, List.map_replicate]
  | struct fields => rw [fold, members, Fields.foldEach_eq]

/-! ### Width -/

theorem totalWidth_append (Ts Us : List Layout) :
    totalWidth (Ts ++ Us) = totalWidth Ts + totalWidth Us := by
  induction Ts with
  | nil => rw [List.nil_append, totalWidth, Nat.zero_add]
  | cons T Ts ih => rw [List.cons_append, totalWidth, ih, totalWidth, Nat.add_assoc]

theorem totalWidth_replicate (T : Layout) (n : Nat) :
    totalWidth (List.replicate n T) = T.width * n := by
  induction n with
  | zero => rfl
  | succ n ih => rw [List.replicate_succ, totalWidth, ih, Nat.mul_succ, Nat.add_comm]

theorem totalWidth_types : ∀ fs : Fields, totalWidth fs.types = fs.width
  | .nil => rfl
  | .cons _ type rest => by rw [Fields.types, totalWidth, totalWidth_types rest, Fields.width]

theorem width_composite {T : Layout} (h : T.scalar? = none) : T.width = totalWidth T.members := by
  cases T with
  | scalar s => exact nomatch h
  | array element count => rw [width, members, totalWidth_replicate]
  | struct fields => rw [width, members, totalWidth_types]

/-! ### Packing and unpacking -/

/-- Packs one value into each layout, one after the other. -/
def packAll : List Layout → List Value → BufferM Unit
  | [], _ => return
  | _ :: _, [] => return
  | T :: Ts, v :: vs => do
    T.packInto v
    packAll Ts vs

/-- The value of each layout, one after the other. -/
def unpackAll : List Layout → BufferM (List Value)
  | [] => return []
  | T :: Ts => do
    let v ← T.unpackAt
    let vs ← unpackAll Ts
    return v :: vs

theorem packEach_eq : ∀ (fs : Fields) (vs : List Value), fs.packEach vs = packAll fs.types vs
  | .nil, vs => by rw [Fields.packEach, Fields.types, packAll]
  | .cons _ type rest, [] => by rw [Fields.packEach, Fields.types, packAll]
  | .cons _ type rest, v :: vs => by
    rw [Fields.packEach, Fields.types, packAll, packEach_eq rest]

theorem forM_packInto (T : Layout) (vs : List Value) :
    vs.forM T.packInto = packAll (List.replicate vs.length T) vs := by
  induction vs with
  | nil => rfl
  | cons v vs ih =>
    rw [List.length_cons, List.replicate_succ, packAll, ← ih]
    rfl

theorem unpackEach_eq : ∀ fs : Fields, fs.unpackEach = unpackAll fs.types
  | .nil => by rw [Fields.unpackEach, Fields.types, unpackAll]
  | .cons _ type rest => by rw [Fields.unpackEach, Fields.types, unpackAll, unpackEach_eq rest]

theorem repeated_unpackAt (T : Layout) (n : Nat) :
    Buffer.repeated n T.unpackAt = unpackAll (List.replicate n T) := by
  induction n with
  | zero => rfl
  | succ n ih => rw [Buffer.repeated, ih, List.replicate_succ, unpackAll]

/-- Only lists of the right length are packed, so only on those does it matter how. -/
theorem packMembers_congr (width count : Nat) {f g : List Value → BufferM Unit}
    (h : ∀ vs : List Value, vs.length = count → f vs = g vs) (vs : List Value) :
    Buffer.packMembers width count f vs = Buffer.packMembers width count g vs := by
  rw [Buffer.packMembers, Buffer.packMembers, expectCount]
  split
  · rename_i hc
    rw [h vs hc]
  · rfl

/-- **How a composite is packed.** -/
theorem pack_composite {T : Layout} (h : T.scalar? = none) (v : Value) :
    T.pack v = (do
      let vs ← v.expectList
      Buffer.packMembers T.width T.members.length (packAll T.members) vs) := by
  cases T with
  | scalar s => exact nomatch h
  | array element count =>
    have hc : Buffer.packMembers (element.width * count) count (fun vs => vs.forM element.packInto)
        = Buffer.packMembers (element.width * count) count
          (packAll (List.replicate count element)) := by
      funext vs
      apply packMembers_congr
      intro vs hvs
      rw [forM_packInto, hvs]
    rw [pack, hc, width, members, List.length_replicate]
  | struct fields =>
    have hp : fields.packEach = packAll fields.types := funext (packEach_eq fields)
    rw [pack, width, members, Fields.length_types, ← hp]
    rfl

/-- A composite is packed on its own first, and then put into the buffer. -/
theorem packInto_composite {T : Layout} (h : T.scalar? = none) (v : Value) :
    T.packInto v = Buffer.putResult (T.pack v) := by
  cases T with
  | scalar s => exact nomatch h
  | array element count =>
    rw [packInto, pack]
    cases v.expectList <;> rfl
  | struct fields =>
    rw [packInto, pack]
    cases v.expectList <;> rfl

/-- **How a composite is unpacked.** -/
theorem unpackAt_composite {T : Layout} (h : T.scalar? = none) :
    T.unpackAt = (do
      let vs ← Buffer.unpackMembers T.width (unpackAll T.members)
      return .list vs) := by
  cases T with
  | scalar s => exact nomatch h
  | array element count => rw [unpackAt, repeated_unpackAt, width, members]
  | struct fields => rw [unpackAt, unpackEach_eq, width, members]

end Layout

end ByteLayout
