import ByteLayout.Proofs.Registry.Meaning
import ByteLayout.Proofs.Registry.Structs
import ByteLayout.Proofs.Stream.Calls
import ByteLayout.Proofs.Stream.Names

/-!
# Names given as strings

Whoever gives a name as a string has it looked up, and nothing else is done with
the string.  So what a string does when it is read, written or made an array of
is settled by `lookup` alone, in every registry: `standsFor_of_lookup` if it
finds what `resolve` finds for a name, `misses_of_lookup` if it finds nothing.

The spelling of a name is looked up as the name is resolved (`lookup_text`), and
any other string is refused as it is (`lookup_of_not_spelled`).  The registry of
an architecture has a type for every name, so there the strings with a type are
the spellings and no others.
-/

namespace ByteLayout

theorem TypeName.ofString?_eq_none_iff {name : String} :
    ofString? name = none ↔ ∀ n : TypeName, n.text ≠ name := by
  rw [Option.eq_none_iff_forall_ne_some]
  exact forall_congr' fun _ => ofString?_eq_some_iff.not

namespace Registry

/-- **A string stands for a name**: it has the type of the name, and is read and written as the
name is, with the same result and the same effect. -/
structure StandsFor (g : Registry) (name : String) (n : TypeName) : Prop where
  lookup : g.lookup name = g.resolve n
  read : ∀ b : Buffer, Reader.read name ⟨b, g⟩ = Reader.readName n ⟨b, g⟩
  write : ∀ (v : Value) (bytes : Bytes),
    Writer.write name v ⟨bytes, g⟩ = Writer.writeName n v ⟨bytes, g⟩
  array : ∀ s, g.resolve n = .ok s → ∀ count, g.array name count = Layout.arrayOf (.scalar s) count

/-- **A string that stands for nothing**: wherever it is given, it is refused with the one error,
whatever the bytes, the value and the count are, and nothing is changed or noted. -/
structure Misses (g : Registry) (name : String) (e : Error) : Prop where
  lookup : g.lookup name = .error e
  read : ∀ b : Buffer, Reader.read name ⟨b, g⟩ = .error e ⟨b, g⟩
  write : ∀ (v : Value) (bytes : Bytes), Writer.write name v ⟨bytes, g⟩ = .error e ⟨bytes, g⟩
  array : ∀ (count : Nat) (notes : List Event), g.array name count notes = .error e notes

variable {g : Registry} {name : String}

/-! ### Looking up is all that is done -/

theorem standsFor_of_lookup {n : TypeName} (h : g.lookup name = g.resolve n) :
    g.StandsFor name n where
  lookup := h
  read := by
    intro b
    rw [Reader.read_apply, Reader.readName_apply, h]
  write := by
    intro v bytes
    -- What a call appends depends on the type alone, whichever way that was found.
    have hname := (Writer.Call.write name v).run_apply ⟨bytes, g⟩
    rw [Writer.Call.bytes, h] at hname
    exact hname.trans ((Writer.Call.writeName n v).run_apply ⟨bytes, g⟩).symm
  array := by
    intro s hs count
    rw [array, h, hs]
    rfl

theorem misses_of_lookup {e : Error} (h : g.lookup name = .error e) : g.Misses name e where
  lookup := h
  read := by
    intro b
    rw [Reader.read_apply, h]
  write := by
    intro v bytes
    have hname := (Writer.Call.write name v).run_apply ⟨bytes, g⟩
    rw [Writer.Call.bytes, h] at hname
    exact hname
  array := by
    intro count notes
    rw [array, h]
    rfl

/-! ### Spellings and other strings -/

/-- **A spelling is looked up as the name is resolved.** -/
theorem lookup_text (g : Registry) (n : TypeName) : g.lookup n.text = g.resolve n := by
  rw [lookup, TypeName.ofString?_text, Option.bind_some, resolve]

theorem lookup_of_not_spelled (h : ∀ n : TypeName, n.text ≠ name) :
    g.lookup name = .error (.typeNotFound name g.target) := by
  apply lookup_of_unknown
  rw [TypeName.ofString?_eq_none_iff.mpr h, Option.bind_none]

theorem resolve_derive (a : Architecture) (o : ByteOrder) (n : TypeName) :
    (derive a o).resolve n = .ok ⟨n.primitive a.wordSize, o⟩ := by
  rw [resolve, get_derive]

/-- **Strings are names by their exact spelling, and behave as the names do.**  Every name has a
type in the registry of an architecture, in its order.  A string has one exactly if it is the
spelling of a name, and is then used as the name is; any other string is refused wherever it is
given, before anything else is looked at. -/
theorem lookup_exact (a : Architecture) (o : ByteOrder) :
    (∀ n : TypeName, ∃ s : Scalar, s.order = o ∧
      (derive a o).get n = some s ∧ (derive a o).resolve n = .ok s) ∧
    ∀ name : String,
      ((∃ s, (derive a o).lookup name = .ok s) ↔ ∃ n : TypeName, n.text = name) ∧
      (∀ n : TypeName, n.text = name → (derive a o).StandsFor name n) ∧
      ((∀ n : TypeName, n.text ≠ name) →
        (derive a o).Misses name (.typeNotFound name ⟨a, o⟩)) := by
  refine ⟨fun n => ⟨_, rfl, get_derive a o n, resolve_derive a o n⟩, ?_⟩
  intro name
  refine ⟨?_, ?_, fun h => misses_of_lookup (lookup_of_not_spelled h)⟩
  · constructor
    · rintro ⟨s, hs⟩
      by_contra hn
      rw [lookup_of_not_spelled (not_exists.mp hn)] at hs
      cases hs
    · rintro ⟨n, rfl⟩
      exact ⟨_, (lookup_text _ n).trans (resolve_derive a o n)⟩
  · rintro n rfl
    exact standsFor_of_lookup (lookup_text _ n)

/-- A spelling is read as its name, from the middle of the bytes; with a capital letter or a zero
character behind it, it is refused before there is anything to read, and before the list is found
to be no number or the array to be too large. -/
theorem lookup_exact_pointer :
    let g := derive .arm64 .bigEndian
    let b : Buffer := ⟨[9, 0, 0, 0, 0, 0, 0, 1, 2], 1⟩
    (TypeName.pointer.text = "pointer" ∧ g.lookup "pointer" = .ok ⟨.uint64, .bigEndian⟩ ∧
      Reader.read "pointer" ⟨b, g⟩ = Reader.readName .pointer ⟨b, g⟩) ∧
    ((∀ n : TypeName, n.text ≠ "Pointer") ∧
      Reader.read "Pointer" ⟨⟨[], 0⟩, g⟩ =
        .error (.typeNotFound "Pointer" ⟨.arm64, .bigEndian⟩) ⟨⟨[], 0⟩, g⟩) ∧
    (∀ n : TypeName, n.text ≠ "pointer\x00") ∧
      Writer.write "pointer\x00" (.list []) ⟨[7], g⟩ =
        .error (.typeNotFound "pointer\x00" ⟨.arm64, .bigEndian⟩) ⟨[7], g⟩ ∧
      g.array "pointer\x00" addressSpace [] =
        .error (.typeNotFound "pointer\x00" ⟨.arm64, .bigEndian⟩) [] := by
  intro g b
  obtain ⟨-, hname⟩ := lookup_exact .arm64 .bigEndian
  have hspelled := (hname "pointer").2.1 .pointer rfl
  have hcapital : ∀ n : TypeName, n.text ≠ "Pointer" := by
    intro n
    cases n <;> decide
  have hzero : ∀ n : TypeName, n.text ≠ "pointer\x00" := by
    intro n
    cases n <;> decide
  have hmiss := (hname "pointer\x00").2.2 hzero
  refine ⟨⟨rfl, hspelled.lookup.trans (resolve_derive _ _ _), hspelled.read b⟩,
    ⟨hcapital, ((hname "Pointer").2.2 hcapital).read _⟩, hzero, hmiss.write _ _, hmiss.array _ _⟩

end Registry

end ByteLayout
