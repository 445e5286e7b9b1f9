import ByteLayout.Stream.Reader
import ByteLayout.Proofs.Layout.Decoding
import Mathlib.Data.Nat.Find

/-!
# Names read one after the other

Reading by name is done a name at a time: it is looked up, and then the bytes of
its type are asked for.  So a list of names comes to a stop at the first of them
that has no type or is wider than what is left, and what stands behind it is not
looked at.  `faultAt` is the reason to stop at a place of the list, the names
before it being read.

`readNames_of_faultless` and `readNames_of_fault` are the two outcomes: the
values of all the names, from the bytes of their types one after the other, or
the first fault and the reader as it was.
-/

namespace ByteLayout

/-! ### Types of names -/

namespace Registry

/-- **The types of names**, in the order of the names; those without a type are left out. -/
def typesOf (g : Registry) (names : List String) : List Layout :=
  names.filterMap fun name => (g.lookup name).toOption.map Layout.scalar

/-- The reason why a name is not read where `left` bytes are left: it has no type, or is wider. -/
def fault? (g : Registry) (left : Nat) (name : String) : Option Error :=
  match g.lookup name with
  | .ok s => if left < s.width then some (.lengthMismatch s.width left) else none
  | .error _ => some (.typeNotFound name g.target)

theorem typesOf_cons {g : Registry} {name : String} {s : Scalar} (h : g.lookup name = .ok s)
    (names : List String) : g.typesOf (name :: names) = .scalar s :: g.typesOf names := by
  simp [typesOf, h, Except.toOption]

theorem lookup_error {g : Registry} {name : String} {e : Error} (h : g.lookup name = .error e) :
    e = .typeNotFound name g.target := by
  rw [lookup] at h
  split at h
  · cases h
  · exact (Except.error.inj h).symm

theorem fault?_eq_none {g : Registry} {left : Nat} {name : String} :
    g.fault? left name = none ↔ ∃ s, g.lookup name = .ok s ∧ s.width ≤ left := by
  rw [fault?]
  cases g.lookup name with
  | error e => simp
  | ok s => simp

end Registry

namespace Reader

open Steps

/-! ### What is read, and the reader after it -/

/-- The reader `n` bytes further on. -/
def past (r : Reader) (n : Nat) : Reader :=
  { r with buffer := { r.buffer with offset := r.buffer.offset + n } }

@[simp] theorem past_position (r : Reader) (n : Nat) : (r.past n).position = r.position + n := rfl

@[simp] theorem past_registry (r : Reader) (n : Nat) : (r.past n).registry = r.registry := rfl

theorem past_past (r : Reader) (m n : Nat) : (r.past m).past n = r.past (m + n) := by
  simp only [past, Nat.add_assoc]

theorem past_remaining (r : Reader) (n : Nat) : (r.past n).remaining = r.remaining - n := by
  show r.buffer.data.length - (r.buffer.offset + n) = r.buffer.data.length - r.buffer.offset - n
  omega

/-- **The outcomes of reading**: there are too few bytes, or the reader has passed them. -/
theorem onBuffer_apply {act : BufferM α} {width : Nat} {f : Bytes → α}
    (h : Buffer.Takes act width f) (r : Reader) :
    onBuffer act r =
      if r.remaining < width then .error (.lengthMismatch width r.remaining) r
      else .ok (f (r.buffer.next width)) (r.past width) := by
  rw [onBuffer, h]
  by_cases hb : r.buffer.remaining < width
  · have hr : r.remaining < width := hb
    simp only [if_pos hb, if_pos hr]
    rfl
  · have hr : ¬r.remaining < width := hb
    simp only [if_neg hb, if_neg hr]
    rfl

theorem readLayout_apply (T : Layout) (r : Reader) :
    readLayout T r =
      if r.remaining < T.width then .error (.lengthMismatch T.width r.remaining) r
      else .ok (T.decode (r.buffer.next T.width)) (r.past T.width) :=
  onBuffer_apply T.takes_unpackAt r

theorem readScalar_apply (s : Scalar) (r : Reader) :
    readScalar s r =
      if r.remaining < s.width then .error (.lengthMismatch s.width r.remaining) r
      else .ok ((Layout.scalar s).decode (r.buffer.next s.width)) (r.past s.width) :=
  readLayout_apply (.scalar s) r

theorem readFields_apply (fs : Fields) (r : Reader) :
    readFields fs r =
      if r.remaining < fs.width then .error (.lengthMismatch fs.width r.remaining) r
      else .ok (Layout.decodeAll fs.types (r.buffer.next fs.width)) (r.past fs.width) :=
  onBuffer_apply (Layout.takes_fields_unpackAt fs) r

theorem skip_apply (n : Nat) {r : Reader} (hr : r.position ≤ r.length) :
    skip n r = if r.remaining < n then .error (.lengthMismatch n r.remaining) r
      else .ok () (r.past n) := by
  rw [skip, onBuffer, bind_apply, Buffer.require_apply]
  by_cases h : r.buffer.remaining < n
  · have hr : r.remaining < n := h
    simp only [if_pos h, if_pos hr]
    rfl
  · have hin := Buffer.inside_of_enough h (.inl hr)
    have hr : ¬r.remaining < n := h
    simp only [if_neg h, if_neg hr, Buffer.advance_apply, if_neg (Nat.not_lt.mpr hin)]
    rfl

/-! ### One name -/

theorem read_apply (name : String) (r : Reader) :
    read name r = match r.registry.lookup name with
      | .ok s => readScalar s r
      | .error e => .error e r := by
  rw [read, bind_apply, get_apply]
  simp only [bind_apply, ofExcept_apply]
  cases r.registry.lookup name <;> rfl

theorem readName_apply (n : TypeName) (r : Reader) :
    readName n r = match r.registry.resolve n with
      | .ok s => readScalar s r
      | .error e => .error e r := by
  rw [readName, bind_apply, get_apply]
  simp only [bind_apply, ofExcept_apply]
  cases r.registry.resolve n <;> rfl

theorem read_of_fault {name : String} {r : Reader} {e : Error}
    (h : r.registry.fault? r.remaining name = some e) : read name r = .error e r := by
  rw [read_apply]
  rw [Registry.fault?] at h
  cases hs : r.registry.lookup name with
  | error e' =>
    rw [hs] at h
    rw [← Option.some.inj h, Registry.lookup_error hs]
  | ok s =>
    simp only [hs] at h
    split at h
    · rename_i hw
      simp only [readScalar_apply, if_pos hw, Option.some.inj h]
    · cases h

theorem read_of_room {name : String} {r : Reader} {s : Scalar}
    (hs : r.registry.lookup name = .ok s) (hw : s.width ≤ r.remaining) :
    read name r = .ok ((Layout.scalar s).decode (r.buffer.next s.width)) (r.past s.width) := by
  rw [read_apply, hs]
  simp only [readScalar_apply, if_neg (Nat.not_lt.mpr hw)]

/-! ### One name after the other -/

/-- **The reason to stop at a place of the list**, the names before it being read. -/
def faultAt (r : Reader) (names : List String) (i : Nat) : Option Error :=
  names[i]?.bind
    (r.registry.fault? (r.remaining - Layout.totalWidth (r.registry.typesOf (names.take i))))

/-- What is left behind a name that was read is what the reader after it has left. -/
theorem faultAt_succ {r : Reader} {name : String} {s : Scalar}
    (hs : r.registry.lookup name = .ok s) (names : List String) (i : Nat) :
    r.faultAt (name :: names) (i + 1) = (r.past s.width).faultAt names i := by
  have hw : (Layout.scalar s).width = s.width := rfl
  rw [faultAt, faultAt, List.getElem?_cons_succ, List.take_succ_cons, Registry.typesOf_cons hs,
    Layout.totalWidth, past_remaining, past_registry, hw, Nat.sub_sub]

theorem faultless_iff (names : List String) : ∀ r : Reader, (∀ i, r.faultAt names i = none) ↔
    (∀ name ∈ names, ∃ s, r.registry.lookup name = .ok s) ∧
      Layout.totalWidth (r.registry.typesOf names) ≤ r.remaining := by
  induction names with
  | nil =>
    intro r
    exact ⟨fun _ => ⟨nofun, Nat.zero_le _⟩, fun _ _ => rfl⟩
  | cons name names ih =>
    intro r
    constructor
    · intro h
      obtain ⟨s, hs, hw⟩ := Registry.fault?_eq_none.mp (h 0)
      have hrest : ∀ i, (r.past s.width).faultAt names i = none := by
        intro i
        rw [← faultAt_succ hs]
        exact h (i + 1)
      obtain ⟨hnames, hfit⟩ := (ih _).mp hrest
      rw [past_remaining, past_registry] at hfit
      refine ⟨List.forall_mem_cons.mpr ⟨⟨s, hs⟩, hnames⟩, ?_⟩
      rw [Registry.typesOf_cons hs, Layout.totalWidth]
      show s.width + _ ≤ _
      omega
    · rintro ⟨hnames, hfit⟩ i
      obtain ⟨⟨s, hs⟩, hnames⟩ := List.forall_mem_cons.mp hnames
      rw [Registry.typesOf_cons hs, Layout.totalWidth] at hfit
      have hw : s.width ≤ r.remaining := Nat.le_trans (Nat.le_add_right _ _) hfit
      cases i with
      | zero => exact Registry.fault?_eq_none.mpr ⟨s, hs, hw⟩
      | succ i =>
        rw [faultAt_succ hs]
        refine (ih (r.past s.width)).mpr ⟨hnames, ?_⟩ i
        rw [past_remaining, past_registry]
        change s.width + _ ≤ _ at hfit
        omega

/-- **A list either has no fault or has a first one.** -/
theorem faultless_or_first (r : Reader) (names : List String) :
    (∀ i, r.faultAt names i = none) ∨
      ∃ i e, r.faultAt names i = some e ∧ ∀ j < i, r.faultAt names j = none := by
  by_cases h : ∃ i, r.faultAt names i ≠ none
  · obtain ⟨e, he⟩ := Option.ne_none_iff_exists'.mp (Nat.find_spec h)
    exact .inr ⟨Nat.find h, e, he, fun j hj => not_not.mp (Nat.find_min h hj)⟩
  · exact .inl fun i => not_not.mp fun hi => h ⟨i, hi⟩

/-- Names that have no fault are read from the bytes of their types. -/
theorem readEach_of_faultless (names : List String) : ∀ {r : Reader},
    (∀ i, r.faultAt names i = none) →
    let Ts := r.registry.typesOf names
    readEach names r = .ok (Layout.decodeAll Ts (r.buffer.next (Layout.totalWidth Ts)))
      (r.past (Layout.totalWidth Ts)) := by
  induction names with
  | nil => intro r _; rfl
  | cons name names ih =>
    intro r h
    obtain ⟨s, hs, hw⟩ := Registry.fault?_eq_none.mp (h 0)
    have hrest := ih (r := r.past s.width) fun i => faultAt_succ hs names i ▸ h (i + 1)
    have hwidth : (Layout.scalar s).width = s.width := rfl
    obtain ⟨htake, hdrop⟩ := Layout.next_append r.buffer s.width
      (Layout.totalWidth (r.registry.typesOf names))
    simp only [readEach, bind_apply, read_of_room hs hw, hrest, pure_apply, past_past,
      past_registry, Registry.typesOf_cons hs, Layout.decodeAll_cons, Layout.totalWidth, hwidth,
      htake, hdrop]
    rfl

/-- The first fault stops the reading, somewhere in the same bytes. -/
theorem readEach_of_fault (names : List String) : ∀ {r : Reader} {i : Nat} {e : Error},
    r.faultAt names i = some e → (∀ j < i, r.faultAt names j = none) →
    ∃ s, readEach names r = .error e s ∧ s.buffer.data = r.buffer.data ∧
      s.registry = r.registry := by
  induction names with
  | nil => intro r i e h _; cases h
  | cons name names ih =>
    intro r i e h hfirst
    cases i with
    | zero =>
      refine ⟨r, ?_, rfl, rfl⟩
      simp only [readEach, bind_apply, read_of_fault h]
    | succ i =>
      obtain ⟨s, hs, hw⟩ := Registry.fault?_eq_none.mp (hfirst 0 (Nat.succ_pos i))
      rw [faultAt_succ hs] at h
      have hbefore : ∀ j < i, (r.past s.width).faultAt names j = none := by
        intro j hj
        rw [← faultAt_succ hs]
        exact hfirst (j + 1) (Nat.succ_lt_succ hj)
      obtain ⟨t, ht, hdata, hregistry⟩ := ih h hbefore
      refine ⟨t, ?_, hdata, hregistry⟩
      simp only [readEach, bind_apply, read_of_room hs hw, ht]

/-! ### All names, or none -/

theorem readNames_of_faultless {names : List String} {r : Reader}
    (h : ∀ i, r.faultAt names i = none) :
    let Ts := r.registry.typesOf names
    readNames names r = .ok (Layout.decodeAll Ts (r.buffer.next (Layout.totalWidth Ts)))
      (r.past (Layout.totalWidth Ts)) := by
  simp only [readNames, transactional, readEach_of_faultless names h]

/-- **The first fault is the error**, and the reader is as it was. -/
theorem readNames_of_fault {names : List String} {r : Reader} {i : Nat} {e : Error}
    (h : r.faultAt names i = some e) (hfirst : ∀ j < i, r.faultAt names j = none) :
    readNames names r = .error e r := by
  obtain ⟨⟨⟨data, place⟩, g⟩, hs, hdata, hregistry⟩ := readEach_of_fault names h hfirst
  obtain rfl : data = r.buffer.data := hdata
  obtain rfl : g = r.registry := hregistry
  simp only [readNames, transactional, hs]
  rfl

theorem readNames_ok_iff {names : List String} {r s : Reader} {vs : List Value} :
    readNames names r = .ok vs s ↔
      (∀ name ∈ names, ∃ s, r.registry.lookup name = .ok s) ∧
      Layout.totalWidth (r.registry.typesOf names) ≤ r.remaining ∧
      readEach names r = .ok vs s := by
  rw [← and_assoc, ← faultless_iff]
  rcases faultless_or_first r names with h | ⟨i, e, he, hfirst⟩
  · rw [readNames_of_faultless h, readEach_of_faultless names h]
    exact (and_iff_right h).symm
  · rw [readNames_of_fault he hfirst]
    refine ⟨nofun, fun h => ?_⟩
    rw [h.1 i] at he
    cases he

theorem readNames_error_iff {names : List String} {r s : Reader} {e : Error} :
    readNames names r = .error e s ↔
      s = r ∧ ∃ i, r.faultAt names i = some e ∧ ∀ j < i, r.faultAt names j = none := by
  constructor
  · intro h
    rcases faultless_or_first r names with hno | ⟨i, e', he, hfirst⟩
    · rw [readNames_of_faultless hno] at h
      cases h
    · rw [readNames_of_fault he hfirst] at h
      obtain ⟨rfl, rfl⟩ := EStateM.Result.error.inj h
      exact ⟨rfl, i, he, hfirst⟩
  · rintro ⟨rfl, i, he, hfirst⟩
    exact readNames_of_fault he hfirst

end Reader

end ByteLayout
