import ByteLayout.Proofs.Stream.Names

/-!
# Programs of a reader

A `Reader.Call` is one use of a reader.  A `Program` makes calls and blocks of
calls, one after the other, and learns what came of each: so it may depend on
the values read, stop at a refusal, or catch it and go on, inside a block as
well as outside.  `calls` are the calls that it comes to make, each with the
reader that it is made on.

`Moved r s` says that `s` is the reader `r` at some place within its bytes.
`Call.run_ok` and `Call.run_error` are what one call does to a reader: it moves
it, or it is refused and does not.  By `moved_run` and `moved_calls` the reader
of a program is at every moment one that was only moved.
-/

namespace ByteLayout.Reader

open Steps

/-! ### One call -/

inductive Call where
  | seek (place : Nat)
  | skip (n : Nat)
  | read (name : String)
  | readName (n : TypeName)
  | readNames (names : List String)
  | readScalar (s : Scalar)
  | readLayout (T : Layout)
  | readFields (fs : Fields)

/-- Makes a call, with the values that are read. -/
def Call.run : Call → ReadM (List Value)
  | .seek place => do
    Reader.seek place
    return []
  | .skip n => do
    Reader.skip n
    return []
  | .read name => do
    let v ← Reader.read name
    return [v]
  | .readName n => do
    let v ← Reader.readName n
    return [v]
  | .readNames names => Reader.readNames names
  | .readScalar s => do
    let v ← Reader.readScalar s
    return [v]
  | .readLayout T => do
    let v ← Reader.readLayout T
    return [v]
  | .readFields fs => Reader.readFields fs

/-- **The same reader at a place within its bytes.** -/
structure Moved (r s : Reader) : Prop where
  data : s.buffer.data = r.buffer.data
  registry : s.registry = r.registry
  inside : s.position ≤ s.length

namespace Moved

theorem refl {r : Reader} (h : r.position ≤ r.length) : Moved r r := ⟨rfl, rfl, h⟩

theorem trans {r s t : Reader} (h : Moved r s) (g : Moved s t) : Moved r t :=
  ⟨g.data.trans h.data, g.registry.trans h.registry, g.inside⟩

/-- A reader is moved past bytes that it has left. -/
theorem past {r : Reader} (h : r.position ≤ r.length) {n : Nat} (hn : n ≤ r.remaining) :
    Moved r (r.past n) :=
  ⟨rfl, rfl, Nat.add_le_of_le_sub' h hn⟩

/-- Back where it was, a reader that was moved is the same. -/
theorem back {r s : Reader} (h : Moved r s) :
    { s with buffer := { s.buffer with offset := r.position } } = r := by
  obtain ⟨⟨data, place⟩, registry⟩ := r
  obtain ⟨⟨data', place'⟩, registry'⟩ := s
  obtain rfl : data' = data := h.data
  obtain rfl : registry' = registry := h.registry
  rfl

end Moved

/-- **What may come of a step**: done, it moved the reader, and refused, it left it, and not for a
window outside the bytes. -/
def Steady (r : Reader) : EStateM.Result Error Reader α → Prop
  | .ok _ s => Moved r s
  | .error e s => s = r ∧ e ≠ .outOfBounds

theorem steady_map {act : ReadM α} {r : Reader} (h : Steady r (act r)) (f : α → β) :
    Steady r ((do let a ← act; return f a) r) := by
  rw [bind_apply]
  cases ha : act r with
  | ok a s =>
    rw [ha] at h
    exact h
  | error e s =>
    rw [ha] at h
    exact h

theorem steady_onBuffer {act : BufferM α} {width : Nat} {f : Bytes → α}
    (h : Buffer.Takes act width f) {r : Reader} (hr : r.position ≤ r.length) :
    Steady r (onBuffer act r) := by
  rw [onBuffer_apply h]
  by_cases hb : r.remaining < width
  · rw [if_pos hb]
    exact ⟨rfl, nofun⟩
  · rw [if_neg hb]
    exact Moved.past hr (Nat.not_lt.mp hb)

theorem steady_seek (place : Nat) (r : Reader) : Steady r (seek place r) := by
  rw [seek, bind_apply, get_apply]
  by_cases h : r.length < place
  · simp only [if_pos h]
    exact ⟨rfl, nofun⟩
  · simp only [if_neg h]
    exact ⟨rfl, rfl, Nat.not_lt.mp h⟩

theorem steady_skip (n : Nat) {r : Reader} (hr : r.position ≤ r.length) :
    Steady r (skip n r) := by
  rw [skip_apply n hr]
  by_cases h : r.remaining < n
  · rw [if_pos h]
    exact ⟨rfl, nofun⟩
  · rw [if_neg h]
    exact Moved.past hr (Nat.not_lt.mp h)

theorem steady_readLayout (T : Layout) {r : Reader} (hr : r.position ≤ r.length) :
    Steady r (readLayout T r) :=
  steady_onBuffer T.takes_unpackAt hr

theorem steady_readScalar (s : Scalar) {r : Reader} (hr : r.position ≤ r.length) :
    Steady r (readScalar s r) :=
  steady_readLayout (.scalar s) hr

theorem steady_readFields (fs : Fields) {r : Reader} (hr : r.position ≤ r.length) :
    Steady r (readFields fs r) :=
  steady_onBuffer (Layout.takes_fields_unpackAt fs) hr

theorem steady_readName (n : TypeName) {r : Reader} (hr : r.position ≤ r.length) :
    Steady r (readName n r) := by
  rw [readName_apply, Registry.resolve]
  cases r.registry.get n with
  | none => exact ⟨rfl, nofun⟩
  | some s => exact steady_readScalar s hr

theorem steady_read (name : String) {r : Reader} (hr : r.position ≤ r.length) :
    Steady r (read name r) := by
  rw [read_apply, Registry.lookup]
  cases (TypeName.ofString? name).bind r.registry.get with
  | none =>
    refine ⟨rfl, ?_⟩
    intro h
    cases h
  | some s => exact steady_readScalar s hr

theorem faultAt_ne_outOfBounds {r : Reader} {names : List String} {i : Nat} {e : Error}
    (h : r.faultAt names i = some e) : e ≠ .outOfBounds := by
  obtain ⟨name, -, h⟩ := Option.bind_eq_some_iff.mp h
  rintro rfl
  rw [Registry.fault?] at h
  split at h
  · split at h <;> cases h
  · cases h

theorem steady_readNames (names : List String) {r : Reader} (hr : r.position ≤ r.length) :
    Steady r (readNames names r) := by
  rcases faultless_or_first r names with h | ⟨i, e, he, hfirst⟩
  · rw [readNames_of_faultless h]
    exact Moved.past hr ((faultless_iff names r).mp h).2
  · rw [readNames_of_fault he hfirst]
    exact ⟨rfl, faultAt_ne_outOfBounds he⟩

/-- **A block puts a reader back** that was only moved. -/
theorem transactional_apply {act : EStateM ε Reader α} {r : Reader}
    (h : ∀ e s, act r = .error e s → Moved r s) :
    transactional act r = match act r with
      | .ok a s => .ok a s
      | .error e _ => .error e r := by
  rw [transactional]
  cases ha : act r with
  | ok a s => rfl
  | error e s => exact congrArg (EStateM.Result.error e) (h e s ha).back

/-- **A call moves the reader, or is refused and leaves it.** -/
theorem Call.steady_run (c : Call) {r : Reader} (hr : r.position ≤ r.length) :
    Steady r (c.run r) := by
  cases c with
  | seek place => exact steady_map (steady_seek place r) _
  | skip n => exact steady_map (steady_skip n hr) _
  | read name => exact steady_map (steady_read name hr) _
  | readName n => exact steady_map (steady_readName n hr) _
  | readNames names => exact steady_readNames names hr
  | readScalar s => exact steady_map (steady_readScalar s hr) _
  | readLayout T => exact steady_map (steady_readLayout T hr) _
  | readFields fs => exact steady_readFields fs hr

theorem Call.run_ok {c : Call} {r s : Reader} {vs : List Value} (hr : r.position ≤ r.length)
    (h : c.run r = .ok vs s) : Moved r s := by
  have hs := c.steady_run hr
  rw [h] at hs
  exact hs

theorem Call.run_error {c : Call} {r s : Reader} {e : Error} (hr : r.position ≤ r.length)
    (h : c.run r = .error e s) : s = r ∧ e ≠ .outOfBounds := by
  have hs := c.steady_run hr
  rw [h] at hs
  exact hs

/-! ### One call after the other -/

/-- **Programs of a reader.**  What comes after a call or a block is told what came of it, and may
be the end, a refusal of its own, or further calls. -/
inductive Program : Type → Type 1
  | done {α : Type} (a : α) : Program α
  | fail {α : Type} (e : Error) : Program α
  | call {α : Type} (c : Call) (next : Except Error (List Value) → Program α) : Program α
  | transactional {α β : Type} (body : Program β) (next : Except Error β → Program α) : Program α

namespace Program

def run : Program α → ReadM α
  | .done a, r => .ok a r
  | .fail e, r => .error e r
  | .call c next, r =>
    match c.run r with
    | .ok vs s => (next (.ok vs)).run s
    | .error e s => (next (.error e)).run s
  | .transactional body next, r =>
    match Reader.transactional body.run r with
    | .ok b s => (next (.ok b)).run s
    | .error e s => (next (.error e)).run s

/-- **The calls that a run makes**, inside blocks and outside, each with the reader that it is made
on. -/
def calls : Program α → Reader → List (Call × Reader)
  | .done _, _ => []
  | .fail _, _ => []
  | .call c next, r => (c, r) ::
    match c.run r with
    | .ok vs s => (next (.ok vs)).calls s
    | .error e s => (next (.error e)).calls s
  | .transactional body next, r => body.calls r ++
    match Reader.transactional body.run r with
    | .ok b s => (next (.ok b)).calls s
    | .error e s => (next (.error e)).calls s

end Program

/-- The reader that a result leaves. -/
def left : EStateM.Result ε Reader α → Reader
  | .ok _ s => s
  | .error _ s => s

theorem Call.moved (c : Call) {r : Reader} (hr : r.position ≤ r.length) :
    Moved r (left (c.run r)) := by
  cases h : c.run r with
  | ok vs s => exact c.run_ok hr h
  | error e s =>
    obtain ⟨rfl, -⟩ := c.run_error hr h
    exact .refl hr

theorem moved_transactional {act : ReadM α} {r : Reader} (hr : r.position ≤ r.length)
    (h : Moved r (left (act r))) : Moved r (left (transactional act r)) := by
  have hback : ∀ e s, act r = .error e s → Moved r s := by
    intro e s he
    rw [he] at h
    exact h
  rw [transactional_apply hback]
  cases ha : act r with
  | ok a s =>
    rw [ha] at h
    exact h
  | error e s => exact .refl hr

namespace Program

/-- **A program only moves its reader.** -/
theorem moved_run (p : Program α) :
    ∀ {r : Reader}, r.position ≤ r.length → Moved r (left (p.run r)) := by
  induction p with
  | done a => intro r hr; exact .refl hr
  | fail e => intro r hr; exact .refl hr
  | call c next ih =>
    intro r hr
    have hc := c.moved hr
    rw [run]
    cases h : c.run r with
    | ok vs s =>
      rw [h] at hc
      exact hc.trans (ih _ hc.inside)
    | error e s =>
      rw [h] at hc
      exact hc.trans (ih _ hc.inside)
  | transactional body next ihbody ih =>
    intro r hr
    have hb := moved_transactional hr (ihbody hr)
    rw [run]
    cases h : Reader.transactional body.run r with
    | ok b s =>
      rw [h] at hb
      exact hb.trans (ih _ hb.inside)
    | error e s =>
      rw [h] at hb
      exact hb.trans (ih _ hb.inside)

/-- **Every call of a program is made on a reader that was only moved**, however deep in blocks. -/
theorem moved_calls (p : Program α) :
    ∀ {r : Reader}, r.position ≤ r.length → ∀ call ∈ p.calls r, Moved r call.2 := by
  induction p with
  | done a => intro r hr call hcall; cases hcall
  | fail e => intro r hr call hcall; cases hcall
  | call c next ih =>
    intro r hr call hcall
    have hc := c.moved hr
    rw [calls] at hcall
    rcases List.mem_cons.mp hcall with rfl | hcall
    · exact .refl hr
    · cases h : c.run r with
      | ok vs s =>
        rw [h] at hc hcall
        exact hc.trans (ih _ hc.inside call hcall)
      | error e s =>
        rw [h] at hc hcall
        exact hc.trans (ih _ hc.inside call hcall)
  | transactional body next ihbody ih =>
    intro r hr call hcall
    have hb := moved_transactional hr (body.moved_run hr)
    rw [calls] at hcall
    rcases List.mem_append.mp hcall with hcall | hcall
    · exact ihbody hr call hcall
    · cases h : Reader.transactional body.run r with
      | ok b s =>
        rw [h] at hb hcall
        exact hb.trans (ih _ hb.inside call hcall)
      | error e s =>
        rw [h] at hb hcall
        exact hb.trans (ih _ hb.inside call hcall)

end Program

end ByteLayout.Reader
