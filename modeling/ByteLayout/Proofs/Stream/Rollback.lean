import ByteLayout.Proofs.Stream.Programs

/-!
# Runs that roll back

`Visits p r s` says that a run of the program `p` from `r` comes to the reader
`s`: at its start, after one of its calls or blocks, or inside of a block, at
whatever depth and whether or not the block is refused later on.

A run only moves its reader (`Visits.moved`), so every reader that it comes to
has the bytes and the registry that it began with, and stands within the bytes.
From there the outcomes of one more step are known.  A refused call or block
leaves the reader.  A call that is done has moved it by the width of the types
it decoded, which is `Call.Decodes`, and a block that is done has done what its
body does.
-/

namespace ByteLayout.Reader

open Steps

/-! ### How far a call goes -/

/-- **The width of what a call decodes.** -/
inductive Call.Decodes (g : Registry) : Call → Nat → Prop
  | scalar (s : Scalar) : Decodes g (.readScalar s) s.width
  | layout (T : Layout) : Decodes g (.readLayout T) T.width
  | fields (fs : Fields) : Decodes g (.readFields fs) fs.width
  | name {n : TypeName} {s : Scalar} : g.resolve n = .ok s → Decodes g (.readName n) s.width
  | text {name : String} {s : Scalar} : g.lookup name = .ok s → Decodes g (.read name) s.width
  | names {names : List String} : (∀ name ∈ names, ∃ s, g.lookup name = .ok s) →
      Decodes g (.readNames names) (Layout.totalWidth (g.typesOf names))

/-- **Skipping a layout is reading it**, but for the value. -/
theorem skip_width (T : Layout) {r : Reader} (hr : r.position ≤ r.length) :
    skip T.width r = match readLayout T r with
      | .ok _ s => .ok () s
      | .error e s => .error e s := by
  rw [skip_apply _ hr, readLayout_apply]
  by_cases h : r.remaining < T.width
  · simp only [if_pos h]
  · simp only [if_neg h]

theorem seek_ok {place : Nat} {r s : Reader} (h : seek place r = .ok () s) :
    s.position = place := by
  rw [seek, bind_apply, get_apply] at h
  by_cases hp : r.length < place
  · simp only [if_pos hp] at h
    cases h
  · simp only [if_neg hp] at h
    obtain rfl := (EStateM.Result.ok.inj h).2
    rfl

theorem ok_of_map {act : ReadM α} {f : α → β} {r s : Reader} {b : β}
    (h : (do let a ← act; return f a : ReadM β) r = .ok b s) : ∃ a, act r = .ok a s := by
  rw [bind_apply] at h
  cases ha : act r with
  | error e t =>
    rw [ha] at h
    cases h
  | ok a t =>
    rw [ha] at h
    exact ⟨a, by rw [(EStateM.Result.ok.inj h).2]⟩

theorem readLayout_ok {T : Layout} {r s : Reader} {v : Value} (h : readLayout T r = .ok v s) :
    s.position = r.position + T.width := by
  rw [readLayout_apply] at h
  split at h
  · cases h
  · rw [← (EStateM.Result.ok.inj h).2, past_position]

theorem readScalar_ok {t : Scalar} {r s : Reader} {v : Value} (h : readScalar t r = .ok v s) :
    s.position = r.position + t.width :=
  readLayout_ok (T := .scalar t) h

theorem readFields_ok {fs : Fields} {r s : Reader} {vs : List Value}
    (h : readFields fs r = .ok vs s) : s.position = r.position + fs.width := by
  rw [readFields_apply] at h
  split at h
  · cases h
  · rw [← (EStateM.Result.ok.inj h).2, past_position]

/-- **A call that is done has gone over what it decoded**, or was to seek or to skip. -/
theorem Call.position_of_run_ok {c : Call} {r s : Reader} {vs : List Value}
    (hr : r.position ≤ r.length) (h : c.run r = .ok vs s) :
    (∃ place, c = .seek place ∧ s.position = place) ∨
      (∃ n, c = .skip n ∧ s.position = r.position + n) ∨
      ∃ w, c.Decodes r.registry w ∧ s.position = r.position + w := by
  cases c with
  | seek place =>
    obtain ⟨_, h⟩ := ok_of_map h
    exact .inl ⟨place, rfl, seek_ok h⟩
  | skip n =>
    obtain ⟨_, h⟩ := ok_of_map h
    rw [skip_apply n hr] at h
    split at h
    · cases h
    · rw [← (EStateM.Result.ok.inj h).2]
      exact .inr (.inl ⟨n, rfl, rfl⟩)
  | read name =>
    obtain ⟨v, h⟩ := ok_of_map h
    rw [read_apply] at h
    cases hs : r.registry.lookup name with
    | error e =>
      rw [hs] at h
      cases h
    | ok t =>
      rw [hs] at h
      exact .inr (.inr ⟨_, .text hs, readScalar_ok h⟩)
  | readName n =>
    obtain ⟨v, h⟩ := ok_of_map h
    rw [readName_apply] at h
    cases hs : r.registry.resolve n with
    | error e =>
      rw [hs] at h
      cases h
    | ok t =>
      rw [hs] at h
      exact .inr (.inr ⟨_, .name hs, readScalar_ok h⟩)
  | readNames names =>
    obtain ⟨hnames, hfit, heach⟩ := readNames_ok_iff.mp h
    rw [readEach_of_faultless names ((faultless_iff names r).mpr ⟨hnames, hfit⟩)] at heach
    rw [← (EStateM.Result.ok.inj heach).2]
    exact .inr (.inr ⟨_, .names hnames, rfl⟩)
  | readScalar t =>
    obtain ⟨v, h⟩ := ok_of_map h
    exact .inr (.inr ⟨_, .scalar t, readScalar_ok h⟩)
  | readLayout T =>
    obtain ⟨v, h⟩ := ok_of_map h
    exact .inr (.inr ⟨_, .layout T, readLayout_ok h⟩)
  | readFields fs => exact .inr (.inr ⟨_, .fields fs, readFields_ok h⟩)

/-! ### Where a run comes -/

/-- What came of a step, without the reader. -/
def outcome : EStateM.Result ε Reader α → Except ε α
  | .ok a _ => .ok a
  | .error e _ => .error e

namespace Program

/-- The end of a program that hands on what it was told. -/
def handOn : Except Error α → Program α
  | .ok a => .done a
  | .error e => .fail e

theorem run_call (c : Call) (next : Except Error (List Value) → Program α) (r : Reader) :
    (call c next).run r = (next (outcome (c.run r))).run (left (c.run r)) := by
  rw [run]
  cases c.run r <;> rfl

theorem run_transactional (body : Program β) (next : Except Error β → Program α) (r : Reader) :
    (transactional body next).run r =
      (next (outcome (Reader.transactional body.run r))).run
        (left (Reader.transactional body.run r)) := by
  rw [run]
  cases Reader.transactional body.run r <;> rfl

/-- **The readers that a run comes to**, at the start, between its calls and blocks and at the end,
inside of blocks and outside. -/
inductive Visits : {α : Type} → Program α → Reader → Reader → Prop
  | start {α : Type} (p : Program α) (r : Reader) : Visits p r r
  | afterCall {α : Type} {c : Call} {next : Except Error (List Value) → Program α} {r s : Reader} :
      Visits (next (outcome (c.run r))) (left (c.run r)) s → Visits (.call c next) r s
  | inside {α β : Type} {body : Program β} {next : Except Error β → Program α} {r s : Reader} :
      Visits body r s → Visits (.transactional body next) r s
  | afterBlock {α β : Type} {body : Program β} {next : Except Error β → Program α} {r s : Reader} :
      Visits (next (outcome (Reader.transactional body.run r)))
        (left (Reader.transactional body.run r)) s →
      Visits (.transactional body next) r s

/-- **A run comes to its end.** -/
theorem visits_left (p : Program α) : ∀ r : Reader, p.Visits r (left (p.run r)) := by
  induction p with
  | done a => exact .start _
  | fail e => exact .start _
  | call c next ih =>
    intro r
    rw [run_call]
    exact .afterCall (ih _ _)
  | transactional body next _ ih =>
    intro r
    rw [run_transactional]
    exact .afterBlock (ih _ _)

theorem Visits.moved {p : Program α} {r s : Reader} (h : p.Visits r s) :
    r.position ≤ r.length → Moved r s := by
  induction h with
  | start p r => exact .refl
  | @afterCall _ c next r s _ ih =>
    intro hr
    have hc := c.moved hr
    exact hc.trans (ih hc.inside)
  | inside _ ih => exact ih
  | @afterBlock _ _ body next r s _ ih =>
    intro hr
    have hb := moved_transactional hr (body.moved_run hr)
    exact hb.trans (ih hb.inside)

/-- A block that is refused leaves the reader that it began with. -/
theorem eq_of_transactional_error {body : Program β} {r s : Reader} {e : Error}
    (hr : r.position ≤ r.length) (h : Reader.transactional body.run r = .error e s) : s = r := by
  have hback : ∀ e t, body.run r = .error e t → Moved r t := by
    intro e t he
    have hm := body.moved_run hr
    rwa [he] at hm
  rw [transactional_apply hback] at h
  cases hb : body.run r with
  | ok b t =>
    rw [hb] at h
    cases h
  | error e' t =>
    rw [hb] at h
    exact (EStateM.Result.error.inj h).2.symm

end Program

theorem transactional_ok_iff {act : ReadM α} {r s : Reader} {a : α} :
    transactional act r = .ok a s ↔ act r = .ok a s := by
  rw [transactional]
  cases act r <;> simp

/-! ### One more step -/

/-- **A reader within its bytes**, over this data and with this registry. -/
structure Within (data : Bytes) (g : Registry) (s : Reader) : Prop where
  data : s.buffer.data = data
  registry : s.registry = g
  inside : s.position ≤ s.length
  split : s.position + s.remaining = s.length
  hasMore : s.hasMore = decide (0 < s.remaining)

theorem Moved.within {data : Bytes} {g : Registry} {s : Reader} (h : Moved (.new data g) s) :
    Within data g s where
  data := h.data
  registry := h.registry
  inside := h.inside
  split := Nat.add_sub_of_le h.inside
  hasMore := decide_eq_decide.mpr (Nat.sub_pos_iff_lt (n := s.length) (m := s.position)).symm

/-- **What comes of one more step**: refused, it leaves the reader. -/
structure RollsBack (g : Registry) (s : Reader) : Prop where
  call_error : ∀ (c : Call) (e : Error) (t : Reader), c.run s = .error e t → t = s
  call_ok : ∀ (c : Call) (vs : List Value) (t : Reader), c.run s = .ok vs t →
    (∃ place, c = .seek place ∧ t.position = place) ∨
      (∃ n, c = .skip n ∧ t.position = s.position + n) ∨
      ∃ w, c.Decodes g w ∧ t.position = s.position + w
  /-- Skipping the width of a layout and reading it move alike and are refused alike. -/
  skip_width : ∀ T : Layout,
    (skip T.width s = match readLayout T s with
      | .ok _ t => .ok () t
      | .error e t => .error e t) ∧
    ∀ (e : Error) (t : Reader), skip T.width s = .error e t →
      e = .lengthMismatch T.width s.remaining
  block_error : ∀ (β : Type) (body : Program β) (e : Error) (t : Reader),
    transactional body.run s = .error e t → t = s
  /-- A block that is done does what its body does. -/
  block_ok : ∀ (β : Type) (body : Program β) (b : β) (t : Reader),
    transactional body.run s = .ok b t ↔ body.run s = .ok b t

theorem rollsBack_of_inside {s : Reader} (hs : s.position ≤ s.length) : RollsBack s.registry s where
  call_error := fun c e t h => (c.run_error hs h).1
  call_ok := fun c vs t h => c.position_of_run_ok hs h
  skip_width := by
    intro T
    refine ⟨Reader.skip_width T hs, ?_⟩
    intro e t h
    rw [skip_apply _ hs] at h
    split at h
    · exact (EStateM.Result.error.inj h).1.symm
    · cases h
  block_error := fun β body e t h => Program.eq_of_transactional_error hs h
  block_ok := fun β body b t => transactional_ok_iff

/-- **Runs roll back.**  A reader made over some bytes keeps them and its registry along every run,
and stands within them wherever the run comes, at any depth of blocks and at the end.  Whatever it
does from there leaves it if it is refused, and moves it by the width of what was decoded. -/
theorem run_rolls_back (data : Bytes) (g : Registry) {α : Type} (p : Program α) :
    p.Visits (.new data g) (left (p.run (.new data g))) ∧
      ∀ s, p.Visits (.new data g) s → Within data g s ∧ RollsBack g s := by
  refine ⟨p.visits_left _, ?_⟩
  intro s h
  have hm := h.moved (Nat.zero_le _)
  refine ⟨hm.within, ?_⟩
  have hg : s.registry = g := hm.registry
  exact hg ▸ rollsBack_of_inside hm.inside

/-- An inner block is refused after the first value and caught; the outer one keeps the value. -/
theorem run_rolls_back_caught :
    let g := Registry.derive .arm .littleEndian
    let inner : Program (List Value) := .call (.readNames ["uint8", "uint32"]) .handOn
    let outer : Program (List Value) :=
      .call (.read "uint8") fun first => .transactional inner fun _ => .handOn first
    let p : Program (List Value) := .transactional outer .handOn
    let s : Reader := ⟨⟨[1, 2, 3], 1⟩, g⟩
    p.Visits (.new [1, 2, 3] g) s ∧ Within [1, 2, 3] g s ∧
      (∀ e t, transactional inner.run s = .error e t → t = s) ∧
      transactional inner.run s = .error (.lengthMismatch 4 1) s ∧
      p.run (.new [1, 2, 3] g) = .ok [.number (.int 1)] s := by
  intro g inner outer p s
  have hvisits : p.Visits (.new [1, 2, 3] g) s := .inside (.afterCall (.start _ _))
  obtain ⟨hwithin, hstep⟩ := (run_rolls_back [1, 2, 3] g p).2 s hvisits
  exact ⟨hvisits, hwithin, hstep.block_error _ inner, rfl, rfl⟩

end ByteLayout.Reader
