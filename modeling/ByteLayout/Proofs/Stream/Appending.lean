import ByteLayout.Proofs.Layout.Encoding
import ByteLayout.Proofs.Stream.Calls
import Mathlib.Data.List.Forall2

/-!
# What a writer holds

A call stands for bytes of its own, whatever was written before it: `encoding`
are those of the value in its type, or the zeros of the padding.  What was
written before decides only whether padding still has room, and that is
`obstacle?`; `Call.bytes_eq` puts the two together.

So the bytes of a writer are those of the calls that were not refused, one after
the other: this is `perform_parts`, by induction on the calls.  `perform_append`
cuts a run in two, and so it is said of every beginning of a run as well.
-/

namespace ByteLayout.Writer

-- Powers are those of the core library.
attribute [local instance (2000)] instPowNat

namespace Call

/-- **The bytes that a call stands for**; there are none where its type is not found or its value is
refused. -/
def encoding (r : Registry) : Call → Except Error Bytes
  | .write name v => do
    let s ← r.lookup name
    s.pack v
  | .writeName n v => do
    let s ← r.resolve n
    s.pack v
  | .writeScalar s v => s.pack v
  | .writeLayout T v => T.pack v
  | .pad n => .ok (List.replicate n 0)

/-- The width of the type of a call, if it has one, or the count of its padding. -/
def width? (r : Registry) : Call → Option Nat
  | .write name _ => (r.lookup name).toOption.map Scalar.width
  | .writeName n _ => (r.resolve n).toOption.map Scalar.width
  | .writeScalar s _ => some s.width
  | .writeLayout T _ => some T.width
  | .pad n => some n

/-- The reason why the bytes of a call cannot follow `length` others: only padding ever has one. -/
def obstacle? (length : Nat) : Call → Option Error
  | .pad n => padFault? length n
  | _ => none

theorem bytes_eq (c : Call) (w : Writer) :
    c.bytes w = match c.obstacle? w.length with
      | some e => .error e
      | none => c.encoding w.registry := by
  cases c <;> rfl

theorem bytes_ok {c : Call} {w : Writer} {bytes : Bytes} (h : c.bytes w = .ok bytes) :
    c.encoding w.registry = .ok bytes := by
  rw [bytes_eq] at h
  cases ho : c.obstacle? w.length with
  | some e => simp [ho] at h
  | none => simpa [ho] using h

theorem bytes_error {c : Call} {w : Writer} {e : Error} (h : c.bytes w = .error e) :
    c.encoding w.registry = .error e ∨ c.obstacle? w.length = some e := by
  rw [bytes_eq] at h
  cases ho : c.obstacle? w.length with
  | some e' => right; simpa [ho] using h
  | none => left; simpa [ho] using h

/-! ### How many bytes -/

theorem length_of_pack {T : Layout} {v : Value} {bytes : Bytes} (h : T.pack v = .ok bytes) :
    bytes.length = T.width := by
  rw [Layout.pack_eq_encode] at h
  exact Layout.encode_length T v bytes h

/-- A value of a type that was looked up takes the width of this type. -/
theorem length_of_resolved {x : Except Error Scalar} {v : Value} {bytes : Bytes}
    (h : (do let s ← x; s.pack v) = .ok bytes) :
    x.toOption.map Scalar.width = some bytes.length := by
  obtain ⟨s, rfl, hp⟩ := resolved_ok h
  rw [length_of_pack (T := .scalar s) hp]
  rfl

/-- **A call stands for as many bytes as its type is wide.** -/
theorem width?_of_encoding {r : Registry} {c : Call} {bytes : Bytes}
    (h : c.encoding r = .ok bytes) : c.width? r = some bytes.length := by
  cases c with
  | write name v => exact length_of_resolved h
  | writeName n v => exact length_of_resolved h
  | writeScalar s v => exact congrArg some (length_of_pack (T := .scalar s) h).symm
  | writeLayout T v => exact congrArg some (length_of_pack h).symm
  | pad n =>
    obtain rfl := Except.ok.inj h
    rw [width?, List.length_replicate]

end Call

/-! ### Runs in two parts -/

theorem perform_append (cs ds : List Call) : ∀ w : Writer,
    perform (cs ++ ds) w =
      ((perform cs w).1 ++ (perform ds (perform cs w).2).1, (perform ds (perform cs w).2).2) := by
  induction cs with
  | nil => intro w; rfl
  | cons c cs ih =>
    intro w
    rw [List.cons_append, perform_cons, perform_cons]
    cases hb : c.bytes w with
    | error e => simp only [ih]
    | ok bytes => simp only [ih, List.cons_append]

/-- **A run appends the bytes of the calls that were not refused**, one after the other. -/
theorem perform_parts (cs : List Call) : ∀ w : Writer, ∃ parts : List Bytes,
    List.Forall₂ (fun c part => c.encoding w.registry = .ok part) (perform cs w).1 parts ∧
      (perform cs w).2 = { w with bytes := w.bytes ++ parts.flatten } := by
  induction cs with
  | nil =>
    intro w
    refine ⟨[], .nil, ?_⟩
    simp [perform]
  | cons c cs ih =>
    intro w
    rw [perform_cons]
    cases hb : c.bytes w with
    | error e => exact ih w
    | ok bytes =>
      obtain ⟨parts, hparts, hw⟩ := ih { w with bytes := w.bytes ++ bytes }
      refine ⟨bytes :: parts, .cons (c.bytes_ok hb) hparts, ?_⟩
      simp only [hw, List.flatten_cons, List.append_assoc]

/-! ### The beginnings of a run -/

/-- The writer after the first `k` calls of a run on a new one. -/
def reached (r : Registry) (cs : List Call) (k : Nat) : Writer := (perform (cs.take k) (new r)).2

/-- Those of the first `k` calls that were not refused. -/
def accepted (r : Registry) (cs : List Call) (k : Nat) : List Call :=
  (perform (cs.take k) (new r)).1

theorem accepted_succ {cs : List Call} {k : Nat} {c : Call} (h : cs[k]? = some c) (r : Registry) :
    accepted r cs (k + 1) = accepted r cs k ++ (perform [c] (reached r cs k)).1 := by
  rw [accepted, List.take_add_one, h, Option.toList_some, perform_append]
  rfl

theorem reached_succ {cs : List Call} {k : Nat} {c : Call} (h : cs[k]? = some c) (r : Registry) :
    reached r cs (k + 1) = (perform [c] (reached r cs k)).2 := by
  rw [reached, List.take_add_one, h, Option.toList_some, perform_append]
  rfl

theorem reached_parts (r : Registry) (cs : List Call) (k : Nat) : ∃ parts : List Bytes,
    List.Forall₂ (fun c part => c.encoding r = .ok part) (accepted r cs k) parts ∧
      reached r cs k = ⟨parts.flatten, r⟩ :=
  perform_parts (cs.take k) (new r)

theorem reached_registry (r : Registry) (cs : List Call) (k : Nat) :
    (reached r cs k).registry = r := by
  obtain ⟨parts, -, h⟩ := reached_parts r cs k
  rw [h]

/-! ### Padding -/

theorem padFault?_eq_some {length n : Nat} {e : Error} :
    padFault? length n = some e ↔
      (addressSpace ≤ length + n ∧ e = .unsupportedComposition (.padOverflow n)) ∨
        (storageLimit < length + n ∧ length + n < addressSpace ∧
          e = .unsupportedComposition (.padCapacity n)) := by
  rw [padFault?]
  split
  · rename_i h
    simp [h, Nat.not_lt.mpr h, eq_comm]
  · rename_i h
    split
    · rename_i hs
      simp [h, hs, Nat.not_le.mp h, eq_comm]
    · rename_i hs
      simp [h, hs]

theorem pad_ok_iff {n : Nat} {w : Writer} :
    (∃ w', pad n w = .ok () w') ↔ w.length + n ≤ storageLimit := by
  rw [pad_apply, ← padFault?_eq_none]
  cases padFault? w.length n <;> simp

theorem pad_error_iff {n : Nat} {w w' : Writer} {e : Error} :
    pad n w = .error e w' ↔ w' = w ∧
      ((addressSpace ≤ w.length + n ∧ e = .unsupportedComposition (.padOverflow n)) ∨
        (storageLimit < w.length + n ∧ w.length + n < addressSpace ∧
          e = .unsupportedComposition (.padCapacity n))) := by
  rw [pad_apply, ← padFault?_eq_some]
  cases padFault? w.length n <;> simp [and_comm, eq_comm]

/-! ### Every beginning of a run -/

/-- **A writer holds the bytes of the calls that were not refused**, at every point of a run.  A
call that is not refused appends its own bytes to those of the calls before it, as many as its type
is wide; a call that is refused, for its name or value or for want of room, leaves the writer.
Padding is refused where the bytes could not be stored, and told apart if they could not be
addressed. -/
theorem reached_concatenates (r : Registry) (cs : List Call) :
    (∀ k, ∃ parts : List Bytes,
      List.Forall₂ (fun c part => c.encoding r = .ok part) (accepted r cs k) parts ∧
        reached r cs k = ⟨parts.flatten, r⟩) ∧
    (∀ k c, cs[k]? = some c →
      (∀ w', c.run (reached r cs k) = .ok () w' →
        reached r cs (k + 1) = w' ∧ accepted r cs (k + 1) = accepted r cs k ++ [c] ∧
        ∃ bytes width, c.encoding r = .ok bytes ∧ c.width? r = some width ∧
          w'.bytes = (reached r cs k).bytes ++ bytes ∧
          w'.length = (reached r cs k).length + width) ∧
      ∀ e w', c.run (reached r cs k) = .error e w' →
        w' = reached r cs k ∧ reached r cs (k + 1) = reached r cs k ∧
        accepted r cs (k + 1) = accepted r cs k ∧
        (c.encoding r = .error e ∨ c.obstacle? (reached r cs k).length = some e)) ∧
    ∀ (w : Writer) (n : Nat),
      ((∃ w', pad n w = .ok () w') ↔ w.length + n ≤ storageLimit) ∧
      ∀ e w', pad n w = .error e w' ↔ w' = w ∧
        ((addressSpace ≤ w.length + n ∧ e = .unsupportedComposition (.padOverflow n)) ∨
          (storageLimit < w.length + n ∧ w.length + n < addressSpace ∧
            e = .unsupportedComposition (.padCapacity n))) := by
  refine ⟨reached_parts r cs, ?_, fun w n => ⟨pad_ok_iff, fun _ _ => pad_error_iff⟩⟩
  intro k c hc
  rw [accepted_succ hc, reached_succ hc, perform_cons, c.run_apply]
  have hr := reached_registry r cs k
  cases hb : c.bytes (reached r cs k) with
  | ok bytes =>
    constructor
    · intro w' hw
      obtain rfl := (EStateM.Result.ok.inj hw).2
      have he := c.bytes_ok hb
      rw [hr] at he
      exact ⟨rfl, rfl, bytes, bytes.length, he, Call.width?_of_encoding he, rfl,
        List.length_append⟩
    · intro e w' hw
      cases hw
  | error e =>
    constructor
    · intro w' hw
      cases hw
    · intro e' w' hw
      obtain ⟨rfl, rfl⟩ := EStateM.Result.error.inj hw
      have he := c.bytes_error hb
      rw [hr] at he
      exact ⟨rfl, rfl, List.append_nil _, he⟩

/-- A short and its padding, with a name that no type has between them; then more padding than can
be stored, and more than can be addressed. -/
theorem reached_concatenates_arm64 :
    let r := Registry.ofArchitecture .arm64
    let cs : List Call :=
      [.write "uint16" (.number (.int 0x1234)), .write "quad" (.number (.int 1)), .pad 2]
    (∃ parts : List Bytes,
      List.Forall₂ (fun c part => c.encoding r = .ok part) (accepted r cs 3) parts ∧
        [0x12, 0x34, 0, 0] = parts.flatten) ∧
    (reached r cs 2 = reached r cs 1 ∧ accepted r cs 2 = accepted r cs 1) ∧
    (accepted r cs 3 = accepted r cs 2 ++ [.pad 2] ∧
      (reached r cs 3).length = (reached r cs 2).length + 2) ∧
    pad (2 ^ (63 : Nat) - 4) ⟨[0x12, 0x34, 0, 0], r⟩ =
      .error (.unsupportedComposition (.padCapacity (2 ^ (63 : Nat) - 4)))
        ⟨[0x12, 0x34, 0, 0], r⟩ ∧
    pad (2 ^ (64 : Nat) - 4) ⟨[0x12, 0x34, 0, 0], r⟩ =
      .error (.unsupportedComposition (.padOverflow (2 ^ (64 : Nat) - 4)))
        ⟨[0x12, 0x34, 0, 0], r⟩ := by
  intro r cs
  obtain ⟨hparts, hcalls, hpad⟩ := reached_concatenates r cs
  have hquad : (Call.write "quad" (.number (.int 1))).run (reached r cs 1) =
      .error (.typeNotFound "quad" ⟨.arm64, .bigEndian⟩) (reached r cs 1) := rfl
  have hzeros : (Call.pad 2).run (reached r cs 2) = .ok () (reached r cs 3) := rfl
  refine ⟨?_, ?_, ?_, ?_, ?_⟩
  · obtain ⟨parts, hall, hw⟩ := hparts 3
    exact ⟨parts, hall, (Writer.mk.inj hw).1⟩
  · obtain ⟨-, hw, ha, -⟩ := (hcalls 1 _ rfl).2 _ _ hquad
    exact ⟨hw, ha⟩
  · obtain ⟨-, ha, bytes, width, -, hwidth, -, hlength⟩ := (hcalls 2 _ rfl).1 _ hzeros
    rw [← Option.some.inj hwidth] at hlength
    exact ⟨ha, hlength⟩
  · exact ((hpad _ _).2 _ _).mpr ⟨rfl, .inr ⟨by decide, by decide, rfl⟩⟩
  · exact ((hpad _ _).2 _ _).mpr ⟨rfl, .inl ⟨by decide, rfl⟩⟩

end ByteLayout.Writer
