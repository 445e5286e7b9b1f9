import ByteLayout.Stream.Writer

/-!
# Runs of a writer

A `Writer.Call` is one of the ways to add to the bytes of a writer.  `bytes` are
the bytes that the call adds, or the reason why it adds none, and `run_apply`
says that a call does no more than that: it appends its bytes, or it leaves the
writer as it was.

`perform` makes calls one after the other and goes on after a refused one.  What
it returns first are the calls that were not refused.  By `perform_perform` these
alone would have led to the same writer.
-/

namespace ByteLayout.Writer

inductive Call where
  | write (name : String) (v : Value)
  | writeName (n : TypeName) (v : Value)
  | writeScalar (s : Scalar) (v : Value)
  | writeLayout (T : Layout) (v : Value)
  | pad (n : Nat)

/-- The reason why no `n` bytes can be added to some, if there is one. -/
def padFault? (length n : Nat) : Option Error :=
  if addressSpace ≤ length + n then some (.unsupportedComposition (.padOverflow n))
  else if storageLimit < length + n then some (.unsupportedComposition (.padCapacity n))
  else none

namespace Call

def run : Call → WriteM Unit
  | .write name v => Writer.write name v
  | .writeName n v => Writer.writeName n v
  | .writeScalar s v => Writer.writeScalar s v
  | .writeLayout T v => Writer.writeLayout T v
  | .pad n => Writer.pad n

/-- **The bytes that a call adds**, or why it adds none. -/
def bytes (w : Writer) : Call → Except Error Bytes
  | .write name v => do
    let s ← w.registry.lookup name
    s.pack v
  | .writeName n v => do
    let s ← w.registry.resolve n
    s.pack v
  | .writeScalar s v => s.pack v
  | .writeLayout T v => T.pack v
  | .pad n =>
    match padFault? w.length n with
    | some e => .error e
    | none => .ok (List.replicate n 0)

end Call

/-- **Bytes can be added as long as they can be stored.** -/
theorem padFault?_eq_none {length n : Nat} :
    padFault? length n = none ↔ length + n ≤ storageLimit := by
  have hs : storageLimit < addressSpace := by decide
  rw [padFault?]
  split
  · simp only [reduceCtorEq, false_iff]
    omega
  · split
    · simp only [reduceCtorEq, false_iff]
      omega
    · simp only [true_iff]
      omega

/-! ### One call -/

open Steps

theorem append_apply (x : Except Error Bytes) (w : Writer) :
    (do let bytes ← MonadExcept.ofExcept x; append bytes : WriteM Unit) w = match x with
      | .ok bytes => .ok () { w with bytes := w.bytes ++ bytes }
      | .error e => .error e w := by
  rw [bind_apply, ofExcept_apply]
  cases x <;> rfl

theorem resolved_apply (x : Except Error Scalar) (v : Value) (w : Writer) :
    (do let s ← MonadExcept.ofExcept x; writeScalar s v : WriteM Unit) w =
      match (do let s ← x; s.pack v) with
      | .ok bytes => .ok () { w with bytes := w.bytes ++ bytes }
      | .error e => .error e w := by
  rw [bind_apply, ofExcept_apply]
  cases x with
  | error e => rfl
  | ok s => exact append_apply (s.pack v) w

theorem resolved_ok {x : Except Error Scalar} {v : Value} {bytes : Bytes}
    (h : (do let s ← x; s.pack v) = .ok bytes) : ∃ s, x = .ok s ∧ s.pack v = .ok bytes := by
  cases x with
  | error e => cases h
  | ok s => exact ⟨s, rfl, h⟩

theorem pad_apply (n : Nat) (w : Writer) :
    pad n w = match padFault? w.length n with
      | some e => .error e w
      | none => .ok () { w with bytes := w.bytes ++ List.replicate n 0 } := by
  rw [pad, bind_apply, get_apply, padFault?]
  by_cases ha : addressSpace ≤ w.length + n
  · simp only [if_pos ha]
    rfl
  · by_cases hs : storageLimit < w.length + n
    · simp only [if_neg ha, if_pos hs]
      rfl
    · simp only [if_neg ha, if_neg hs]
      rfl

/-- **A call appends its bytes or does nothing.** -/
theorem Call.run_apply (c : Call) (w : Writer) :
    c.run w = match c.bytes w with
      | .ok bytes => .ok () { w with bytes := w.bytes ++ bytes }
      | .error e => .error e w := by
  cases c with
  | write name v => exact resolved_apply (w.registry.lookup name) v w
  | writeName n v => exact resolved_apply (w.registry.resolve n) v w
  | writeScalar s v => exact append_apply (s.pack v) w
  | writeLayout T v => exact append_apply (T.pack v) w
  | pad n =>
    rw [run, pad_apply, bytes]
    cases padFault? w.length n <;> rfl

/-! ### One call after the other -/

/-- **Calls one after the other**, refused or not: those that were not refused, and the writer after
the last. -/
def perform : List Call → Writer → List Call × Writer
  | [], w => ([], w)
  | c :: cs, w =>
    match c.run w with
    | .ok _ w' => ((c :: (perform cs w').1), (perform cs w').2)
    | .error _ w' => perform cs w'

theorem perform_cons (c : Call) (cs : List Call) (w : Writer) :
    perform (c :: cs) w = match c.bytes w with
      | .ok bytes =>
        let rest := perform cs { w with bytes := w.bytes ++ bytes }
        (c :: rest.1, rest.2)
      | .error _ => perform cs w := by
  rw [perform, c.run_apply]
  cases c.bytes w <;> rfl

/-- **Refused calls leave no trace**: without them the run is the same. -/
theorem perform_perform :
    ∀ (cs : List Call) (w : Writer), perform (perform cs w).1 w = perform cs w := by
  intro cs
  induction cs with
  | nil => intro w; rfl
  | cons c cs ih =>
    intro w
    rw [perform_cons]
    cases hb : c.bytes w with
    | error e => exact ih w
    | ok bytes => simp only [perform_cons, hb, ih]

end ByteLayout.Writer
