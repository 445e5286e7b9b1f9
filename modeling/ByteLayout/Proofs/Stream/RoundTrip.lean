import ByteLayout.Stream.Reader
import ByteLayout.Proofs.Layout.Precision
import ByteLayout.Proofs.Stream.Calls

/-!
# Reading what was written

For each call on a writer there is one on a reader that goes over the same
bytes: `readBack` takes the value of the type, or skips the padding.
`readBack_apply` says what one call does to a reader that stands before these
bytes: it gives the value in the precision of its layout and comes to stand
after them.

So along a run of the writer the reader never gets out of step, which is
`readAll_apply`.  When the run is over, so are the bytes.
-/

namespace ByteLayout

namespace Writer

namespace Call

/-- **The call on a reader that matches**, with the value read if there is one. -/
def readBack : Call → ReadM (Option Value)
  | .write name _ => do
    let v ← Reader.read name
    return some v
  | .writeName n _ => do
    let v ← Reader.readName n
    return some v
  | .writeScalar s _ => do
    let v ← Reader.readScalar s
    return some v
  | .writeLayout T _ => do
    let v ← Reader.readLayout T
    return some v
  | .pad n => do
    Reader.skip n
    return none

/-- **The value that is read back**: the one written, in the precision of its type. -/
def result (r : Registry) : Call → Option Value
  | .write name v => (r.lookup name).toOption.map fun s => s.normalize v
  | .writeName n v => (r.resolve n).toOption.map fun s => s.normalize v
  | .writeScalar s v => some (s.normalize v)
  | .writeLayout T v => some (T.normalize v)
  | .pad _ => none

end Call

/-- The matching calls one after the other. -/
def readAll : List Call → ReadM (List (Option Value))
  | [] => return []
  | c :: cs => do
    let v ← c.readBack
    let vs ← readAll cs
    return v :: vs

end Writer

open Steps

/-! ### One call -/

/-- **The bytes of a value are taken as the value normalized.** -/
theorem Layout.unpackAt_between {T : Layout} {v : Value} {bytes : Bytes}
    (h : T.pack v = .ok bytes) (done rest : Bytes) :
    T.unpackAt (.between done (bytes ++ rest)) =
      .ok (T.normalize v) (.between (done ++ bytes) rest) := by
  rw [pack_eq_encode] at h
  rw [unpackAt_apply, ← encode_length T v bytes h, if_neg (Buffer.enough_between done bytes rest),
    Buffer.next_between, decode_encode T v bytes h, Buffer.between_append]
  rfl

namespace Reader

theorem onBuffer_ok {act : BufferM α} {b b' : Buffer} {a : α} (h : act b = .ok a b')
    (r : Registry) : onBuffer act ⟨b, r⟩ = .ok a ⟨b', r⟩ := by
  rw [onBuffer, h]

theorem skip_between (done bytes rest : Bytes) (r : Registry) :
    skip bytes.length ⟨.between done (bytes ++ rest), r⟩ =
      .ok () ⟨.between (done ++ bytes) rest, r⟩ := by
  apply onBuffer_ok
  rw [bind_apply, Buffer.require_apply, if_neg (Buffer.enough_between done bytes rest)]
  exact Buffer.advance_between done bytes rest

theorem readLayout_between {T : Layout} {v : Value} {bytes : Bytes} (h : T.pack v = .ok bytes)
    (done rest : Bytes) (r : Registry) :
    readLayout T ⟨.between done (bytes ++ rest), r⟩ =
      .ok (T.normalize v) ⟨.between (done ++ bytes) rest, r⟩ :=
  onBuffer_ok (Layout.unpackAt_between h done rest) r

theorem readScalar_between {s : Scalar} {v : Value} {bytes : Bytes} (h : s.pack v = .ok bytes)
    (done rest : Bytes) (r : Registry) :
    readScalar s ⟨.between done (bytes ++ rest), r⟩ =
      .ok (s.normalize v) ⟨.between (done ++ bytes) rest, r⟩ :=
  readLayout_between (T := .scalar s) h done rest r

theorem read_between {name : String} {s : Scalar} {v : Value} {bytes : Bytes} {r : Registry}
    (hs : r.lookup name = .ok s) (h : s.pack v = .ok bytes) (done rest : Bytes) :
    read name ⟨.between done (bytes ++ rest), r⟩ =
      .ok (s.normalize v) ⟨.between (done ++ bytes) rest, r⟩ := by
  rw [read, bind_apply, get_apply]
  simp only [bind_apply, hs, ofExcept_ok, readScalar_between h]

theorem readName_between {n : TypeName} {s : Scalar} {v : Value} {bytes : Bytes} {r : Registry}
    (hs : r.resolve n = .ok s) (h : s.pack v = .ok bytes) (done rest : Bytes) :
    readName n ⟨.between done (bytes ++ rest), r⟩ =
      .ok (s.normalize v) ⟨.between (done ++ bytes) rest, r⟩ := by
  rw [readName, bind_apply, get_apply]
  simp only [bind_apply, hs, ofExcept_ok, readScalar_between h]

/-- A reader that has gone over everything. -/
theorem between_nil (done : Bytes) (r : Registry) :
    position ⟨.between done [], r⟩ = length ⟨.between done [], r⟩ ∧
      remaining ⟨.between done [], r⟩ = 0 ∧ hasMore ⟨.between done [], r⟩ = false := by
  have hl : done.length = (done ++ []).length := by rw [List.append_nil]
  have hm : ¬done.length < (done ++ []).length := Nat.not_lt.mpr (Nat.le_of_eq hl.symm)
  exact ⟨hl, Buffer.remaining_between done [], decide_eq_false hm⟩

end Reader

namespace Writer

theorem Call.bytes_pad_ok {w : Writer} {n : Nat} {bytes : Bytes}
    (h : (Call.pad n).bytes w = .ok bytes) : bytes = List.replicate n 0 := by
  rw [Call.bytes] at h
  cases hf : padFault? w.length n with
  | some e => rw [hf] at h; cases h
  | none => rw [hf] at h; exact (Except.ok.inj h).symm

/-- **A matching call takes what was written**, and stands after it. -/
theorem Call.readBack_apply {c : Call} {w : Writer} {bytes : Bytes} (h : c.bytes w = .ok bytes)
    (done rest : Bytes) :
    c.readBack ⟨.between done (bytes ++ rest), w.registry⟩ =
      .ok (c.result w.registry) ⟨.between (done ++ bytes) rest, w.registry⟩ := by
  cases c with
  | write name v =>
    obtain ⟨s, hs, hp⟩ := resolved_ok h
    rw [readBack, bind_apply, Reader.read_between hs hp, result, hs]
    rfl
  | writeName n v =>
    obtain ⟨s, hs, hp⟩ := resolved_ok h
    rw [readBack, bind_apply, Reader.readName_between hs hp, result, hs]
    rfl
  | writeScalar s v =>
    rw [readBack, bind_apply, Reader.readScalar_between h]
    rfl
  | writeLayout T v =>
    rw [readBack, bind_apply, Reader.readLayout_between h]
    rfl
  | pad n =>
    obtain rfl := bytes_pad_ok h
    have hs := Reader.skip_between done (List.replicate n 0) rest w.registry
    rw [List.length_replicate] at hs
    rw [readBack, bind_apply, hs]
    rfl

/-! ### One call after the other -/

/-- **Along a run the reader takes what was written**, from where it stands and whatever follows. -/
theorem readAll_apply (cs : List Call) : ∀ w : Writer, ∃ bytes,
    (perform cs w).2 = { w with bytes := w.bytes ++ bytes } ∧
      ∀ done rest, readAll (perform cs w).1 ⟨.between done (bytes ++ rest), w.registry⟩ =
        .ok ((perform cs w).1.map (Call.result w.registry))
          ⟨.between (done ++ bytes) rest, w.registry⟩ := by
  induction cs with
  | nil =>
    intro w
    refine ⟨[], ?_, ?_⟩
    · rw [List.append_nil]
      rfl
    · intro done rest
      rw [List.append_nil]
      rfl
  | cons c cs ih =>
    intro w
    rw [perform_cons]
    cases hb : c.bytes w with
    | error e => exact ih w
    | ok first =>
      obtain ⟨bytes, hw, hr⟩ := ih { w with bytes := w.bytes ++ first }
      refine ⟨first ++ bytes, ?_, ?_⟩
      · show (perform cs _).2 = _
        rw [hw, List.append_assoc]
      · intro done rest
        have hc := c.readBack_apply hb done (bytes ++ rest)
        simp only [readAll, bind_apply, List.append_assoc, hc, hr, pure_apply, List.map_cons]

/-- **Writer and reader agree.**  Over the bytes of a run, the calls that match those that were not
refused are none of them refused; they give the values in the precision of their types, and come to
the end.  The refused calls could as well not have been made. -/
theorem readAll_perform (r : Registry) (cs : List Call) :
    ∃ done w last, perform cs (new r) = (done, w) ∧ perform done (new r) = (done, w) ∧
      readAll done (Reader.new w.bytes r) = .ok (done.map (Call.result r)) last ∧
      last.position = last.length ∧ last.remaining = 0 ∧ last.hasMore = false := by
  obtain ⟨bytes, hw, hr⟩ := readAll_apply cs (new r)
  have hb : (perform cs (new r)).2.bytes = bytes := by rw [hw]; rfl
  have hread := hr [] []
  rw [List.append_nil, ← hb] at hread
  exact ⟨_, _, _, rfl, perform_perform cs (new r), hread, Reader.between_nil _ r⟩

/-- No type has the name of the second call, so nothing is written between the short and its
padding. -/
example : (perform [.write "uint16" (.number (.int 0x1234)), .write "quad" (.number (.int 1)),
    .pad 2, .writeName .pointer (.number (.int 16))]
      (new (Registry.ofArchitecture .arm64))).2.bytes =
    [0x12, 0x34, 0, 0, 0, 0, 0, 0, 0, 0, 0, 16] := by decide

end Writer

end ByteLayout
