import ByteLayout.Proofs.Primitive.Machine

/-!
# Machine data one after the other

A `Datum` is machine data together with the type and the order that it is
written in.  Data of all types and orders can be written into a buffer one after
the other; `writeEach` does so up to the first that is wider than what is left,
and `reach` counts how many there are before it.

One write puts bytes over as many others and moves behind them, and one read
goes over the same bytes and makes the same data of them (`write_between`,
`read_between`).  A run of either does no more than that for all of its data
(`writeEach_between`, `readEach_between`), so the bytes around a run stay as they
were, and reading starts and ends where writing did.

Bytes that are read in the other order are other data.  `readAt_opposite` says
which: the data that has these bytes in reverse.
-/

namespace ByteLayout

open Steps

/-! ### Data and its bytes -/

namespace Primitive

variable {p : Primitive} {o : ByteOrder}

theorem encode_word_inj {x y : p.Carrier} :
    Bytes.encode o p.width (p.word x) = Bytes.encode o p.width (p.word y) ↔ x = y := by
  refine ⟨?_, fun h => by rw [h]⟩
  intro h
  have hw : p.word x = p.word y := by
    rw [← Bytes.decode_encode_of_lt o (p.word_lt x), h, Bytes.decode_encode_of_lt o (p.word_lt y)]
  rw [← p.ofWord_word x, hw, ofWord_word]

/-- **The one data whose bytes are those of other data in reverse**, in either order. -/
def Reverses (p : Primitive) (x y : p.Carrier) : Prop :=
  ∀ (o : ByteOrder) (z : p.Carrier),
    Bytes.encode o p.width (p.word z) = (Bytes.encode o p.width (p.word x)).reverse ↔ z = y

theorem encode_word_ofWord {bytes : Bytes} (h : bytes.length = p.width) :
    Bytes.encode o p.width (p.word (p.ofWord (Bytes.decode o bytes))) = bytes := by
  rw [word_ofWord (h ▸ Bytes.decode_lt o bytes), ← h, Bytes.encode_decode]

theorem reverses_of_decode (o : ByteOrder) {bytes : Bytes} (h : bytes.length = p.width) :
    p.Reverses (p.ofWord (Bytes.decode o bytes)) (p.ofWord (Bytes.decode o.opposite bytes)) := by
  -- One of the two data has `bytes` in each order, and the other has them in reverse there.
  have hrev : ∀ o' : ByteOrder,
      (Bytes.encode o' p.width (p.word (p.ofWord (Bytes.decode o bytes)))).reverse =
        Bytes.encode o' p.width (p.word (p.ofWord (Bytes.decode o.opposite bytes))) := by
    intro o'
    rcases o.eq_or_eq_opposite o' with rfl | rfl
    · rw [encode_word_ofWord h, ← o'.opposite_opposite, Bytes.encode_opposite,
        o'.opposite_opposite, encode_word_ofWord h]
    · rw [encode_word_ofWord h, Bytes.encode_opposite, encode_word_ofWord h, List.reverse_reverse]
  intro o' z
  rw [hrev]
  exact encode_word_inj

/-! ### One read and one write -/

/-- **What was written is read.** -/
theorem readAt_between (x : p.Carrier) (done rest : Bytes) :
    let bytes := Bytes.encode o p.width (p.word x)
    p.readAt o (.between done (bytes ++ rest)) = .ok x (.between (done ++ bytes) rest) := by
  intro bytes
  have hl : bytes.length = p.width := Bytes.length_encode _ _ _
  have hdata : p.ofWord (Bytes.decode o bytes) = x := by
    rw [Bytes.decode_encode_of_lt o (p.word_lt x), ofWord_word]
  rw [p.takes_readAt, ← hl, if_neg (Buffer.enough_between done bytes rest), Buffer.next_between,
    Buffer.between_append]
  exact congrArg (EStateM.Result.ok · _) hdata

/-- **Read in the other order**, bytes are the data that has them in reverse. -/
theorem readAt_opposite {b c : Buffer} {x : p.Carrier} (h : p.readAt o b = .ok x c) :
    ∃ y, p.readAt o.opposite b = .ok y c ∧ p.Reverses x y := by
  rw [p.takes_readAt] at h
  by_cases hb : b.remaining < p.width
  · rw [if_pos hb] at h
    cases h
  · rw [if_neg hb] at h
    obtain ⟨rfl, rfl⟩ := EStateM.Result.ok.inj h
    refine ⟨_, ?_, reverses_of_decode o (Buffer.length_next_of_enough hb)⟩
    rw [p.takes_readAt, if_neg hb]

theorem readAt_of_short {b : Buffer} (h : b.remaining < p.width) :
    p.readAt o b = .error (.lengthMismatch p.width b.remaining) b := by
  rw [p.takes_readAt, if_pos h]

theorem writeAt_of_short {x : p.Carrier} {b : Buffer} (h : b.remaining < p.width) :
    p.writeAt o x b = .error (.lengthMismatch p.width b.remaining) b := by
  rw [writeAt, Buffer.put_apply, Bytes.length_encode, if_pos h]

end Primitive

/-! ### Data of all types -/

/-- **Machine data with its type**: the primitive it is data of, and the order it is written in. -/
structure Datum extends Scalar where
  data : primitive.Carrier

namespace Datum

/-- The bytes that data is written as. -/
def bytes (d : Datum) : Bytes := Bytes.encode d.order d.primitive.width (d.primitive.word d.data)

def write (d : Datum) : BufferM Unit := d.primitive.writeAt d.order d.data

/-- The data of a type that the next bytes are. -/
def read (s : Scalar) : BufferM Datum := do
  let x ← s.primitive.readAt s.order
  return ⟨s, x⟩

/-- **Data written one after the other**, up to the first that is refused. -/
def writeEach : List Datum → BufferM Unit
  | [] => return
  | d :: ds => do
    d.write
    writeEach ds

/-- **Data of some types read one after the other.** -/
def readEach : List Scalar → BufferM (List Datum)
  | [] => return []
  | s :: ss => do
    let d ← read s
    let ds ← readEach ss
    return d :: ds

/-- The number of bytes that data takes together. -/
def totalWidth : List Datum → Nat
  | [] => 0
  | d :: ds => d.width + totalWidth ds

/-- **How many of some data come before the first that is too wide** for what is left then. -/
def reach (room : Nat) : List Datum → Nat
  | [] => 0
  | d :: ds => if room < d.width then 0 else reach (room - d.width) ds + 1

theorem length_bytes (d : Datum) : d.bytes.length = d.width := Bytes.length_encode _ _ _

theorem length_flatMap_bytes (ds : List Datum) : (ds.flatMap bytes).length = totalWidth ds := by
  induction ds with
  | nil => rfl
  | cons d ds ih => rw [List.flatMap_cons, List.length_append, length_bytes, ih, totalWidth]

theorem totalWidth_take_reach (ds : List Datum) :
    ∀ room, totalWidth (ds.take (reach room ds)) ≤ room := by
  induction ds with
  | nil => exact fun room => Nat.zero_le room
  | cons d ds ih =>
    intro room
    rw [reach]
    split
    · exact Nat.zero_le room
    · have h := ih (room - d.width)
      rw [List.take_succ_cons, totalWidth]
      omega

/-- **The first that is not reached is too wide.** -/
theorem lt_of_getElem?_reach {d : Datum} (ds : List Datum) :
    ∀ {room}, ds[reach room ds]? = some d →
      room < totalWidth (ds.take (reach room ds)) + d.width := by
  induction ds with
  | nil => intro room h; cases h
  | cons e ds ih =>
    intro room h
    rw [reach] at h ⊢
    split at h
    · rename_i hlt
      obtain rfl := Option.some.inj h
      rw [if_pos hlt, List.take_zero, totalWidth, Nat.zero_add]
      exact hlt
    · rename_i hge
      have hd := ih h
      rw [if_neg hge, List.take_succ_cons, totalWidth]
      omega

/-! ### One after the other -/

theorem write_between {d : Datum} {rest : Bytes} (h : d.width ≤ rest.length) (done : Bytes) :
    d.write (.between done rest) = .ok () (.between (done ++ d.bytes) (rest.drop d.width)) := by
  have hold : (rest.take d.width).length = d.bytes.length := by
    rw [List.length_take_of_le h, length_bytes]
  have hput := Buffer.put_between hold done (rest.drop d.width)
  rwa [List.take_append_drop] at hput

theorem read_between (d : Datum) (done rest : Bytes) :
    read d.toScalar (.between done (d.bytes ++ rest)) =
      .ok d (.between (done ++ d.bytes) rest) := by
  have hread : d.primitive.readAt d.order (.between done (d.bytes ++ rest)) =
      .ok d.data (.between (done ++ d.bytes) rest) := Primitive.readAt_between d.data done rest
  rw [read, bind_apply, hread]
  rfl

/-- **A run of writes puts all the bytes over as many others.** -/
theorem writeEach_between (ds : List Datum) : ∀ {done rest : Bytes}, totalWidth ds ≤ rest.length →
    writeEach ds (.between done rest) =
      .ok () (.between (done ++ ds.flatMap bytes) (rest.drop (totalWidth ds))) := by
  induction ds with
  | nil =>
    intro done rest _
    rw [List.flatMap_nil, List.append_nil]
    rfl
  | cons d ds ih =>
    intro done rest h
    rw [totalWidth] at h
    -- The bytes of `d` are gone over now, so the others are written behind `done ++ d.bytes`.
    have hrest : totalWidth ds ≤ (rest.drop d.width).length := by
      rw [List.length_drop]
      omega
    rw [writeEach, bind_apply, write_between (by omega) done]
    show writeEach ds _ = _
    rw [ih hrest, List.flatMap_cons, List.append_assoc, List.drop_drop, totalWidth]

/-- **A run of reads takes all the bytes**, and has the data again. -/
theorem readEach_between (ds : List Datum) : ∀ done rest : Bytes,
    readEach (ds.map toScalar) (.between done (ds.flatMap bytes ++ rest)) =
      .ok ds (.between (done ++ ds.flatMap bytes) rest) := by
  induction ds with
  | nil =>
    intro done rest
    rw [List.flatMap_nil, List.append_nil]
    rfl
  | cons d ds ih =>
    intro done rest
    simp only [List.map_cons, List.flatMap_cons, List.append_assoc, readEach, bind_apply,
      read_between, ih, pure_apply]

theorem writeEach_append (xs ys : List Datum) : ∀ b : Buffer,
    writeEach (xs ++ ys) b = match writeEach xs b with
      | .ok _ c => writeEach ys c
      | .error e c => .error e c := by
  induction xs with
  | nil => exact fun _ => rfl
  | cons x xs ih =>
    intro b
    rw [List.cons_append, writeEach, writeEach, bind_apply, bind_apply]
    cases x.write b with
    | ok _ c => exact ih c
    | error e c => rfl

/-- A write that is refused ends the run. -/
theorem writeEach_of_error {ds : List Datum} {k : Nat} {d : Datum} {b c : Buffer} {e : Error}
    (hd : ds[k]? = some d) (hrun : writeEach (ds.take k) b = .ok () c)
    (he : d.write c = .error e c) : writeEach ds b = .error e c := by
  obtain ⟨hk, rfl⟩ := List.getElem?_eq_some_iff.mp hd
  rw [← List.take_append_drop k ds, writeEach_append, hrun, List.drop_eq_getElem_cons hk]
  show (do ds[k].write; writeEach _ : BufferM Unit) c = _
  rw [bind_apply, he]

/-! ### What was written and what was not -/

/-- **Data was written one after the other**, from the offset of `b` to that of `c`.  There was room
for it, the bytes before and behind are those there were, and the data is read back, each by itself
also in the other order. -/
structure Written (ds : List Datum) (b c : Buffer) : Prop where
  run : writeEach ds b = .ok () c
  fits : totalWidth ds ≤ b.remaining
  offset : c.offset = b.offset + totalWidth ds
  length : c.data.length = b.data.length
  before : c.data.take b.offset = b.data.take b.offset
  after : c.data.drop c.offset = b.data.drop c.offset
  readBack : readEach (ds.map toScalar) { c with offset := b.offset } = .ok ds c
  opposite : ∀ front d back, ds = front ++ d :: back →
    let start := b.offset + totalWidth front
    ∃ y, d.primitive.readAt d.order.opposite { c with offset := start } =
        .ok y { c with offset := start + d.width } ∧
      d.primitive.Reverses d.data y

/-- Reading of some data by itself, behind that before it. -/
theorem readAt_opposite_between (front : List Datum) (d : Datum) (done rest : Bytes) :
    let start := done.length + totalWidth front
    let data := done ++ (front.flatMap bytes ++ (d.bytes ++ rest))
    ∃ y, d.primitive.readAt d.order.opposite ⟨data, start⟩ = .ok y ⟨data, start + d.width⟩ ∧
      d.primitive.Reverses d.data y := by
  intro start data
  have hbefore : Buffer.mk data start =
      .between (done ++ front.flatMap bytes) (d.bytes ++ rest) := by
    rw [Buffer.between, List.append_assoc, List.length_append, length_flatMap_bytes]
  have hafter : Buffer.between (done ++ front.flatMap bytes ++ d.bytes) rest =
      ⟨data, start + d.width⟩ := by
    rw [Buffer.between_append, length_bytes, ← hbefore, List.length_append, length_flatMap_bytes]
  have hread := Primitive.readAt_between (o := d.order) d.data (done ++ front.flatMap bytes) rest
  rw [hbefore, ← hafter]
  exact Primitive.readAt_opposite hread

theorem written_between {ds : List Datum} {done rest : Bytes} (h : totalWidth ds ≤ rest.length) :
    Written ds (.between done rest)
      (.between (done ++ ds.flatMap bytes) (rest.drop (totalWidth ds))) where
  run := writeEach_between ds h
  fits := by rwa [Buffer.remaining_between]
  offset := by
    show (done ++ ds.flatMap bytes).length = done.length + totalWidth ds
    rw [List.length_append, length_flatMap_bytes]
  length := by
    show (done ++ ds.flatMap bytes ++ rest.drop (totalWidth ds)).length = (done ++ rest).length
    simp only [List.length_append, List.length_drop, length_flatMap_bytes]
    omega
  before := by
    show (done ++ ds.flatMap bytes ++ _).take done.length = (done ++ rest).take done.length
    rw [List.append_assoc, List.take_left, List.take_left]
  after := by
    show (done ++ ds.flatMap bytes ++ _).drop (done ++ ds.flatMap bytes).length =
      (done ++ rest).drop (done ++ ds.flatMap bytes).length
    rw [List.drop_left, List.length_append, List.drop_length_add_append, length_flatMap_bytes]
  readBack := by
    have hread := readEach_between ds done (rest.drop (totalWidth ds))
    rwa [Buffer.between, ← List.append_assoc] at hread
  opposite := by
    rintro front d back rfl
    have hread := readAt_opposite_between front d done
      (back.flatMap bytes ++ rest.drop (totalWidth (front ++ d :: back)))
    simpa only [Buffer.between, List.flatMap_append, List.flatMap_cons, List.append_assoc]
      using hread

/-- **Data is written as far as there is room for it.** -/
theorem written_reach {b : Buffer} (h : b.offset ≤ b.data.length) (ds : List Datum) :
    ∃ c, Written (ds.take (reach b.remaining ds)) b c := by
  obtain ⟨done, rest, rfl⟩ := Buffer.exists_between h
  refine ⟨_, written_between ?_⟩
  rw [Buffer.remaining_between]
  exact totalWidth_take_reach ds rest.length

theorem Written.remaining_lt {ds : List Datum} {b c : Buffer} {d : Datum}
    (h : Written (ds.take (reach b.remaining ds)) b c) (hd : ds[reach b.remaining ds]? = some d) :
    c.remaining < d.width := by
  have hlt := lt_of_getElem?_reach ds hd
  have hfits := h.fits
  have hlength := h.length
  have hoffset := h.offset
  have hroom : b.remaining = b.data.length - b.offset := rfl
  show c.data.length - c.offset < d.width
  omega

/-- **Data of any types and orders is written one after the other and read back.**  From an offset
in the buffer, data is written as long as there is room for it; the first that is too wide is
refused, and then nothing is written of it and the offset stays.  What was written is read back bit
for bit, and each by itself is read in the other order as the data that has its bytes in reverse.
From an offset past the end nothing is read or written. -/
theorem writeEach_reads_back :
    (∀ (ds : List Datum) (b : Buffer), b.offset ≤ b.data.length →
      let k := reach b.remaining ds
      ∃ c, Written (ds.take k) b c ∧
        (ds[k]? = none → writeEach ds b = .ok () c) ∧
        ∀ d, ds[k]? = some d → c.remaining < d.width ∧
          d.write c = .error (.lengthMismatch d.width c.remaining) c ∧
          writeEach ds b = .error (.lengthMismatch d.width c.remaining) c) ∧
    ∀ b : Buffer, b.data.length < b.offset → ∀ (p : Primitive) (o : ByteOrder),
      p.readAt o b = .error (.lengthMismatch p.width 0) b ∧
        ∀ x, p.writeAt o x b = .error (.lengthMismatch p.width 0) b := by
  constructor
  · intro ds b h k
    obtain ⟨c, hw⟩ := written_reach h ds
    refine ⟨c, hw, ?_, ?_⟩
    · -- All of the data is reached, and its beginning is the whole of it.
      intro hnone
      have hrun := hw.run
      rwa [List.take_of_length_le (List.getElem?_eq_none_iff.mp hnone)] at hrun
    · intro d hd
      have hshort := hw.remaining_lt hd
      have hrefused := Primitive.writeAt_of_short (o := d.order) (x := d.data) hshort
      exact ⟨hshort, hrefused, writeEach_of_error hd hw.run hrefused⟩
  · intro b h p o
    have hr : b.remaining = 0 := Nat.sub_eq_zero_of_le (Nat.le_of_lt h)
    have hp := p.width_pos
    rw [← hr] at hp ⊢
    exact ⟨Primitive.readAt_of_short hp, fun _ => Primitive.writeAt_of_short hp⟩

/-- A number, a signalling NaN in the other order, and a number that there is no room for, into the
middle of some bytes; the first number read in the other order; and an offset past the end. -/
theorem writeEach_reads_back_mixed :
    let ds : List Datum := [⟨⟨.uint16, .bigEndian⟩, (0x1234 : UInt16)⟩,
      ⟨⟨.float32, .littleEndian⟩, (.ofNat 0x7f800001 : Binary32)⟩,
      ⟨⟨.int64, .bigEndian⟩, (-2 : Int64)⟩]
    let b : Buffer := ⟨List.replicate 9 7, 1⟩
    let c : Buffer := ⟨[7, 0x12, 0x34, 1, 0, 0x80, 0x7f, 7, 7], 7⟩
    (b.offset ≤ b.data.length ∧ writeEach ds b = .error (.lengthMismatch 8 2) c ∧
      readEach [⟨.uint16, .bigEndian⟩, ⟨.float32, .littleEndian⟩] ⟨c.data, 1⟩ =
        .ok (ds.take 2) c ∧
      ∃ y, Primitive.uint16.readAt .littleEndian ⟨c.data, 1⟩ = .ok y ⟨c.data, 3⟩ ∧
        Primitive.uint16.Reverses (0x1234 : UInt16) y) ∧
    c.data.length < 10 ∧
      Primitive.uint8.readAt .bigEndian ⟨c.data, 10⟩ =
        .error (.lengthMismatch 1 0) ⟨c.data, 10⟩ := by
  intro ds b c
  obtain ⟨hrun, hpast⟩ := writeEach_reads_back
  have hb : b.offset ≤ b.data.length := by decide
  obtain ⟨c', hw, -, hstop⟩ := hrun ds b hb
  have hc : writeEach (ds.take 2) b = .ok () c := rfl
  obtain rfl : c' = c := (EStateM.Result.ok.inj (hw.run.symm.trans hc)).2
  have hlong : c.data.length < 10 := by decide
  exact ⟨⟨hb, (hstop _ rfl).2.2, hw.readBack, hw.opposite [] _ _ rfl⟩, hlong,
    (hpast ⟨c.data, 10⟩ hlong .uint8 .bigEndian).1⟩

end Datum

end ByteLayout
