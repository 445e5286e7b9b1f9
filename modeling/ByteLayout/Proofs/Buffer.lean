import ByteLayout.Buffer

/-!
# Buffers gone over in part

`between done rest` is a buffer whose offset lies at the end of `done`.  What a
step goes over moves from the second part to the first: `next_between` are the
bytes that come next, `advance_between` moves past them, and `put_between` puts
others in their place.  Nothing is asked of the bytes on either side, so a fact
about one step holds wherever in a run it is taken.

`next` and `splice` go together where one window lies within another: to write
over bytes in the inner one is to do so in the outer one (`splice_window`), and
the bytes elsewhere stay (`getElem?_splice`).  Windows that lie apart can be
written over in either order (`splice_comm`).

`filled` starts with all of its zeros on the second side; `filled_of_ok` is for
a step that leaves none there.

Reading of any kind is a step that `Takes` a number of bytes: it is refused if
there are fewer, and else moves past them and is a function of them alone.
-/

namespace ByteLayout.Buffer

/-- The buffer between the bytes that were gone over and the others. -/
def between (done rest : Bytes) : Buffer := ⟨done ++ rest, done.length⟩

theorem exists_between {b : Buffer} (h : b.offset ≤ b.data.length) :
    ∃ done rest, b = between done rest := by
  refine ⟨b.data.take b.offset, b.data.drop b.offset, ?_⟩
  rw [between, List.take_append_drop, List.length_take_of_le h]

theorem remaining_between (done rest : Bytes) : (between done rest).remaining = rest.length := by
  show (done ++ rest).length - done.length = _
  rw [List.length_append]
  omega

theorem enough_between (done bytes rest : Bytes) :
    ¬(between done (bytes ++ rest)).remaining < bytes.length := by
  rw [remaining_between, List.length_append]
  omega

theorem inside_between (done bytes rest : Bytes) :
    ¬(between done (bytes ++ rest)).data.length <
      (between done (bytes ++ rest)).offset + bytes.length := by
  show ¬(done ++ (bytes ++ rest)).length < done.length + bytes.length
  rw [List.length_append, List.length_append]
  omega

theorem next_between (done bytes rest : Bytes) :
    (between done (bytes ++ rest)).next bytes.length = bytes := by
  show ((done ++ (bytes ++ rest)).drop done.length).take bytes.length = bytes
  rw [List.drop_left, List.take_left]

theorem between_append (done bytes rest : Bytes) :
    between (done ++ bytes) rest =
      { between done (bytes ++ rest) with offset := done.length + bytes.length } := by
  rw [between, List.append_assoc, List.length_append]
  rfl

/-- **Bytes are moved past.** -/
theorem advance_between (done bytes rest : Bytes) :
    advance bytes.length (between done (bytes ++ rest)) =
      .ok () (between (done ++ bytes) rest) := by
  rw [advance_apply, if_neg (inside_between done bytes rest), between_append]
  rfl

theorem splice_between {bytes old : Bytes} (h : old.length = bytes.length) (done rest : Bytes) :
    (between done (old ++ rest)).splice bytes = done ++ (bytes ++ rest) := by
  show (done ++ (old ++ rest)).take done.length ++ bytes ++
    (done ++ (old ++ rest)).drop (done.length + bytes.length) = _
  rw [List.take_left, ← h, ← List.append_assoc done old, ← List.length_append, List.drop_left,
    List.append_assoc]

/-- **Bytes are put over as many others**, and what lies around them stays. -/
theorem put_between {bytes old : Bytes} (h : old.length = bytes.length) (done rest : Bytes) :
    put bytes (between done (old ++ rest)) = .ok () (between (done ++ bytes) rest) := by
  have hr := enough_between done old rest
  have hi := inside_between done old rest
  rw [h] at hr hi
  rw [put_apply, if_neg hr, if_neg hi, splice_between h, between_append]
  rfl

theorem put_zeros (bytes done : Bytes) (n : Nat) :
    put bytes (between done (List.replicate (bytes.length + n) 0)) =
      .ok () (between (done ++ bytes) (List.replicate n 0)) := by
  rw [← List.replicate_append_replicate, put_between List.length_replicate]

/-- **Bytes that remain lie in the buffer**: past the end there are none, so only an empty window
can be asked for there. -/
theorem inside_of_enough {b : Buffer} {n : Nat} (h : ¬b.remaining < n)
    (hb : b.offset ≤ b.data.length ∨ 0 < n) : b.offset + n ≤ b.data.length := by
  rw [remaining] at h
  omega

/-! ### Windows of a buffer -/

theorem length_next_of_enough {b : Buffer} {n : Nat} (h : ¬b.remaining < n) :
    (b.next n).length = n := by
  rw [remaining] at h
  simp only [next, List.length_take, List.length_drop]
  omega

theorem length_next {data : Bytes} {a w : Nat} (h : a + w ≤ data.length) :
    (next ⟨data, a⟩ w).length = w := by
  apply length_next_of_enough
  show ¬data.length - a < w
  omega

theorem exists_window {data : Bytes} {a w : Nat} (h : a + w ≤ data.length) :
    ∃ done old rest, data = done ++ (old ++ rest) ∧ done.length = a ∧ old.length = w := by
  refine ⟨data.take a, (data.drop a).take w, (data.drop a).drop w, ?_, ?_, ?_⟩
  · rw [List.take_append_drop, List.take_append_drop]
  · rw [List.length_take]
    omega
  · rw [List.length_take, List.length_drop]
    omega

theorem next_prefix (done rest : Bytes) (k n : Nat) :
    next ⟨done ++ rest, done.length + k⟩ n = next ⟨rest, k⟩ n := by
  rw [next, ← List.drop_drop, List.drop_left, next]

theorem splice_prefix (done rest bytes : Bytes) (k : Nat) :
    splice ⟨done ++ rest, done.length + k⟩ bytes = done ++ splice ⟨rest, k⟩ bytes := by
  simp only [splice, List.take_length_add_append, Nat.add_assoc, List.drop_length_add_append,
    List.append_assoc]

theorem splice_start {old bytes : Bytes} (h : old.length = bytes.length) (rest : Bytes) :
    splice ⟨old ++ rest, 0⟩ bytes = bytes ++ rest := by
  rw [splice, List.take_zero, List.nil_append, Nat.zero_add, List.drop_left' h]

/-- The bytes within a window are bytes of the buffer. -/
theorem next_next (data : Bytes) (a : Nat) {k n w : Nat} (h : k + n ≤ w) :
    next ⟨next ⟨data, a⟩ w, k⟩ n = next ⟨data, a + k⟩ n := by
  simp only [next, List.drop_take, List.take_take, List.drop_drop]
  rw [Nat.min_eq_left (by omega)]

theorem next_splice (bytes : Bytes) {data : Bytes} {a : Nat} (h : a ≤ data.length) :
    next ⟨splice ⟨data, a⟩ bytes, a⟩ bytes.length = bytes := by
  simp only [next, splice, List.append_assoc]
  rw [List.drop_left' (by rw [List.length_take, Nat.min_eq_left h]), List.take_left]

/-- **Bytes written over within a window** are written over in the buffer. -/
theorem splice_window {data bytes : Bytes} {a k w : Nat} (h : k + bytes.length ≤ w)
    (hw : a + w ≤ data.length) :
    splice ⟨data, a⟩ (splice ⟨next ⟨data, a⟩ w, k⟩ bytes) = splice ⟨data, a + k⟩ bytes := by
  have hl := length_next hw
  have hs : (splice ⟨next ⟨data, a⟩ w, k⟩ bytes).length = w :=
    (length_splice (hl.symm ▸ h)).trans hl
  -- What follows in the window and what follows it are together what follows in the buffer.
  have hpost : ((data.drop a).take w).drop (k + bytes.length) ++ data.drop (a + w) =
      data.drop (a + k + bytes.length) := by
    have hd : data.drop (a + w) =
        (data.drop (a + k + bytes.length)).drop (w - (k + bytes.length)) := by
      rw [List.drop_drop]
      congr 1
      omega
    rw [List.drop_take, List.drop_drop, ← Nat.add_assoc, hd, List.take_append_drop]
  rw [splice, hs]
  simp only [splice, next, List.append_assoc, hpost]
  rw [List.take_take, Nat.min_eq_left (by omega), ← List.append_assoc, ← List.take_add]

/-- The window that was written over is the window, written over. -/
theorem next_splice_window {data bytes : Bytes} {a k w : Nat} (h : k + bytes.length ≤ w)
    (hw : a + w ≤ data.length) :
    next ⟨splice ⟨data, a + k⟩ bytes, a⟩ w = splice ⟨next ⟨data, a⟩ w, k⟩ bytes := by
  have hl := length_next hw
  have hs : (splice ⟨next ⟨data, a⟩ w, k⟩ bytes).length = w :=
    (length_splice (hl.symm ▸ h)).trans hl
  have hn := next_splice (splice ⟨next ⟨data, a⟩ w, k⟩ bytes)
    (Nat.le_trans (Nat.le_add_right a w) hw)
  rwa [hs, splice_window h hw] at hn

/-- **Bytes elsewhere are not written over.** -/
theorem getElem?_splice {data bytes : Bytes} {a i : Nat} (h : a + bytes.length ≤ data.length)
    (hi : i < a ∨ a + bytes.length ≤ i) : (splice ⟨data, a⟩ bytes)[i]? = data[i]? := by
  have hl : (data.take a).length = a := by
    rw [List.length_take]
    omega
  simp only [splice, List.append_assoc]
  rcases hi with hi | hi
  · rw [List.getElem?_append_left (by omega), List.getElem?_take_of_lt hi]
  · rw [List.getElem?_append_right (by omega), List.getElem?_append_right (by omega),
      List.getElem?_drop, hl]
    congr 1
    omega

theorem getElem?_splice_within {data bytes : Bytes} {a i : Nat}
    (h : a + bytes.length ≤ data.length) (hi : a ≤ i) (hi' : i < a + bytes.length) :
    (splice ⟨data, a⟩ bytes)[i]? = bytes[i - a]? := by
  have hl : (data.take a).length = a := by
    rw [List.length_take]
    omega
  simp only [splice, List.append_assoc]
  rw [List.getElem?_append_right (by omega), hl, List.getElem?_append_left (by omega)]

/-- **Bytes written over apart from each other** can be written in either order. -/
theorem splice_comm {data bytes bytes' : Bytes} {a a' : Nat} (h : a + bytes.length ≤ a')
    (h' : a' + bytes'.length ≤ data.length) :
    splice ⟨splice ⟨data, a⟩ bytes, a'⟩ bytes' = splice ⟨splice ⟨data, a'⟩ bytes', a⟩ bytes := by
  have hin : a + bytes.length ≤ data.length := by omega
  have hl : (splice ⟨data, a⟩ bytes).length = data.length := length_splice hin
  have hl' : (splice ⟨data, a'⟩ bytes').length = data.length := length_splice h'
  apply List.ext_getElem?
  intro i
  by_cases hi : a ≤ i ∧ i < a + bytes.length
  · rw [getElem?_splice (by omega) (by omega), getElem?_splice_within hin hi.1 hi.2,
      getElem?_splice_within (by omega) hi.1 hi.2]
  · have hfirst : (splice ⟨splice ⟨data, a'⟩ bytes', a⟩ bytes)[i]? =
        (splice ⟨data, a'⟩ bytes')[i]? := getElem?_splice (by omega) (by omega)
    rw [hfirst]
    by_cases hi' : a' ≤ i ∧ i < a' + bytes'.length
    · rw [getElem?_splice_within (by omega) hi'.1 hi'.2, getElem?_splice_within h' hi'.1 hi'.2]
    · rw [getElem?_splice (by omega) (by omega), getElem?_splice hin (by omega),
        getElem?_splice h' (by omega)]

/-! ### Bytes that may not be there -/

/-- Puts bytes, or is refused for the reason why there are none. -/
def putResult (r : Except Error Bytes) : BufferM Unit := do
  let bytes ← MonadExcept.ofExcept r
  put bytes

@[simp] theorem putResult_ok (bytes : Bytes) : putResult (.ok bytes) = put bytes := rfl

theorem putResult_error (e : Error) (b : Buffer) : putResult (.error e) b = .error e b := rfl

/-! ### Bytes of its own -/

theorem filled_of_ok {n : Nat} {act : BufferM Unit} {bytes : Bytes}
    (h : act (between [] (List.replicate n 0)) = .ok () (between bytes [])) :
    filled n act = .ok bytes := by
  rw [between, List.nil_append, List.length_nil] at h
  rw [filled, h]
  exact congrArg Except.ok (List.append_nil bytes)

theorem filled_of_error {n : Nat} {act : BufferM Unit} {e : Error} {b : Buffer}
    (h : act (between [] (List.replicate n 0)) = .error e b) : filled n act = .error e := by
  rw [between, List.nil_append, List.length_nil] at h
  rw [filled, h]

/-! ### Steps that take bytes -/

/-- **A step that takes the next `width` bytes** and makes something of them. -/
def Takes (act : BufferM α) (width : Nat) (f : Bytes → α) : Prop :=
  ∀ b, act b = if b.remaining < width then .error (.lengthMismatch width b.remaining) b
    else .ok (f (b.next width)) { b with offset := b.offset + width }

theorem Takes.map {act : BufferM α} {width : Nat} {f : Bytes → α} (h : Takes act width f)
    (g : α → β) : Takes (do let a ← act; return g a) width fun bytes => g (f bytes) := by
  intro b
  rw [Steps.bind_apply, h]
  by_cases hb : b.remaining < width
  · simp only [if_pos hb]
  · simp only [if_neg hb, Steps.pure_apply]

theorem takes_take {n : Nat} (hn : 0 < n) : Takes (take n) n id := by
  intro b
  rw [take_apply]
  by_cases hb : b.remaining < n
  · simp only [if_pos hb]
  · have hin := Nat.not_lt.mpr (inside_of_enough hb (.inr hn))
    simp only [if_neg hb, if_neg hin]
    rfl

/-- **On just as many bytes as it takes, a step is not refused.** -/
theorem Takes.exactly {act : BufferM α} {width : Nat} {f : Bytes → α} (h : Takes act width f)
    (data : Bytes) :
    exactly width data act = if data.length = width then .ok (f data)
      else .error (.lengthMismatch width data.length) := by
  rw [Buffer.exactly]
  split
  · rename_i hl
    have hn : next ⟨data, 0⟩ width = data := by
      rw [next, List.drop_zero, ← hl, List.take_length]
    have hr : ¬remaining ⟨data, 0⟩ < width := by
      show ¬data.length - 0 < width
      omega
    rw [evaluate, h, if_neg hr, hn]
  · rfl

end ByteLayout.Buffer
