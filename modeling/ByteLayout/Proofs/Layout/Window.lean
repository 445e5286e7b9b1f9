import ByteLayout.Proofs.Layout.Nested

/-!
# Unpacking a window

Unpacking from the middle of a buffer is unpacking the bytes of a window by
themselves: as many as the layout is wide, from the offset on.  They are counted
once, for the outermost layout.  If they are there, everything within the layout
finds its bytes, and nothing outside the window has a part in the result.

A layout without width has an empty window, and it is there even for an offset
past the end.
-/

namespace ByteLayout.Layout

theorem unpack_next {T : Layout} {b : Buffer} (h : ¬b.remaining < T.width) :
    T.unpack (b.next T.width) = .ok (T.decode (b.next T.width)) := by
  rw [unpack_eq, if_pos (Buffer.length_next_of_enough h)]

/-- **Unpacking in place is unpacking the window.**  Too few bytes are refused with the width of the
whole layout, and the offset stays.  With enough of them nothing within is refused, the value is
that of the window by itself, and any buffer with the same window has it. -/
theorem unpackAt_window (T : Layout) (b : Buffer) :
    (b.remaining < T.width →
      T.unpackAt b = .error (.lengthMismatch T.width b.remaining) b) ∧
    (¬b.remaining < T.width → ∃ v,
      T.unpack (b.next T.width) = .ok v ∧
      T.unpackAt b = .ok v { b with offset := b.offset + T.width } ∧
      (∀ U c, Unpacks T b U c → ∃ w, U.unpackAt c = .ok w { c with offset := c.offset + U.width }) ∧
      ∀ c : Buffer, ¬c.remaining < T.width → c.next T.width = b.next T.width →
        T.unpackAt c = .ok v { c with offset := c.offset + T.width }) := by
  constructor
  · intro h
    rw [unpackAt_apply, if_pos h]
  · intro h
    refine ⟨T.decode (b.next T.width), unpack_next h, unpackAt_ok h, ?_, ?_⟩
    · intro U c hc
      exact ⟨_, unpackAt_ok hc.inside.1⟩
    · intro c hc hn
      rw [← hn]
      exact unpackAt_ok hc

/-- Two buffers with one window; a byte too few; and no bytes, past the end. -/
theorem unpackAt_window_tagged :
    (∃ v, tagged.unpack [2, 0, 1, 0, 0, 128, 191, 255, 253, 0, 0, 128, 64] = .ok v ∧
      tagged.unpackAt ⟨[7, 2, 0, 1, 0, 0, 128, 191, 255, 253, 0, 0, 128, 64, 7], 1⟩ =
        .ok v ⟨[7, 2, 0, 1, 0, 0, 128, 191, 255, 253, 0, 0, 128, 64, 7], 14⟩ ∧
      tagged.unpackAt ⟨[2, 0, 1, 0, 0, 128, 191, 255, 253, 0, 0, 128, 64], 0⟩ =
        .ok v ⟨[2, 0, 1, 0, 0, 128, 191, 255, 253, 0, 0, 128, 64], 13⟩) ∧
    tagged.unpackAt ⟨List.replicate 13 0, 1⟩ =
      .error (.lengthMismatch 13 12) ⟨List.replicate 13 0, 1⟩ ∧
    (array tagged 0).unpackAt ⟨[7], 5⟩ = .ok (.list []) ⟨[7], 5⟩ := by
  refine ⟨?_, (unpackAt_window tagged _).1 (by decide), ?_⟩
  · obtain ⟨v, hv, hb, -, hc⟩ := (unpackAt_window tagged
      ⟨[7, 2, 0, 1, 0, 0, 128, 191, 255, 253, 0, 0, 128, 64, 7], 1⟩).2 (by decide)
    exact ⟨v, hv, hb, hc ⟨_, 0⟩ (by decide) rfl⟩
  · obtain ⟨v, hv, hb, -⟩ := (unpackAt_window (array tagged 0) ⟨[7], 5⟩).2 (by decide)
    rw [← Except.ok.inj hv] at hb
    exact hb

end ByteLayout.Layout
