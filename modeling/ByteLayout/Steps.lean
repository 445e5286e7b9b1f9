/-!
# Steps that may be refused

Buffers, readers, writers and notes are all changed by steps of one kind: a
step looks at a state and either gives a result and the next state, or is
refused with a cause.  A refused step too has a state after it, so whether it
leaves a trace is a matter of each step; `transaction` is the one that takes
the trace back.

A step is applied to a state like a function, and the equations below say what
each way of composing steps does then.
-/

namespace ByteLayout

/-- **The state before a step that was refused is put back.** -/
def transaction (act : EStateM ε σ α) : EStateM ε σ α := fun s =>
  match act s with
  | .ok a t => .ok a t
  | .error e _ => .error e s

namespace Steps

theorem pure_apply (a : α) (s : σ) : (pure a : EStateM ε σ α) s = .ok a s := rfl

theorem bind_apply (act : EStateM ε σ α) (f : α → EStateM ε σ β) (s : σ) :
    (act >>= f) s = match act s with
      | .ok a t => f a t
      | .error e t => .error e t := rfl

theorem get_apply (s : σ) : (get : EStateM ε σ σ) s = .ok s s := rfl

theorem modify_apply (f : σ → σ) (s : σ) : (modify f : EStateM ε σ PUnit) s = .ok ⟨⟩ (f s) := rfl

theorem ofExcept_ok (a : α) (s : σ) :
    (MonadExcept.ofExcept (.ok a : Except ε α) : EStateM ε σ α) s = .ok a s := rfl

theorem ofExcept_apply (r : Except ε α) (s : σ) :
    (MonadExcept.ofExcept r : EStateM ε σ α) s = match r with
      | .ok a => .ok a s
      | .error e => .error e s := by
  cases r <;> rfl

theorem branch_apply (p : Prop) [Decidable p] (x y : EStateM ε σ α) (s : σ) :
    (if p then x else y) s = if p then x s else y s := by
  split <;> rfl

end Steps

end ByteLayout
