import ByteLayout.Error
import ByteLayout.Text.Blank
import ByteLayout.Text.Caseless

/-!
# Targets from text

A target is written as the name of an architecture, for its default order, or
as that name, a colon and the name of an order.  Blanks around either part do
not count and neither does the case of ASCII letters.  The part before the
first colon is looked at first, and an unknown part is reported without the
blanks around it; a second colon belongs to the order's part.
-/

namespace ByteLayout

def Architecture.named (cs : List Char) : Except Error Architecture :=
  match Text.findName Architecture.spellings Architecture.all cs with
  | some a => .ok a
  | none => .error (.unknownIdentity (.architecture (String.ofList cs)))

def ByteOrder.named (cs : List Char) : Except Error ByteOrder :=
  match Text.findName ByteOrder.spellings ByteOrder.all cs with
  | some o => .ok o
  | none => .error (.unknownIdentity (.byteOrder (String.ofList cs)))

namespace Target

/-- The text before the first colon, and the text after it if there is one. -/
def splitColon : List Char → List Char × Option (List Char)
  | [] => ([], none)
  | c :: cs =>
    if c = ':' then ([], some cs)
    else
      let (before, after) := splitColon cs
      (c :: before, after)

theorem splitColon_append : ∀ as cs : List Char, ':' ∉ as →
    splitColon (as ++ ':' :: cs) = (as, some cs) := by
  intro as cs h
  induction as with
  | nil => rfl
  | cons a as ih =>
    have ha : a ≠ ':' := fun e => h (e ▸ List.mem_cons_self ..)
    rw [List.cons_append, splitColon, if_neg ha, ih fun m => h (List.mem_cons_of_mem a m)]

theorem splitColon_of_not_mem : ∀ as : List Char, ':' ∉ as → splitColon as = (as, none) := by
  intro as h
  induction as with
  | nil => rfl
  | cons a as ih =>
    have ha : a ≠ ':' := fun e => h (e ▸ List.mem_cons_self ..)
    rw [splitColon, if_neg ha, ih fun m => h (List.mem_cons_of_mem a m)]

def ofChars (cs : List Char) : Except Error Target :=
  match splitColon cs with
  | (before, some after) => do
    let a ← Architecture.named (Text.trim before)
    let o ← ByteOrder.named (Text.trim after)
    return ⟨a, o⟩
  | (before, none) => do
    let a ← Architecture.named (Text.trim before)
    return ofArchitecture a

/-- **The target that a text names**, as in `arm64` or `MIPS:be`. -/
def parse (s : String) : Except Error Target := ofChars s.toList

end Target

end ByteLayout
