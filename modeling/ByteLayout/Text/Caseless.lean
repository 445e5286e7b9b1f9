/-!
# Names without case

Names of targets are compared without regard to case, and the letters that have
case are those of ASCII alone: `ARM` is `arm`, while a full-width or accented
letter is only itself.
-/

namespace ByteLayout.Text

def fold (cs : List Char) : List Char := cs.map Char.toLower

/-- Whether two texts differ at most in the case of ASCII letters. -/
def sameName (cs ds : List Char) : Bool := fold cs == fold ds

theorem sameName_iff : ∀ cs ds : List Char, sameName cs ds ↔ fold cs = fold ds := by
  intro cs ds
  simp [sameName]

/-- The first candidate that has a spelling equal to the text up to case. -/
def findName (spellings : α → List String) (candidates : List α) (cs : List Char) : Option α :=
  candidates.find? fun a => (spellings a).any fun s => sameName s.toList cs

end ByteLayout.Text
