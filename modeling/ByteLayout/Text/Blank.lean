/-!
# Blank characters

A character is blank when Unicode gives it the property White_Space.  There are
twenty-five such characters, in ten ranges, and `trim` removes them from both
ends of a text.  A text that neither begins nor ends with a blank is left
alone, and blanks around it are all that is lost: `trim_append` says so.
-/

namespace ByteLayout.Text

/-- The code points of the property White_Space, as closed ranges. -/
def blankRanges : List (Nat × Nat) :=
  [(0x09, 0x0D), (0x20, 0x20), (0x85, 0x85), (0xA0, 0xA0), (0x1680, 0x1680), (0x2000, 0x200A),
    (0x2028, 0x2029), (0x202F, 0x202F), (0x205F, 0x205F), (0x3000, 0x3000)]

def isBlank (c : Char) : Bool :=
  blankRanges.any fun r => r.1 ≤ c.toNat && c.toNat ≤ r.2

def trimLeft (cs : List Char) : List Char := cs.dropWhile isBlank

/-- **A text without the blanks at its two ends.** -/
def trim (cs : List Char) : List Char := (trimLeft (trimLeft cs).reverse).reverse

theorem trimLeft_append : ∀ (ws cs : List Char), (∀ w ∈ ws, isBlank w) →
    trimLeft (ws ++ cs) = trimLeft cs := by
  intro ws cs h
  induction ws with
  | nil => rfl
  | cons w ws ih =>
    have hw : isBlank w = true := h w (List.mem_cons_self ..)
    rw [List.cons_append, trimLeft, List.dropWhile_cons, if_pos hw]
    exact ih fun v hv => h v (List.mem_cons_of_mem w hv)

theorem trimLeft_eq_self : ∀ cs : List Char, (∀ c ∈ cs.head?, isBlank c = false) →
    trimLeft cs = cs := by
  intro cs h
  cases cs with
  | nil => rfl
  | cons c cs =>
    have hc : isBlank c = false := h c (by simp)
    simp [trimLeft, hc]

/-- **Blanks around a text are all that trimming removes**, provided the text itself neither
begins nor ends with one. -/
theorem trim_append : ∀ ws cs vs : List Char, (∀ w ∈ ws, isBlank w) → (∀ v ∈ vs, isBlank v) →
    (∀ c ∈ cs.head?, isBlank c = false) → (∀ c ∈ cs.getLast?, isBlank c = false) → cs ≠ [] →
    trim (ws ++ cs ++ vs) = cs := by
  intro ws cs vs hws hvs hh hl hne
  have hhead : ∀ c ∈ (cs ++ vs).head?, isBlank c = false := by
    cases cs with
    | nil => exact absurd rfl hne
    | cons c cs => exact hh
  have hlast : ∀ c ∈ cs.reverse.head?, isBlank c = false := by
    rw [List.head?_reverse]
    exact hl
  rw [trim, List.append_assoc, trimLeft_append ws _ hws, trimLeft_eq_self _ hhead,
    List.reverse_append, trimLeft_append _ _ (fun v hv => hvs v (List.mem_reverse.mp hv)),
    trimLeft_eq_self _ hlast, List.reverse_reverse]

end ByteLayout.Text
