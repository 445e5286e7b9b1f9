import ByteLayout.Text.Blank
import ByteLayout.Text.Caseless

/-!
# Names between blanks

A name is found in a text in two steps: blanks are trimmed off its ends, and
what is left is compared with the spellings.  `trim_eq_iff` says what trimming
leaves, and that it is the only part of the text of that kind.  A
`Nomenclature` is a set of things whose spellings lead to them; by
`findName_eq_some_iff` a name then finds a thing exactly if it is one of its
spellings, up to the case of letters.  So no name belongs to two of them.

Spellings are plain: there is no blank and no colon in them, and case does not
change that (`plain_fold`).  Hence a name keeps its own ends when it is trimmed,
and a colon beside it is never part of it.
-/

namespace ByteLayout.Text

/-! ### Trimming -/

/-- A text of blanks alone. -/
def Blank (cs : List Char) : Prop := ∀ c ∈ cs, isBlank c

instance (cs : List Char) : Decidable (Blank cs) := List.decidableBAll (isBlank ·) cs

/-- **A text and the part of it between the blanks at its ends.**  The part may have blanks within,
but has none at an end of its own. -/
structure Trims (text part : List Char) : Prop where
  around : ∃ ws vs, Blank ws ∧ Blank vs ∧ text = ws ++ part ++ vs
  first : ∀ c ∈ part.head?, isBlank c = false
  last : ∀ c ∈ part.getLast?, isBlank c = false

theorem trimLeft_spec (cs : List Char) :
    (∃ ws, Blank ws ∧ cs = ws ++ trimLeft cs) ∧ ∀ c ∈ (trimLeft cs).head?, isBlank c = false := by
  induction cs with
  | nil => exact ⟨⟨[], nofun, rfl⟩, nofun⟩
  | cons c cs ih =>
    rw [trimLeft, List.dropWhile_cons]
    by_cases hc : isBlank c = true
    · obtain ⟨⟨ws, hws, hcs⟩, hfirst⟩ := ih
      rw [if_pos hc]
      exact ⟨⟨c :: ws, List.forall_mem_cons.mpr ⟨hc, hws⟩, congrArg (c :: ·) hcs⟩, hfirst⟩
    · rw [if_neg hc]
      refine ⟨⟨[], nofun, rfl⟩, ?_⟩
      intro d hd
      obtain rfl := Option.some.inj hd
      exact Bool.eq_false_iff.mpr hc

theorem trimLeft_blank {cs : List Char} (h : Blank cs) : trimLeft cs = [] :=
  List.append_nil cs ▸ trimLeft_append cs [] h

theorem trims_trim (cs : List Char) : Trims cs (trim cs) := by
  obtain ⟨⟨ws, hws, hcs⟩, hfirst⟩ := trimLeft_spec cs
  obtain ⟨⟨vs, hvs, hrev⟩, hlast⟩ := trimLeft_spec (trimLeft cs).reverse
  have hleft : trimLeft cs = trim cs ++ vs.reverse := by
    rw [trim, ← List.reverse_append, ← hrev, List.reverse_reverse]
  refine ⟨⟨ws, vs.reverse, hws, ?_, ?_⟩, ?_, ?_⟩
  · exact fun v hv => hvs v (List.mem_reverse.mp hv)
  · rw [List.append_assoc, ← hleft, ← hcs]
  · intro c hc
    rw [hleft, List.head?_append, Option.mem_def.mp hc, Option.some_or] at hfirst
    exact hfirst c rfl
  · rw [trim, List.getLast?_reverse]
    exact hlast

/-- **Trimming leaves the one part** that has blanks around it and none at its ends. -/
theorem trim_eq_iff {cs part : List Char} : trim cs = part ↔ Trims cs part := by
  constructor
  · rintro rfl
    exact trims_trim cs
  · rintro ⟨⟨ws, vs, hws, hvs, rfl⟩, hfirst, hlast⟩
    by_cases hp : part = []
    · subst hp
      have hb : Blank (ws ++ [] ++ vs) := by
        rw [List.append_nil]
        exact fun c hc => (List.mem_append.mp hc).elim (hws c) (hvs c)
      rw [trim, trimLeft_blank hb]
      rfl
    · exact trim_append ws part vs hws hvs hfirst hlast hp

/-! ### Plain texts -/

/-- A character that can stand in a name: no blank, and not the colon that divides names. -/
def isPlain (c : Char) : Bool := !isBlank c && c != ':'

def Plain (cs : List Char) : Prop := ∀ c ∈ cs, isPlain c

instance (cs : List Char) : Decidable (Plain cs) := List.decidableBAll (isPlain ·) cs

theorem isPlain_of_letter {c : Char} (h : 65 ≤ c.toNat ∧ c.toNat ≤ 122) : isPlain c := by
  have hb : isBlank c = false := by
    simp only [isBlank, blankRanges, List.any_cons, List.any_nil, Bool.or_false,
      Bool.or_eq_false_iff, Bool.and_eq_false_iff, decide_eq_false_iff_not]
    omega
  have hc : c ≠ ':' := by
    rintro rfl
    exact absurd h (by decide)
  simp [isPlain, hb, hc]

/-- **Only the letters of ASCII have case**: an upper one is 32 places before its lower one. -/
theorem toLower_cases (c : Char) :
    c.toLower = c ∨ (65 ≤ c.toNat ∧ c.toNat ≤ 90) ∧ c.toLower.toNat = c.toNat + 32 := by
  by_cases h : 'A'.val ≤ c.val ∧ c.val ≤ 'Z'.val
  · have hc : c.toLower.val = c.val + ('a'.val - 'A'.val) := congrArg Char.val (dif_pos h)
    have hl : (65 : Nat) ≤ c.val.toNat := UInt32.le_iff_toNat_le.mp h.1
    have hh : c.val.toNat ≤ (90 : Nat) := UInt32.le_iff_toNat_le.mp h.2
    have hd : ('a'.val - 'A'.val).toNat = 32 := rfl
    refine .inr ⟨⟨hl, hh⟩, ?_⟩
    show c.toLower.val.toNat = c.val.toNat + 32
    rw [hc, UInt32.toNat_add]
    omega
  · exact .inl (dif_neg h)

theorem isPlain_toLower (c : Char) : isPlain c.toLower = isPlain c := by
  rcases toLower_cases c with h | ⟨hc, hl⟩
  · rw [h]
  · rw [isPlain_of_letter (by omega), isPlain_of_letter (by omega)]

theorem plain_fold {cs : List Char} : Plain (fold cs) ↔ Plain cs := by
  simp only [Plain, fold, List.forall_mem_map, isPlain_toLower]

theorem Plain.not_isBlank {cs : List Char} (h : Plain cs) {c : Char} (hc : c ∈ cs) :
    isBlank c = false := by
  have hp := h c hc
  rw [isPlain, Bool.and_eq_true, Bool.not_eq_true'] at hp
  exact hp.1

theorem Plain.colon_not_mem {cs : List Char} (h : Plain cs) : ':' ∉ cs :=
  fun hc => absurd (h ':' hc) (by decide)

theorem Blank.colon_not_mem {ws : List Char} (h : Blank ws) : ':' ∉ ws :=
  fun hc => absurd (h ':' hc) (by decide)

/-- A plain text keeps its ends. -/
theorem Plain.trims {part ws vs : List Char} (h : Plain part) (hws : Blank ws) (hvs : Blank vs) :
    Trims (ws ++ part ++ vs) part where
  around := ⟨ws, vs, hws, hvs, rfl⟩
  first := fun _ hc => h.not_isBlank (List.mem_of_mem_head? hc)
  last := fun _ hc => h.not_isBlank (List.mem_of_getLast? hc)

theorem Plain.colon_not_mem_around {part ws vs : List Char} (h : Plain part) (hws : Blank ws)
    (hvs : Blank vs) : ':' ∉ ws ++ part ++ vs := by
  simp only [List.mem_append, not_or]
  exact ⟨⟨hws.colon_not_mem, h.colon_not_mem⟩, hvs.colon_not_mem⟩

/-! ### Spellings -/

variable {spellings : α → List String} {candidates : List α} {a : α} {cs : List Char}

/-- A text is a spelling of a thing, up to the case of letters. -/
def Spells (spellings : α → List String) (cs : List Char) (a : α) : Prop :=
  ∃ s ∈ spellings a, sameName s.toList cs

/-- **Spellings that lead to what they name.** -/
structure Nomenclature (spellings : α → List String) (candidates : List α) : Prop where
  found : ∀ a, ∀ s ∈ spellings a, findName spellings candidates s.toList = some a
  plain : ∀ a, ∀ s ∈ spellings a, Plain s.toList

theorem findName_congr {ds : List Char} (h : sameName cs ds) :
    findName spellings candidates cs = findName spellings candidates ds := by
  have hs : ∀ s : String, sameName s.toList cs = sameName s.toList ds := by
    intro s
    rw [sameName, sameName, (sameName_iff cs ds).mp h]
  simp only [findName, hs]

/-- **A name finds a thing exactly if it is one of its spellings.** -/
theorem findName_eq_some_iff (h : Nomenclature spellings candidates) :
    findName spellings candidates cs = some a ↔ Spells spellings cs a := by
  constructor
  · intro hf
    have ha := List.find?_some hf
    obtain ⟨s, hs, hn⟩ := List.any_eq_true.mp ha
    exact ⟨s, hs, hn⟩
  · rintro ⟨s, hs, hn⟩
    rw [← findName_congr hn, h.found a s hs]

theorem findName_eq_none_iff (h : Nomenclature spellings candidates) :
    findName spellings candidates cs = none ↔ ∀ a, ¬Spells spellings cs a := by
  rw [Option.eq_none_iff_forall_not_mem]
  exact forall_congr' fun a => not_congr (findName_eq_some_iff h)

theorem Nomenclature.plain_of_spells (h : Nomenclature spellings candidates)
    (hs : Spells spellings cs a) : Plain cs := by
  obtain ⟨s, hs, hn⟩ := hs
  rw [← plain_fold, ← (sameName_iff _ _).mp hn, plain_fold]
  exact h.plain a s hs

end ByteLayout.Text
