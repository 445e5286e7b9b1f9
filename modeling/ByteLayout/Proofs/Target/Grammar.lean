import ByteLayout.Target.Parse
import ByteLayout.Proofs.Text.Spelling

/-!
# The grammar of targets

A text denotes a target if it is the name of an architecture, or that, a colon
and the name of an order, with blanks around either name.  This is `Denotes`,
which takes neither splitting nor trimming to say.  `Refused` is the other side:
it names the part of a text that is to blame, the first of the two that is the
name of nothing.

`parse_grammar` says that parsing accepts the one and refuses the other, and
that is all it does.  A text with no part to blame is of the grammar, so every
text is on one side, and no text denotes two targets.
-/

namespace ByteLayout

open Text

/-! ### Names of architectures and orders -/

/-- The text is a name of the architecture, up to the case of letters. -/
abbrev Architecture.Spelled (a : Architecture) (cs : List Char) : Prop := Spells spellings cs a

/-- The text is a name of the order, up to the case of letters. -/
abbrev ByteOrder.Spelled (o : ByteOrder) (cs : List Char) : Prop := Spells spellings cs o

theorem Architecture.nomenclature : Nomenclature spellings all where
  found := by
    intro a
    cases a <;> decide +kernel
  plain := by
    intro a
    cases a <;> decide +kernel

theorem ByteOrder.nomenclature : Nomenclature spellings all where
  found := by
    intro o
    cases o <;> decide +kernel
  plain := by
    intro o
    cases o <;> decide +kernel

theorem Architecture.named_ok_iff {cs : List Char} {a : Architecture} :
    named cs = .ok a ↔ a.Spelled cs := by
  rw [Spelled, ← findName_eq_some_iff nomenclature, named]
  cases findName spellings all cs <;> simp

theorem Architecture.named_error_iff {cs : List Char} {e : Error} :
    named cs = .error e ↔
      (∀ a : Architecture, ¬a.Spelled cs) ∧ e = .unknownIdentity (.architecture (.ofList cs)) := by
  rw [← findName_eq_none_iff nomenclature, named]
  cases findName spellings all cs <;> simp [eq_comm]

theorem ByteOrder.named_ok_iff {cs : List Char} {o : ByteOrder} :
    named cs = .ok o ↔ o.Spelled cs := by
  rw [Spelled, ← findName_eq_some_iff nomenclature, named]
  cases findName spellings all cs <;> simp

theorem ByteOrder.named_error_iff {cs : List Char} {e : Error} :
    named cs = .error e ↔
      (∀ o : ByteOrder, ¬o.Spelled cs) ∧ e = .unknownIdentity (.byteOrder (.ofList cs)) := by
  rw [← findName_eq_none_iff nomenclature, named]
  cases findName spellings all cs <;> simp [eq_comm]

namespace Target

/-! ### Parts -/

/-- **A text in parts**: what is before the first colon, and what is after it if there is one. -/
inductive Parts : List Char → List Char → Option (List Char) → Prop
  | whole {cs : List Char} : ':' ∉ cs → Parts cs cs none
  | divided {before after : List Char} : ':' ∉ before →
      Parts (before ++ ':' :: after) before (some after)

theorem splitColon_eq_iff {cs before : List Char} {after : Option (List Char)} :
    splitColon cs = (before, after) ↔ Parts cs before after := by
  constructor
  · intro h
    induction cs generalizing before after with
    | nil =>
      obtain ⟨rfl, rfl⟩ := Prod.mk.inj h
      exact .whole List.not_mem_nil
    | cons c cs ih =>
      rw [splitColon] at h
      by_cases hc : c = ':'
      · rw [if_pos hc] at h
        obtain ⟨rfl, rfl⟩ := Prod.mk.inj h
        exact hc ▸ .divided List.not_mem_nil
      · rw [if_neg hc] at h
        obtain ⟨rfl, rfl⟩ := Prod.mk.inj h
        have hparts := ih (Prod.eta (splitColon cs)).symm
        generalize (splitColon cs).1 = before, (splitColon cs).2 = after at hparts ⊢
        cases hparts with
        | whole hb => exact .whole fun hm => (List.mem_cons.mp hm).elim (hc ·.symm) hb
        | @divided before after hb =>
          have hcb : ':' ∉ c :: before := fun hm => (List.mem_cons.mp hm).elim (hc ·.symm) hb
          exact .divided hcb
  · rintro (hb | hb)
    · exact splitColon_of_not_mem _ hb
    · exact splitColon_append _ _ hb

/-! ### The two sides -/

/-- **The texts that denote a target**: a name of its architecture, for the default order, or that,
a colon and a name of the order. -/
inductive Denotes : List Char → Target → Prop
  | byDefault {ws name vs : List Char} {a : Architecture} :
      Blank ws → a.Spelled name → Blank vs → Denotes (ws ++ name ++ vs) (ofArchitecture a)
  | withOrder {ws name vs ws' name' vs' : List Char} {a : Architecture} {o : ByteOrder} :
      Blank ws → a.Spelled name → Blank vs → Blank ws' → o.Spelled name' → Blank vs' →
      Denotes (ws ++ name ++ vs ++ ':' :: (ws' ++ name' ++ vs')) ⟨a, o⟩

/-- **The texts without a target, and the part that is to blame**, without the blanks around it. -/
inductive Refused : List Char → Error → Prop
  | architecture {cs before part : List Char} {after : Option (List Char)} :
      Parts cs before after → Trims before part → (∀ a : Architecture, ¬a.Spelled part) →
      Refused cs (.unknownIdentity (.architecture (.ofList part)))
  | byteOrder {cs before after part part' : List Char} {a : Architecture} :
      Parts cs before (some after) → Trims before part → a.Spelled part → Trims after part' →
      (∀ o : ByteOrder, ¬o.Spelled part') →
      Refused cs (.unknownIdentity (.byteOrder (.ofList part')))

theorem ofChars_whole {cs before : List Char} (h : splitColon cs = (before, none)) :
    ofChars cs = (do
      let a ← Architecture.named (trim before)
      return ofArchitecture a) := by
  rw [ofChars, h]

theorem ofChars_divided {cs before after : List Char} (h : splitColon cs = (before, some after)) :
    ofChars cs = (do
      let a ← Architecture.named (trim before)
      let o ← ByteOrder.named (trim after)
      return ⟨a, o⟩) := by
  rw [ofChars, h]

theorem ofChars_of_denotes {cs : List Char} {t : Target} (h : Denotes cs t) :
    ofChars cs = .ok t := by
  cases h with
  | byDefault hws ha hvs =>
    have hp := Architecture.nomenclature.plain_of_spells ha
    rw [ofChars_whole (splitColon_of_not_mem _ (hp.colon_not_mem_around hws hvs)),
      trim_eq_iff.mpr (hp.trims hws hvs), Architecture.named_ok_iff.mpr ha]
    rfl
  | withOrder hws ha hvs hws' ho hvs' =>
    have hp := Architecture.nomenclature.plain_of_spells ha
    have hp' := ByteOrder.nomenclature.plain_of_spells ho
    rw [ofChars_divided (splitColon_append _ _ (hp.colon_not_mem_around hws hvs)),
      trim_eq_iff.mpr (hp.trims hws hvs), trim_eq_iff.mpr (hp'.trims hws' hvs'),
      Architecture.named_ok_iff.mpr ha, ByteOrder.named_ok_iff.mpr ho]
    rfl

theorem ofChars_of_refused {cs : List Char} {e : Error} (h : Refused cs e) :
    ofChars cs = .error e := by
  cases h with
  | @architecture before part after hparts hpart ha =>
    have hsplit := splitColon_eq_iff.mpr hparts
    have hn := Architecture.named_error_iff.mpr ⟨ha, rfl⟩
    rw [← trim_eq_iff.mpr hpart] at hn ⊢
    cases after with
    | none =>
      rw [ofChars_whole hsplit, hn]
      rfl
    | some after =>
      rw [ofChars_divided hsplit, hn]
      rfl
  | byteOrder hparts hpart ha hpart' ho =>
    rw [ofChars_divided (splitColon_eq_iff.mpr hparts), trim_eq_iff.mpr hpart,
      trim_eq_iff.mpr hpart', Architecture.named_ok_iff.mpr ha,
      ByteOrder.named_error_iff.mpr ⟨ho, rfl⟩]
    rfl

/-- **Every text is on one side.** -/
theorem denotes_or_refused (cs : List Char) : (∃ t, Denotes cs t) ∨ ∃ e, Refused cs e := by
  obtain ⟨before, after, hparts⟩ : ∃ before after, Parts cs before after :=
    ⟨_, _, splitColon_eq_iff.mp rfl⟩
  have hbefore := trims_trim before
  by_cases ha : ∃ a : Architecture, a.Spelled (trim before)
  · obtain ⟨a, ha⟩ := ha
    obtain ⟨ws, vs, hws, hvs, heq⟩ := hbefore.around
    cases hparts with
    | whole hb =>
      refine .inl ⟨ofArchitecture a, ?_⟩
      rw [heq]
      exact .byDefault hws ha hvs
    | @divided _ after hb =>
      have hafter := trims_trim after
      by_cases ho : ∃ o : ByteOrder, o.Spelled (trim after)
      · obtain ⟨o, ho⟩ := ho
        obtain ⟨ws', vs', hws', hvs', heq'⟩ := hafter.around
        refine .inl ⟨⟨a, o⟩, ?_⟩
        rw [heq, heq']
        exact .withOrder hws ha hvs hws' ho hvs'
      · exact .inr ⟨_, .byteOrder (.divided hb) hbefore ha hafter (not_exists.mp ho)⟩
  · exact .inr ⟨_, .architecture hparts hbefore (not_exists.mp ha)⟩

/-! ### Parsing -/

theorem ofChars_ok_iff {cs : List Char} {t : Target} : ofChars cs = .ok t ↔ Denotes cs t := by
  refine ⟨?_, ofChars_of_denotes⟩
  intro h
  rcases denotes_or_refused cs with ⟨u, hu⟩ | ⟨e, he⟩
  · rw [ofChars_of_denotes hu] at h
    exact Except.ok.inj h ▸ hu
  · rw [ofChars_of_refused he] at h
    cases h

theorem ofChars_error_iff {cs : List Char} {e : Error} : ofChars cs = .error e ↔ Refused cs e := by
  refine ⟨?_, ofChars_of_refused⟩
  intro h
  rcases denotes_or_refused cs with ⟨u, hu⟩ | ⟨f, hf⟩
  · rw [ofChars_of_denotes hu] at h
    cases h
  · rw [ofChars_of_refused hf] at h
    exact Except.error.inj h ▸ hf

/-- **Parsing accepts the grammar and nothing else.**  A text that denotes a target is read as that
target and denotes no other; any other text is refused for the first part that is the name of
nothing.  So a target can be written with any of the names of its architecture and its order, in
letters of either case and with blanks around both. -/
theorem parse_grammar :
    (∀ (s : String) (t : Target), parse s = .ok t ↔ Denotes s.toList t) ∧
    (∀ (s : String) (e : Error), parse s = .error e ↔ Refused s.toList e) ∧
    (∀ (s : String) (t u : Target), Denotes s.toList t → Denotes s.toList u → t = u) ∧
    ∀ (t : Target) (ws name vs ws' name' vs' : List Char),
      Blank ws → t.architecture.Spelled name → Blank vs →
      Blank ws' → t.order.Spelled name' → Blank vs' →
      parse (.ofList (ws ++ name ++ vs ++ ':' :: (ws' ++ name' ++ vs'))) = .ok t := by
  refine ⟨fun _ _ => ofChars_ok_iff, fun _ _ => ofChars_error_iff, ?_, ?_⟩
  · intro s t u ht hu
    have hok := ofChars_of_denotes ht
    rw [ofChars_of_denotes hu] at hok
    exact (Except.ok.inj hok).symm
  · intro t ws name vs ws' name' vs' hws ha hvs hws' ho hvs'
    rw [parse, String.toList_ofList]
    exact ofChars_of_denotes (.withOrder hws ha hvs hws' ho hvs')

/-- A target in mixed case between blanks; a name that is none of an architecture, which is told
although the order is none either; and a second colon, which is part of the order. -/
theorem parse_grammar_spaced :
    parse "\u2003x86-64 : Le\n" = .ok ⟨.x86_64, .littleEndian⟩ ∧
      parse " ARM 64:middle" = .error (.unknownIdentity (.architecture "ARM 64")) ∧
      parse "ppc64: be:" = .error (.unknownIdentity (.byteOrder "be:")) := by
  obtain ⟨-, hrefused, -, hnamed⟩ := parse_grammar
  refine ⟨?_, ?_, ?_⟩
  · exact hnamed ⟨.x86_64, .littleEndian⟩ ['\u2003'] "x86-64".toList [' '] [' '] "Le".toList ['\n']
      (by decide) ⟨"x86-64", by decide, by decide⟩ (by decide) (by decide)
      ⟨"le", by decide, by decide⟩ (by decide)
  · have hparts : Parts " ARM 64:middle".toList " ARM 64".toList (some "middle".toList) :=
      splitColon_eq_iff.mp (by decide +kernel)
    exact (hrefused _ _).mpr (.architecture hparts (trim_eq_iff.mp (by decide +kernel))
      ((findName_eq_none_iff Architecture.nomenclature).mp (by decide +kernel)))
  · have hparts : Parts "ppc64: be:".toList "ppc64".toList (some " be:".toList) :=
      splitColon_eq_iff.mp (by decide +kernel)
    have hname : Architecture.Spelled .ppc64 "ppc64".toList := ⟨"PPC64", by decide, by decide⟩
    exact (hrefused _ _).mpr (.byteOrder hparts (trim_eq_iff.mp (by decide +kernel)) hname
      (trim_eq_iff.mp (by decide +kernel))
      ((findName_eq_none_iff ByteOrder.nomenclature).mp (by decide +kernel)))

end Target

end ByteLayout
