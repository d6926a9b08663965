import SlotGrammar.Proofs.Html.Language

/-!
# Matches, refusals and errors

Everything behind the opening bracket of an element is committed to: an input in which an
element is opened is a template, or is refused for what goes on after a whole element, or
raises an error.  An input in which none is opened is refused.

Main results:

- Definition `Fragments.opensElement`: whether an element is opened in an input.
- Theorem `refuses_of_goesOn`: an input that goes on after an element is refused.
- Theorem `Parser.template?_classified`: what a new parser comes to on every input.
-/

namespace SlotGrammar

/-! ## Elements that are opened -/

/-- Whether a text begins with a bracket that begins no closing tag. -/
def beginsElement : Text → Bool
  | '<' :: '/' :: _ => false
  | '<' :: _ => true
  | _ => false

/-- Whether the first fragment goes on with an element after its white space. -/
def Fragments.opensElement (input : Fragments) : Bool :=
  (input.get? 0).any fun t => beginsElement (t.dropWhile Text.isBlank)

/-- What is behind the white space in front of an input decides whether an element is opened. -/
theorem opensElement_eq {input : Fragments} {b : Text} {s : List Symbol}
    (h : input.symbols = chars b ++ s) (hb : ∀ c ∈ b, Text.isBlank c = true)
    (hs : Stops Text.isBlank s) : input.opensElement = beginsElement (lead s) := by
  obtain ⟨texts⟩ := input
  cases texts with
  | nil =>
    have hnil : chars b ++ s = [] := h.symm
    obtain ⟨-, rfl⟩ := List.append_eq_nil_iff.1 hnil
    rfl
  | cons t ts =>
    have hlead : t = b ++ lead s := by
      have hsame := congrArg lead h
      simpa [Fragments.symbols] using hsame
    have hrun : t.takeWhile Text.isBlank = b := hlead ▸ takeWhile_lead hb hs
    have hdrop : t.dropWhile Text.isBlank = lead s := by
      have hsplit := List.takeWhile_append_dropWhile (p := Text.isBlank) (l := t)
      rw [hrun] at hsplit
      exact List.append_cancel_left (hsplit.trans hlead)
    show beginsElement (t.dropWhile Text.isBlank) = _
    rw [hdrop]

namespace Html

open Words

variable {s : List Symbol}

/-- No element begins where a text begins with none. -/
theorem noElement_iff : NoElement s ↔ beginsElement (lead s) = false := by
  unfold NoElement
  rcases next_or_stops '<' s with ⟨s, rfl⟩ | hopen
  · rcases next_or_stops '/' s with ⟨s, rfl⟩ | hslash
    · simp [lead, beginsElement]
    · have hnone : ¬ Stops (· == '<') (.char '<' :: s) := fun h => by simpa using h '<' s rfl
      cases s with
      | nil => simp [lead, beginsElement, hnone]
      | cons x s =>
        cases x with
        | slot i => simp [lead, beginsElement, hnone]
        | char c =>
          have hc : c ≠ '/' := by simpa using hslash c s rfl
          simp [lead, beginsElement, hnone, hc]
  · have hlead : beginsElement (lead s) = false := by
      cases s with
      | nil => rfl
      | cons x s =>
        cases x with
        | slot i => rfl
        | char c =>
          have hc : c ≠ '<' := by simpa using hopen c s rfl
          simp [lead, beginsElement, hc]
    simp [hopen, hlead]

/-! ## Inputs that go on after an element -/

/-- Whether some symbols begin with an element, with white space in front, and go on after it
with more than white space. -/
def GoesOn (s : List Symbol) : Prop :=
  ∃ x y, s = x ++ y ∧ x ∈ optional ws * element ∧ y ∉ optional ws

/-- An input that goes on after an element is refused. -/
theorem refuses_of_goesOn (h : GoesOn s) : RefusesDocument s := by
  obtain ⟨_, y, rfl, hx, hy⟩ := h
  obtain ⟨_, hspace, w, hw, rfl⟩ := Language.mem_mul.1 hx
  obtain ⟨b, rfl, hb⟩ := mem_optional_ws.1 hspace
  obtain ⟨t, ht⟩ := element_le_readable hw y
  obtain ⟨b', r, rfl, hb', hr⟩ := exists_run Text.isBlank y
  have hne : r ≠ [] := by
    rintro rfl
    apply hy
    rw [List.append_nil]
    exact mem_optional_ws.2 ⟨b', rfl, hb'⟩
  rw [List.append_assoc]
  exact .after hb ht hb' hr hne

/-- An input that is refused begins with no element or goes on after one. -/
theorem RefusesDocument.goesOn_or (h : RefusesDocument s) :
    (∃ b u, s = chars b ++ u ∧ (∀ c ∈ b, Text.isBlank c = true) ∧ Stops Text.isBlank u ∧
      NoElement u) ∨ GoesOn s := by
  cases h with
  | before hb hs hno => exact .inl ⟨_, _, rfl, hb, hs, hno⟩
  | @after t b b' s r hb ht hb' hr hne =>
    obtain ⟨w, hw, rfl⟩ := ht.exists_word
    have hspace : chars b ∈ optional ws := mem_optional_ws.2 ⟨b, rfl, hb⟩
    refine .inr ⟨_, _, (List.append_assoc _ _ _).symm, Language.append_mem_mul hspace hw, ?_⟩
    intro hblank
    obtain ⟨b'', heq, hb''⟩ := mem_optional_ws.1 hblank
    rw [← List.append_nil (chars b'')] at heq
    exact hne (run_unique heq hb' hb'' hr (stops_nil _)).2

/-! ## Answers -/

namespace Parser

variable {V : Type} {input : Fragments}

/-- An input in which no element is opened is refused. -/
theorem refuses_of_not_opens (h : input.opensElement = false) : RefusesDocument input.symbols := by
  obtain ⟨b, s, hsymbols, hb, hs⟩ := exists_run Text.isBlank input.symbols
  rw [opensElement_eq hsymbols hb hs] at h
  rw [hsymbols]
  exact .before hb hs (noElement_iff.2 h)

/-- An input in which an element is opened is refused only for going on after it. -/
theorem goesOn_of_refuses (hopens : input.opensElement = true)
    (h : RefusesDocument input.symbols) : GoesOn input.symbols := by
  rcases h.goesOn_or with ⟨b, s, hsymbols, hb, hs, hno⟩ | hgoes
  · rw [opensElement_eq hsymbols hb hs, noElement_iff.1 hno] at hopens
    cases hopens
  · exact hgoes

/-- The element of an answer: there is no match where the template has none, and an error is
the same. -/
theorem Answers.elementOf {ending : Ending V (Piece V)} (h : Answers input ending)
    (values : List V) :
    (templateOf ending = .ok none ↔
      Parser.elementOf (resolvedWith values ending) = .error .noMatch) ∧
    ∀ e, templateOf ending = .error e ↔
      Parser.elementOf (resolvedWith values ending) = .error (.parse e) := by
  cases h with
  | @found t stop =>
    have hresolved : resolvedWith values (.ok (some ⟨.made (.template t), stop⟩)) =
        .ok (some ⟨.made (.element (t.resolve values)), stop⟩) := rfl
    rw [hresolved]
    cases t.resolve values <;> simp [templateOf, templateIn?, Parser.elementOf]
  | refused =>
    have hresolved : resolvedWith values (.ok none) = .ok none := rfl
    rw [hresolved]
    simp [templateOf, Parser.elementOf]
  | @raised _ e =>
    have hresolved : resolvedWith values (.error e) = .error e := rfl
    rw [hresolved]
    simp [templateOf, Parser.elementOf]

/-- A new parser matches, refuses the input or raises an error about a position.  It refuses an
input in which no element is opened, and one in which an element is opened exactly if it goes
on after the element.  Where values are filled in, a refusal is no match and an error is the
same. -/
theorem template?_classified [SoundLexicon] (input : Fragments) (values : List V)
    (options : ParseOptions) :
    ∃ answer result p p', create.template? input values options = some (answer, p) ∧
      create.parse? input values options = some (result, p') ∧
      (answer = .ok none ↔ result = .error .noMatch) ∧
      (∀ e, answer = .error e ↔ result = .error (.parse e)) ∧
      ((∃ t stop, answer = .ok (some (t, stop))) ∨ answer = .ok none ∨
        ∃ pos before found after, answer = .error (.unexpectedSymbol pos before found after)) ∧
      (input.opensElement = false → answer = .ok none) ∧
      (input.opensElement = true → (answer = .ok none ↔ GoesOn input.symbols)) := by
  obtain ⟨ending, hanswers, hsettles⟩ := exists_settles input values options.errorWindow
  obtain ⟨p, htemplate⟩ := hsettles.create_template?
  obtain ⟨p', hparse⟩ := hsettles.create_parse?
  obtain ⟨hnone, herror⟩ := hanswers.elementOf values
  have hrefused : RefusesDocument input.symbols → templateOf ending = .ok none := by
    intro hrefuses
    obtain ⟨q, hfound⟩ :=
      (settles_of_refusesDocument values options.errorWindow hrefuses).create_template?
    rw [htemplate] at hfound
    exact (Prod.ext_iff.1 (Option.some.inj hfound)).1
  refine ⟨_, _, p, p', htemplate, hparse, hnone, herror, ?_, ?_, ?_⟩
  · cases hanswers with
    | found => exact .inl ⟨_, _, rfl⟩
    | refused => exact .inr (.inl rfl)
    | @raised _ e _ _ he =>
      cases e with
      | unresolved => cases he
      | unexpectedSymbol => exact .inr (.inr ⟨_, _, _, _, rfl⟩)
  · intro hopens
    exact hrefused (refuses_of_not_opens hopens)
  · intro hopens
    refine ⟨fun hanswer => ?_, fun hgoes => hrefused (refuses_of_goesOn hgoes)⟩
    cases hanswers with
    | found => cases hanswer
    | refused hrefuses => exact goesOn_of_refuses hopens hrefuses
    | raised => cases hanswer

end Parser

end Html

end SlotGrammar
