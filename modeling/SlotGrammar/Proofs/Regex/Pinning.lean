import SlotGrammar.Proofs.Regex.Grouping
import SlotGrammar.Recognizer

/-!
# Pinned regular expressions

A regular expression is pinned by its text alone.  What the text says without options is pinned
then, whatever it says: its alternatives, the flags it sets itself and its assertions stay in the
group that it is put in.  The options that the regular expression was built under do not, unless
the pinned text cannot be built and the regular expression stays as it is.

Main results:

- Theorem `outcome_find_ofRegex`: finding a regular expression is finding what its text gives
  without options, as given; or itself, as given, where it cannot be pinned.
- Theorem `letterInAnyCase_loses`: an option that is lost.
-/

namespace SlotGrammar

/-- A pattern for a regular expression matches where the leftmost match of what its text gives
without options starts at the cursor. -/
theorem Pattern.matched?_ofRegex {engine : Regex.Engine} (h : engine.Lawful)
    {r plain pinned : Regex} (hplain : engine.build? r.source = some plain)
    (hpinned : engine.pinned? r = some pinned) :
    (ofRegex engine r).matched? = (regex plain).matched? := by
  rw [ofRegex, hpinned, Option.getD_some]
  exact h.matchLead?_pinned hplain hpinned

/-- A pattern for a regular expression that cannot be pinned is the regular expression itself. -/
theorem Pattern.ofRegex_eq_regex {engine : Regex.Engine} {r : Regex}
    (h : engine.pinned? r = none) : ofRegex engine r = regex r := by
  rw [ofRegex, h, Option.getD_none]

/-- At the start of a text all of it is left. -/
theorem Fragments.rest?_ofText (text : Text) : (ofText text).rest? .start = some text :=
  Text.dropBytes?_zero text

namespace Leaf

variable {V α : Type}

/-- Two patterns are found alike exactly if they match alike. -/
theorem outcome_find_eq_iff {p q : Pattern} :
    (∀ (input : Fragments) (values : List V) (pos : Position),
        (find p : Leaf V α).outcome input values pos = (find q).outcome input values pos) ↔
      p.matched? = q.matched? := by
  constructor
  · intro h
    funext text
    have hstart := h (.ofText text) [] .start
    simp only [outcome, Fragments.rest?_ofText, Option.bind_some] at hstart
    refine Option.map_injective ?_ hstart
    intro t t' heq
    cases heq
    rfl
  · intro h input values pos
    rw [outcome, outcome, h]

/-- Finding a regular expression, with any library.  Where it can be pinned, this is finding what
its text gives without options, as given.  So it is finding the regular expression itself, as
given, exactly if that matches the same at the start of a text; and in particular if it was built
without options.  Where it cannot be pinned, it is the regular expression itself that is
found. -/
theorem outcome_find_ofRegex {engine : Regex.Engine} (h : engine.Lawful) (r : Regex) :
    (∀ {plain pinned : Regex}, engine.build? r.source = some plain →
      engine.pinned? r = some pinned →
      (∀ (input : Fragments) (values : List V) (pos : Position),
        (find (.ofRegex engine r) : Leaf V α).outcome input values pos =
          (find (.regex plain)).outcome input values pos) ∧
      ((∀ (input : Fragments) (values : List V) (pos : Position),
          (find (.ofRegex engine r) : Leaf V α).outcome input values pos =
            (find (.regex r)).outcome input values pos) ↔
        ∀ text, plain.matchLead? text = r.matchLead? text)) ∧
    (engine.build? r.source = some r ∨ engine.pinned? r = none →
      ∀ (input : Fragments) (values : List V) (pos : Position),
        (find (.ofRegex engine r) : Leaf V α).outcome input values pos =
          (find (.regex r)).outcome input values pos) := by
  refine ⟨?_, ?_⟩
  · intro plain pinned hplain hpinned
    have hmatched := Pattern.matched?_ofRegex h hplain hpinned
    refine ⟨outcome_find_eq_iff.2 hmatched, ?_⟩
    rw [outcome_find_eq_iff, hmatched]
    exact funext_iff
  · intro hor
    rw [outcome_find_eq_iff]
    cases hpinned : engine.pinned? r with
    | none => rw [Pattern.ofRegex_eq_regex hpinned]
    | some pinned =>
      have hplain : engine.build? r.source = some r := by simpa [hpinned] using hor
      exact Pattern.matched?_ofRegex h hplain hpinned

/-! ## An option -/

/-- The letter a. -/
def letter : Regex := .ofMachine ['a'] (Regex.Term.char (.single false 'a')).machine

/-- The letter a in either case. -/
def letterInAnyCase : Regex := .ofMachine ['a'] (Regex.Term.char (.single true 'a')).machine

theorem dialect_build?_letter : Regex.dialect.build? ['a'] = some letter :=
  Regex.dialect_build?_eq_some_iff.2 ⟨_, by decide, rfl⟩

/-- With the dialect the letter in either case is found as the letter is.  Where texts of more
than five code points are too long it cannot be pinned, and is found in either case. -/
theorem letterInAnyCase_found :
    Regex.dialect.Lawful ∧ (Regex.dialect.upTo 5).Lawful ∧
      (∀ (input : Fragments) (values : List Nat) (pos : Position),
        (find (.ofRegex Regex.dialect letterInAnyCase) : Leaf Nat Nat).outcome input values pos =
          (find (.regex letter)).outcome input values pos) ∧
      ∀ (input : Fragments) (values : List Nat) (pos : Position),
        (find (.ofRegex (Regex.dialect.upTo 5) letterInAnyCase) : Leaf Nat Nat).outcome
            input values pos =
          (find (.regex letterInAnyCase)).outcome input values pos := by
  have hlawful := Regex.dialect_lawful
  have hletter : Regex.Term.read? {} ['a'] = some (.char (.single false 'a')) := by decide
  have hpinned := Regex.dialect_build?_eq_some_iff.2 ⟨_, Regex.Term.read?_pinnedSource hletter, rfl⟩
  exact ⟨hlawful, hlawful.upTo 5,
    ((outcome_find_ofRegex hlawful letterInAnyCase).1 dialect_build?_letter hpinned).1,
    (outcome_find_ofRegex (hlawful.upTo 5) letterInAnyCase).2 (.inr rfl)⟩

/-- An option is lost: the letter in either case is not found in the other one. -/
theorem letterInAnyCase_loses :
    let input := Fragments.ofText ['A']
    Regex.of? ['a'] { ignoreCase := true } = some letterInAnyCase ∧
      (find (.ofRegex Regex.dialect letterInAnyCase) : Leaf Nat Nat).outcome input [] .start =
        none ∧
      (find (.regex letterInAnyCase) : Leaf Nat Nat).outcome input [] .start =
        some ⟨.text ['A'], ⟨0, 1⟩⟩ := by
  refine ⟨Regex.of?_eq_some_iff.2 ⟨_, by decide, rfl⟩, ?_, ?_⟩ <;> decide +kernel

end Leaf

end SlotGrammar
