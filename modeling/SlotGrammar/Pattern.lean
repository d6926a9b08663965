import SlotGrammar.Regex.Basic

/-!
# Patterns

What a recognizer looks for in the text at the cursor: a literal, or a regular
expression whose leftmost match starts exactly there.

Main results:

- Theorem `matched?_regex`: a regular expression matches where its leftmost match starts
  at the cursor.
- Theorem `matched?_literal_iff`: a literal matches exactly the texts that begin with it.
- Theorem `matched?_append`: what a pattern matches is what the text ahead begins with.
-/

namespace SlotGrammar

/-- What to look for at the cursor. -/
inductive Pattern where
  /-- The text goes on with exactly this literal. -/
  | literal (text : Text)
  /-- The leftmost match of the regular expression, as given, starts at the cursor. -/
  | regex (r : Regex)

namespace Pattern

/-- The pattern for a regular expression, pinned to the cursor so that a failed
attempt need not search the rest of the fragment.  One that cannot be pinned stays as it is. -/
def ofRegex (engine : Regex.Engine) (r : Regex) : Pattern := .regex ((engine.pinned? r).getD r)

/-- The text that a pattern matches at the start of the text ahead. -/
def matched? : Pattern → Text → Option Text
  | literal text, ahead => (Text.dropLead? text ahead).map fun _ => text
  | regex r, ahead => r.matchLead? ahead

/-- A regular expression matches where its leftmost match starts at the cursor. -/
theorem matched?_regex (r : Regex) (ahead : Text) :
    (regex r).matched? ahead =
      (r.find? ahead).bind fun found => if found.start = 0 then some found.matched else none :=
  r.matchLead?_eq ahead

/-- A literal matches exactly the texts that begin with it. -/
theorem matched?_literal_iff {text ahead t : Text} :
    (literal text).matched? ahead = some t ↔ t = text ∧ ∃ rest, ahead = text ++ rest := by
  simp only [matched?, Option.map_eq_some_iff, Text.dropLead?_eq_some_iff]
  constructor
  · rintro ⟨rest, h, rfl⟩
    exact ⟨rfl, rest, h⟩
  · rintro ⟨rfl, rest, h⟩
    exact ⟨rest, h, rfl⟩

/-- A pattern matches what the text ahead begins with. -/
theorem matched?_append {pattern : Pattern} {ahead t : Text}
    (h : pattern.matched? ahead = some t) : ∃ rest, ahead = t ++ rest := by
  cases pattern with
  | literal text =>
    obtain ⟨rfl, hrest⟩ := matched?_literal_iff.1 h
    exact hrest
  | regex r => exact r.matchLead?_append h

end Pattern

end SlotGrammar
