import SlotGrammar.Html.Dialect
import SlotGrammar.Proofs.Regex.ClassRun
import SlotGrammar.Proofs.Regex.Grouping

/-!
# Tokens in the dialect

The dialect of regular expressions has all that is asked of the tokens: it builds each of them
from its text, and each runs through its classes.

Main results:

- Theorem `matchLead?_dialectRegex`: each token of the dialect matches what is told of it.
- Instance `soundDialect`: the laws of the tokens hold in the dialect.
-/

namespace SlotGrammar.Html

namespace Token

open Regex (Term CharClass)
open Text (isAlpha_iff isDigit_iff)

/-! ## Classes -/

/-- The class of white space has the blank code points. -/
theorem contains_blanks : blanks.contains = Text.isBlank := by
  funext c
  simp [blanks, CharClass.contains, CharClass.lists, Regex.ClassItem.contains]

/-- The class of all code points but one leaves that one out. -/
theorem contains_allBut (c : Char) : (allBut c).contains = (· != c) := by
  funext d
  have h : (c.toNat ≤ d.toNat ∧ d.toNat ≤ c.toNat) ↔ d = c := by
    rw [← Char.toNat_inj]
    omega
  by_cases hd : d = c <;>
    simp [allBut, CharClass.contains, CharClass.lists, Regex.ClassItem.contains, h, hd,
      ← Bool.decide_and]

/-- The class of letters has the ASCII letters. -/
theorem contains_letters : (lettersAnd []).contains = Char.isAlpha := by
  funext c
  rw [Bool.eq_iff_iff, isAlpha_iff]
  simp [lettersAnd, CharClass.contains, CharClass.lists, Regex.ClassItem.contains]
  omega

/-- The class of letters and digits has the ASCII letters and digits. -/
theorem contains_lettersAndDigits : (lettersAnd [.range '0' '9']).contains = Char.isAlphanum := by
  funext c
  have h : c.isAlphanum = (c.isAlpha || c.isDigit) := rfl
  rw [Bool.eq_iff_iff, h, Bool.or_eq_true, isAlpha_iff, isDigit_iff]
  simp [lettersAnd, CharClass.contains, CharClass.lists, Regex.ClassItem.contains]
  omega

/-- The class of letters and the underscore has what starts the name of an attribute. -/
theorem contains_lettersAndUnderscore :
    (lettersAnd [.range '_' '_']).contains = startsAttr := by
  funext c
  have h : c = '_' ↔ c.toNat = 95 := by rw [← Char.toNat_inj]; rfl
  rw [Bool.eq_iff_iff, startsAttr, Bool.or_eq_true, isAlpha_iff, beq_iff_eq, h]
  simp [lettersAnd, CharClass.contains, CharClass.lists, Regex.ClassItem.contains]
  omega

/-! ## Matches -/

/-- The text of a token is read as what it says. -/
theorem read?_source (t : Token) : Term.read? {} t.source = some t.term := by
  cases t <;> decide +kernel

/-- Each token of the dialect matches what is told of it. -/
theorem matchLead?_dialectRegex (t : Token) : t.dialectRegex.matchLead? = t.run? := by
  funext text
  show t.term.machine.matchAt? ⟨none, text⟩ = t.run? text
  cases t with
  | whiteSpace =>
    rw [term, Term.matchAt?_plus, contains_blanks, run?, Text.leadAndRun?_self]
  | textRun => rw [term, Term.matchAt?_plus, contains_allBut, run?, Text.leadAndRun?_self]
  | tagName =>
    rw [term, Term.matchAt?_char_star, contains_letters, contains_lettersAndDigits, run?]
  | attrName =>
    rw [term, Term.matchAt?_char_star, contains_lettersAndUnderscore, contains_lettersAndDigits,
      run?]
  | quotedText => rw [term, Term.matchAt?_star, contains_allBut, run?]

end Token

/-- The laws of the tokens hold in the dialect. -/
instance soundDialect : SoundLexicon where
  toLexicon := dialectLexicon
  lawful := Regex.dialect_lawful
  build?_source t := Regex.dialect_build?_eq_some_iff.2 ⟨t.term, t.read?_source, rfl⟩
  matchLead?_regex := Token.matchLead?_dialectRegex

end SlotGrammar.Html
