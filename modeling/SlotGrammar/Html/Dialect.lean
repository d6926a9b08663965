import SlotGrammar.Html.Tokens
import SlotGrammar.Regex.Dialect

/-!
# Tokens in the dialect

The regular expressions of the tokens in the dialect that runs.
-/

namespace SlotGrammar.Html

namespace Token

open Regex (Term CharClass)

/-- The class of white space. -/
def blanks : CharClass := ⟨false, false, [.blank true]⟩

/-- The class of all code points but one. -/
def allBut (c : Char) : CharClass := ⟨true, false, [.range c c]⟩

/-- The class of the ASCII letters, with some more items. -/
def lettersAnd (more : List Regex.ClassItem) : CharClass :=
  ⟨false, false, [.range 'a' 'z', .range 'A' 'Z'] ++ more⟩

/-- What the text of a token says. -/
def term : Token → Term
  | whiteSpace => (Term.plus true (.char blanks)).atStart
  | textRun => (Term.plus true (.char (allBut '<'))).atStart
  | tagName =>
    (Term.concat (.char (lettersAnd []))
      (.star true (.char (lettersAnd [.range '0' '9'])))).atStart
  | attrName =>
    (Term.concat (.char (lettersAnd [.range '_' '_']))
      (.star true (.char (lettersAnd [.range '0' '9'])))).atStart
  | quotedText => (Term.star true (.char (allBut '"'))).atStart

/-- The regular expression of a token in the dialect. -/
def dialectRegex (t : Token) : Regex := .ofMachine t.source t.term.machine

end Token

/-- The tokens in the dialect. -/
instance (priority := low) dialectLexicon : Lexicon where
  engine := Regex.dialect
  regex := Token.dialectRegex

end SlotGrammar.Html
