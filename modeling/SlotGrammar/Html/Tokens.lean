import SlotGrammar.Pattern
import SlotGrammar.Text.Classes

/-!
# Tokens of elements

The tokens that element templates are written with.  Each is a regular expression that a library
builds from its text, and what it matches at the start of a text is told in plain words: one
code point of a class, and then as many as there are of another.

Main results:

- Theorem `SoundLexicon.matched?_ofRegex`: a token matches at the cursor what is told of it,
  pinned or not.
-/

namespace SlotGrammar.Html

/-- The tokens of element templates. -/
inductive Token where
  /-- White space. -/
  | whiteSpace
  /-- Text up to the next element or tag. -/
  | textRun
  /-- The name of a tag. -/
  | tagName
  /-- The name of an attribute. -/
  | attrName
  /-- The text between two quotes. -/
  | quotedText
deriving DecidableEq

/-- Whether the name of an attribute may begin with a code point. -/
def startsAttr (c : Char) : Bool := c.isAlpha || c == '_'

namespace Token

/-- The text of the regular expression of a token: `^\s+`, `^[^<]+`, `^[a-zA-Z][a-zA-Z0-9]*`,
`^[a-zA-Z_][a-zA-Z0-9]*` and `^[^"]*`. -/
def source : Token → Text
  | whiteSpace => ['^', '\\', 's', '+']
  | textRun => ['^', '[', '^', '<', ']', '+']
  | tagName =>
    ['^', '[', 'a', '-', 'z', 'A', '-', 'Z', ']',
      '[', 'a', '-', 'z', 'A', '-', 'Z', '0', '-', '9', ']', '*']
  | attrName =>
    ['^', '[', 'a', '-', 'z', 'A', '-', 'Z', '_', ']',
      '[', 'a', '-', 'z', 'A', '-', 'Z', '0', '-', '9', ']', '*']
  | quotedText => ['^', '[', '^', '"', ']', '*']

/-- The token at the start of a text. -/
def run? : Token → Text → Option Text
  | whiteSpace, text => Text.leadAndRun? Text.isBlank Text.isBlank text
  | textRun, text => Text.leadAndRun? (· != '<') (· != '<') text
  | tagName, text => Text.leadAndRun? Char.isAlpha Char.isAlphanum text
  | attrName, text => Text.leadAndRun? startsAttr Char.isAlphanum text
  | quotedText, text => some (text.takeWhile (· != '"'))

end Token

/-- A library of regular expressions, and those of the tokens. -/
class Lexicon where
  engine : Regex.Engine
  regex : Token → Regex

/-- What is asked of the tokens: each is built by the library from its text, and matches at the
start of a text what is told of it. -/
class SoundLexicon extends Lexicon where
  lawful : engine.Lawful
  build?_source : ∀ t : Token, engine.build? t.source = some (regex t)
  matchLead?_regex : ∀ t : Token, (regex t).matchLead? = t.run?

open Lexicon SoundLexicon

/-- A token matches at the cursor what is told of it, pinned or not. -/
theorem SoundLexicon.matched?_ofRegex [SoundLexicon] (t : Token) :
    (Pattern.ofRegex engine (regex t)).matched? = t.run? := by
  have hplain : engine.build? (regex t).source = some (regex t) := by
    rw [lawful.source_eq (build?_source t)]
    exact build?_source t
  rw [← matchLead?_regex t, Pattern.ofRegex]
  cases hpinned : engine.pinned? (regex t) with
  | none => rfl
  | some pinned => exact lawful.matchLead?_pinned hplain hpinned

end SlotGrammar.Html
