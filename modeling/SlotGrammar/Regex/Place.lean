import SlotGrammar.Text.Classes
import SlotGrammar.Text.Basic

/-!
# Places in a text

A place lies between two code points of the searched text.  The conditions that
a regular expression can put on a place look at the code point before it and at
the text ahead, and at nothing else.

Main results:

- Theorem `holds_textStart_iff`: the start of the text is where nothing comes before.
- Theorem `holds_noWordEdge`: a place is the edge of a word or it is not.
-/

namespace SlotGrammar.Regex

/-- A place in the searched text: the code point before it, if the text does not
start there, and the text ahead. -/
structure Place where
  before : Option Char
  rest : Text
deriving DecidableEq

namespace Place

/-- Whether a word character stands on exactly one side of a place. -/
def isWordEdge (here : Place) : Bool :=
  here.before.any Text.isWordChar != here.rest.head?.any Text.isWordChar

end Place

/-- A condition on a place in the searched text. -/
inductive Assertion where
  | textStart
  | textEnd
  | lineStart
  | lineEnd
  | wordEdge
  | noWordEdge
deriving DecidableEq

namespace Assertion

/-- Whether a condition holds at a place. -/
def holds : Assertion → Place → Bool
  | textStart, here => here.before.isNone
  | textEnd, here => here.rest.isEmpty
  | lineStart, here => here.before.isNone || here.before == some '\n'
  | lineEnd, here => here.rest.isEmpty || here.rest.head? == some '\n'
  | wordEdge, here => here.isWordEdge
  | noWordEdge, here => !here.isWordEdge

/-- The start of the text is where nothing comes before. -/
theorem holds_textStart_iff {here : Place} : textStart.holds here = true ↔ here.before = none := by
  simp [holds]

/-- A place is the edge of a word or it is not. -/
theorem holds_noWordEdge (here : Place) : noWordEdge.holds here = !wordEdge.holds here := rfl

end Assertion

end SlotGrammar.Regex
