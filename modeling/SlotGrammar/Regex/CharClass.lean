import SlotGrammar.Text.Classes

/-!
# Character classes

A character class is a set of code points given by ranges and named sets.  It
may be negated, and it may disregard the case of letters, of the ASCII ones alone.

Main results:

- Theorem `contains_any`: the negated empty class contains every code point.
-/

namespace SlotGrammar.Regex

/-- A part of a character class.  A named set comes with the side that is meant:
inside the set, or outside it. -/
inductive ClassItem where
  | range (low high : Char)
  | blank (inside : Bool)
  | digit (inside : Bool)
  | word (inside : Bool)
deriving DecidableEq

/-- Whether a code point belongs to a part of a class. -/
def ClassItem.contains : ClassItem → Char → Bool
  | range low high, c => decide (low.toNat ≤ c.toNat) && decide (c.toNat ≤ high.toNat)
  | blank inside, c => Text.isBlank c == inside
  | digit inside, c => Text.isDecimalDigit c == inside
  | word inside, c => Text.isWordChar c == inside

/-- The forms of a code point that differ in case alone: the two cases of an
ASCII letter, with the Kelvin sign for k and the long s for s. -/
def caseForms (c : Char) : List Char :=
  if c = 'k' ∨ c = 'K' ∨ c = '\u212a' then ['k', 'K', '\u212a']
  else if c = 's' ∨ c = 'S' ∨ c = '\u017f' then ['s', 'S', '\u017f']
  else if c.isUpper then [c, c.toLower]
  else if c.isLower then [c, c.toUpper]
  else [c]

/-- A set of code points. -/
structure CharClass where
  negated : Bool
  ignoreCase : Bool
  items : List ClassItem
deriving DecidableEq

namespace CharClass

/-- Whether the class, before a negation, has a code point among its items.  A
class without case has a letter when it has one of its forms. -/
def lists (cls : CharClass) (c : Char) : Bool :=
  (if cls.ignoreCase then caseForms c else [c]).any fun form =>
    cls.items.any fun item => item.contains form

/-- Whether a code point belongs to the class. -/
def contains (cls : CharClass) (c : Char) : Bool := cls.lists c != cls.negated

/-- The class of one code point. -/
def single (ignoreCase : Bool) (c : Char) : CharClass := ⟨false, ignoreCase, [.range c c]⟩

/-- The class of every code point. -/
def any : CharClass := ⟨true, false, []⟩

/-- The class of every code point but the line feed. -/
def anyButLineFeed : CharClass := ⟨true, false, [.range '\n' '\n']⟩

@[simp]
theorem contains_any (c : Char) : any.contains c = true := rfl

end CharClass

end SlotGrammar.Regex
