import SlotGrammar.Fragments
import SlotGrammar.ParseOptions

/-!
# Fatal errors

A recognizer that merely does not match is no error.  A parse is aborted for
one of two causes: a required recognizer did not match, or a recursive
recognizer was used after its definition was gone.

Main results:

- Theorem `unexpectedAt_position`: an error about a position reports it as given.
-/

namespace SlotGrammar

/-- The cause for which a parse was aborted. -/
inductive ParseError where
  /-- A required recognizer did not match at a position.  The error quotes the
  text around it. -/
  | unexpectedSymbol (pos : Position) (before found after : Text)
  /-- A recursive recognizer was used after its definition was gone. -/
  | unresolved
deriving DecidableEq

namespace ParseError

/-- The last `n` members of a list, or all of them when there are fewer. -/
def lastOf {α : Type} (n : Nat) (items : List α) : List α := items.drop (items.length - n)

/-- The error for a required recognizer that did not match at `pos`.  The quoted
text is cut from the fragment at the greatest code point boundary that is not
beyond `pos`; a missing fragment has the empty text. -/
def unexpectedAt (input : Fragments) (pos : Position) (window : ErrorWindow) : ParseError :=
  let cut := Text.splitAtBytes pos.offset ((input.get? pos.fragment).getD [])
  .unexpectedSymbol pos (lastOf window.before cut.1) (cut.2.take 1)
    ((cut.2.drop 1).take window.after)

/-- The position an error points at, if it has one. -/
def position? : ParseError → Option Position
  | unexpectedSymbol pos _ _ _ => some pos
  | unresolved => none

/-- An error about a position reports that position, however far out it is. -/
@[simp]
theorem unexpectedAt_position (input : Fragments) (pos : Position) (window : ErrorWindow) :
    (unexpectedAt input pos window).position? = some pos := rfl

/-- The wording of an error. -/
def message : ParseError → String
  | unexpectedSymbol pos before found after =>
    let quoted := String.ofList (before ++ ['*', '*', '*'] ++ found ++ ['*', '*', '*'] ++ after)
    s!"unexpected symbol '{quoted}' in fragment {pos.fragment} at offset {pos.offset}"
  | unresolved => "recursive recognizer used after its definition was dropped"

end ParseError

end SlotGrammar
