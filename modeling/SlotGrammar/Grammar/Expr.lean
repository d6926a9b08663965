import SlotGrammar.Recognizer

/-!
# Grammar expressions

An expression says how to build a recognizer: which shape it has over which
parts, whether it keeps outcomes, and how it refers to recognizers by name.  It
is built once into the cells of a grammar.
-/

namespace SlotGrammar

/-- How to build a recognizer. -/
inductive Expr (V α : Type) where
  /-- A new recognizer over parts that are built first, from left to right. -/
  | make (shape : Shape V α (Expr V α))
  /-- A handle with outcomes kept or not kept. -/
  | cached (on : Bool) (expr : Expr V α)
  /-- A recognizer that is built when it is first attempted, which is counted. -/
  | deferred (label : String) (expr : Expr V α)
  /-- A recognizer that may refer to itself by a name. -/
  | recursive (name : String) (body : Expr V α)
  /-- A recognizer that is bound to a name as well. -/
  | named (name : String) (expr : Expr V α)
  /-- The recognizer that a name is bound to: the one being defined in the
  innermost enclosing recursive expression of that name, else the one in the
  grammar's table of names. -/
  | ref (name : String)

namespace Expr

variable {V α : Type}

/-! ## Leaves -/

/-- Matches a literal. -/
def literal (t : Text) : Expr V α := make (.leaf (.find (.literal t)))

/-- Matches a regular expression, pinned to the cursor. -/
def regex (engine : Regex.Engine) (r : Regex) : Expr V α :=
  make (.leaf (.find (.ofRegex engine r)))

/-- Crosses a slot. -/
def nextSlot : Expr V α := make (.leaf .nextSlot)

/-- Matches at the end of the input. -/
def inputEnd : Expr V α := make (.leaf .inputEnd)

/-- Never matches. -/
def fail : Expr V α := make (.leaf .fail)

/-- Always matches, without moving. -/
def empty : Expr V α := make (.leaf .empty)

/-- Matches as a function of input, values and position says. -/
def inspect (decide : Fragments → List V → Position → Outcome V α) : Expr V α :=
  make (.leaf (.inspect decide))

/-! ## Combinations -/

/-- Transforms the tree of a match. -/
def map (e : Expr V α) (transform : Tree V α → List V → Tree V α) : Expr V α :=
  make (.mapped transform e)

/-- Every part in order. -/
def sequence (parts : List (Expr V α)) : Expr V α := make (.sequence parts)

/-- The first part that matches. -/
def choice (parts : List (Expr V α)) : Expr V α := make (.choice parts)

/-- The part, or nothing. -/
def optional (part : Expr V α) : Expr V α := make (.optional part)

/-- The part, or a fatal error. -/
def required (part : Expr V α) : Expr V α := make (.required part)

/-- One or more times. -/
def repeated (part : Expr V α) : Expr V α := make (.repeated part)

/-- One or more times with a delimiter between. -/
def separated (part delimiter : Expr V α) : Expr V α := make (.separated part delimiter)

/-- The part where another one does not match. -/
def butNot (part forbidden : Expr V α) : Expr V α := make (.butNot part forbidden)

/-- The value at a slot number. -/
def lookUpSlot : Tree V α → List V → Tree V α
  | .index i, values =>
    match values[i]? with
    | some v => .present (.value v)
    | none => .absent
  | tree, _ => tree

/-- Crosses a slot and yields the value that fills it, if one was supplied. -/
def slotValue : Expr V α := nextSlot.map lookUpSlot

end Expr

end SlotGrammar
