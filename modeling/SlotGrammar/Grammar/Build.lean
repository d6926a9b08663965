import SlotGrammar.Grammar.Basic

/-!
# Building recognizers

An expression is built into a grammar from left to right.  A recursive
expression gets a cell: the recognizer that it returns owns the cell, and the
name inside the expression stands for a recognizer that only refers to it.

Main results:

- Theorem `build_ref`: a name that is bound gives the very recognizer it is
  bound to.
- Theorem `build_cached_isCached`: a cached expression gives a recognizer that is
  cached as it says.
-/

namespace SlotGrammar.Grammar

variable {V α : Type}

/-! ## Cells -/

/-- The names of the recursive definitions around an expression, the innermost
first, each with the recognizer that stands for the definition. -/
abbrev Scope (V α : Type) := List (String × Recognizer V α)

/-- Adds a cell for a definition that is about to be built. -/
def newDefinition : GrammarM V α Nat := fun g =>
  (g.definitions.size, { g with definitions := g.definitions.push none })

/-- Fills the cell of a definition. -/
def define (cell : Nat) (r : Recognizer V α) : GrammarM V α Unit := fun g =>
  ((), { g with definitions := g.definitions.setIfInBounds cell (some r) })

/-- Adds a recognizer that is to be built later. -/
def newDeferral (d : Deferral V α) : GrammarM V α Nat := fun g =>
  (g.deferrals.size, { g with deferrals := g.deferrals.push d })

/-- Keeps what a deferred recognizer was built to. -/
def settle (cell : Nat) (r : Recognizer V α) : GrammarM V α Unit := fun g =>
  ((), { g with deferrals := g.deferrals.setIfInBounds cell (.settled r) })

/-- The recognizer that a name stands for inside a scope. -/
def resolve? (g : Grammar V α) (scope : Scope V α) (name : String) : Option (Recognizer V α) :=
  (Table.lookup name scope).orElse fun _ => g.find? name

mutual

/-- Builds the recognizer of an expression. -/
def build (scope : Scope V α) : Expr V α → GrammarM V α (Recognizer V α)
  | .make shape => do
    let shape ← buildShape scope shape
    newNode shape
  | .cached on e => do
    let r ← build scope e
    withCaching r on
  | .deferred label e => do
    let cell ← newDeferral (.awaiting label e scope)
    newLink (.deferred cell)
  | .recursive name body => do
    let cell ← newDefinition
    let self ← newLink (.self cell)
    let r ← build ((name, self) :: scope) body
    define cell r
    newLink (.definition cell)
  | .named name e => do
    let r ← build scope e
    modify fun g => g.bind name r
    return r
  | .ref name => do
    match (← get).resolve? scope name with
    | some r => return r
    | none => newLink .unbound

/-- Builds the parts of a shape, from left to right. -/
def buildShape (scope : Scope V α) :
    Shape V α (Expr V α) → GrammarM V α (Shape V α (Recognizer V α))
  | .leaf leaf => return .leaf leaf
  | .mapped transform p => return .mapped transform (← build scope p)
  | .sequence ps => return .sequence (← buildParts scope ps)
  | .choice ps => return .choice (← buildParts scope ps)
  | .optional p => return .optional (← build scope p)
  | .required p => return .required (← build scope p)
  | .conditional t p q => do
    let t ← build scope t
    let p ← build scope p
    return .conditional t p (← build scope q)
  | .repeated p => return .repeated (← build scope p)
  | .separated p d => do
    let p ← build scope p
    return .separated p (← build scope d)
  | .butNot p q => do
    let p ← build scope p
    return .butNot p (← build scope q)
  | .catching p => return .catching (← build scope p)
  | .nested sub p => return .nested sub (← build scope p)
  | .clearing t p => do
    let t ← build scope t
    return .clearing t (← build scope p)
  | .counted label p => return .counted label (← build scope p)
  | .probed label p => return .probed label (← build scope p)

/-- Builds a list of parts, from left to right. -/
def buildParts (scope : Scope V α) : List (Expr V α) → GrammarM V α (List (Recognizer V α))
  | [] => return []
  | e :: es => do
    let r ← build scope e
    return r :: (← buildParts scope es)

end

/-- Builds an expression and binds it to a name. -/
def add (g : Grammar V α) (name : String) (e : Expr V α) : Recognizer V α × Grammar V α :=
  let (r, g) := build [] e g
  (r, g.bind name r)

/-- A name that stands for a recognizer gives that recognizer itself. -/
theorem build_ref {g : Grammar V α} {scope : Scope V α} {name : String} {r : Recognizer V α}
    (h : g.resolve? scope name = some r) : build scope (.ref name) g = (r, g) := by
  rw [build]
  show (match g.resolve? scope name with
    | some r => (pure r : GrammarM V α (Recognizer V α))
    | none => newLink .unbound) g = (r, g)
  rw [h]
  rfl

/-- A name that stands for nothing gives a link to nothing. -/
theorem build_unresolved {g : Grammar V α} {scope : Scope V α} {name : String}
    (h : g.resolve? scope name = none) : build scope (.ref name) g = newLink .unbound g := by
  rw [build]
  show (match g.resolve? scope name with
    | some r => (pure r : GrammarM V α (Recognizer V α))
    | none => newLink .unbound) g = newLink .unbound g
  rw [h]

/-- A cached expression gives a recognizer that is cached as it says. -/
theorem build_cached_isCached (g : Grammar V α) (scope : Scope V α) (on : Bool) (e : Expr V α) :
    (build scope (.cached on e) g).1.isCached = on := by
  rw [build]
  exact withCaching_isCached _ _ _

end SlotGrammar.Grammar
