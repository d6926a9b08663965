import SlotGrammar.Html.Rules
import SlotGrammar.Run.Parse

/-!
# Parsing elements

A parser of elements owns the grammar of elements with its outcomes, so parsing
the same static text again replays the template and only fills in values.

Main results:

- Theorem `create_isCached`: the recognizer of templates keeps its outcomes, and
  the one that fills values in does not.
-/

namespace SlotGrammar.Html

/-- Why an input gave no element. -/
inductive Failure where
  | parse (e : ParseError)
  | resolve (e : MissingValue)
  | noMatch
deriving DecidableEq

/-- The wording of a failure. -/
def Failure.message : Failure → String
  | parse e => e.message
  | resolve e => e.message
  | noMatch => "input is not a single HTML element"

/-- A parser of elements. -/
structure Parser (V : Type) where
  grammar : Grammar V (Piece V)
  /-- The recognizer of templates. -/
  template : Recognizer V (Piece V)
  /-- The recognizer of templates with values filled in. -/
  root : Recognizer V (Piece V)

namespace Parser

variable {V : Type}

/-- The parser for a recognizer of templates that was built into a grammar. -/
def ofBuilt (built : Recognizer V (Piece V) × Grammar V (Piece V)) : Parser V where
  grammar := (Grammar.newNode (.mapped Rules.toResolved built.1) built.2).2
  template := built.1
  root := (Grammar.newNode (.mapped Rules.toResolved built.1) built.2).1

/-- A new parser, with nothing recorded. -/
def create [Lexicon] : Parser V := ofBuilt (Grammar.build [] Rules.template {})

@[simp]
theorem ofBuilt_template (built : Recognizer V (Piece V) × Grammar V (Piece V)) :
    (ofBuilt built).template = built.1 := rfl

@[simp]
theorem ofBuilt_root_isCached (built : Recognizer V (Piece V) × Grammar V (Piece V)) :
    (ofBuilt built).root.isCached = false := rfl

/-- The recognizer of templates keeps its outcomes, and the one that fills values
in does not. -/
theorem create_isCached [Lexicon] :
    (create : Parser V).template.isCached = true ∧ (create : Parser V).root.isCached = false := by
  refine ⟨?_, ofBuilt_root_isCached _⟩
  rw [create, ofBuilt_template, Rules.template]
  exact Grammar.build_cached_isCached {} [] true _

/-- How deep the attempts on an input may nest.  Each element inside another one
takes eleven levels and one byte at least, and each round of a repetition takes
a byte or a slot. -/
def limit (input : Fragments) : Nat := 40 * (input.byteLength + input.length + 2)

/-- The number of outcomes that the recognizer of templates holds. -/
def heldOutcomes (p : Parser V) : Nat := p.grammar.heldOutcomes p.template

/-- Drops everything that was recorded. -/
def dropTraces (p : Parser V) : Parser V :=
  { p with grammar := p.grammar.dropTraces p.template }

/-! ## Results -/

/-- The template in the tree of a match. -/
def templateIn? : Tree V (Piece V) → Option Template
  | .made (.template t) => some t
  | _ => none

/-- The element that a parse with values filled in came to. -/
def elementOf : Ending V (Piece V) → Except Failure (Element V)
  | .error e => .error (.parse e)
  | .ok (some ⟨.made (.element (.ok e)), _⟩) => .ok e
  | .ok (some ⟨.made (.element (.error e)), _⟩) => .error (.resolve e)
  | .ok _ => .error .noMatch

/-- The template that a parse came to, and where it stopped. -/
def templateOf : Ending V (Piece V) → Except ParseError (Option (Template × Position))
  | .error e => .error e
  | .ok outcome =>
    .ok (outcome.bind fun found => (templateIn? found.tree).map fun t => (t, found.stop))

/-! ## Parsing

Every parse gives its result and the parser after it.  There is none only for an
input whose attempts nest deeper than the limit. -/

/-- The element in an input, with values in place of attributes collected. -/
def parse? (p : Parser V) (input : Fragments) (values : List V) (options : ParseOptions) :
    Option (Except Failure (Element V) × Parser V) :=
  (p.grammar.parse? (limit input) p.root input values options).map fun report =>
    (elementOf report.ending, { p with grammar := report.grammar })

/-- The template of an input, and where it stops. -/
def template? (p : Parser V) (input : Fragments) (values : List V) (options : ParseOptions) :
    Option (Except ParseError (Option (Template × Position)) × Parser V) :=
  (p.grammar.parse? (limit input) p.template input values options).map fun report =>
    (templateOf report.ending, { p with grammar := report.grammar })

/-- The template at a position of an input, without recording or replaying. -/
def templateAt? (p : Parser V) (input : Fragments) (window : ErrorWindow) (pos : Position) :
    Option (Except ParseError (Option (Template × Position)) × Parser V) :=
  (p.grammar.exec? (limit input) p.template input [] window pos).map fun report =>
    (templateOf report.ending, { p with grammar := report.grammar })

/-- The element in an input, with values in place of attributes spread into the
named attributes. -/
def parseSpreading? [AttrSource V] (p : Parser V) (input : Fragments) (values : List V) :
    Option (Except Failure (Element V) × Parser V) :=
  (p.template? input values .standard).map fun (ending, p) =>
    let element : Except Failure (Element V) :=
      match ending with
      | .error e => .error (.parse e)
      | .ok none => .error .noMatch
      | .ok (some (t, _)) => (t.resolveSpreading values).mapError .resolve
    (element, p)

end Parser

end SlotGrammar.Html
