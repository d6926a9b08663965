import SlotGrammar.Html.Parser
import SlotGrammar.Proofs.Pairs
import SlotGrammar.Proofs.Readings

/-!
# Parsers of elements

What a parser of elements finds in an input is what the expression of templates comes to at
its start, whatever the parser was used for before.

Main results:

- Theorem `template_transparent`: the expression of templates is closed and orderly, and reads
  no values.
- Theorems `Serves.template?` and `Serves.parse?`: what a parser finds after any uses of it.
- Theorem `exists_settles_of_reads`: it finds what the expression of templates reads.
-/

namespace SlotGrammar.Html.Parser

variable {V : Type}

/-! ## The expressions -/

/-- Whether a transform leaves the values alone. -/
def IgnoresValues (transform : Rules.Tree V → List V → Rules.Tree V) : Prop :=
  ∀ tree values values', transform tree values = transform tree values'

theorem ignoresValues_toTag : IgnoresValues (V := V) Rules.toTag := by
  intro tree values values'
  cases tree <;> rfl

theorem ignoresValues_toSpread : IgnoresValues (V := V) Rules.toSpread := by
  intro tree values values'
  cases tree <;> rfl

theorem ignoresValues_toBooleanAttr : IgnoresValues (V := V) Rules.toBooleanAttr := by
  intro tree values values'
  cases tree <;> rfl

theorem ignoresValues_toChild : IgnoresValues (V := V) Rules.toChild := by
  intro tree values values'
  cases tree with
  | made piece => cases piece <;> rfl
  | _ => rfl

/-- The expression of templates refers to no name outside it, all its shapes are orderly, and
none of them reads values. -/
theorem template_transparent [SoundLexicon] :
    Grammar.Transparent (Rules.template : Rules.Expr V) := by
  constructor <;>
    simp [Rules.template, Rules.element, Rules.elementOver, Rules.selfClosing, Rules.body,
      Rules.closingTag, Rules.child, Rules.tag, Rules.attributes, Rules.booleanAttr,
      Rules.staticAttr, Rules.slotAttr, Rules.spreadAttr, Rules.quote, Rules.optionalSpace,
      Rules.whiteSpace, Expr.map, Expr.sequence, Expr.choice, Expr.optional, Expr.required,
      Expr.repeated, Expr.separated, Expr.butNot, Expr.literal, Rules.token, Expr.regex,
      Expr.nextSlot, Expr.inputEnd, Shape.parts, Shape.Orderly, Shape.Blind, Shape.Steady,
      Leaf.outcome]
  have hmember : IgnoresValues (V := V) (Rules.member 1) := fun _ _ _ => rfl
  have helement : IgnoresValues (V := V) Rules.toElement := fun _ _ _ => rfl
  have hslot : IgnoresValues (V := V) Rules.toSlotAttr := fun _ _ _ => rfl
  have hstatic : IgnoresValues (V := V) Rules.toStaticAttr := fun _ _ _ => rfl
  exact ⟨hmember, helement, ignoresValues_toTag,
    ⟨hmember, ignoresValues_toSpread, ⟨hslot, hmember⟩, hstatic, ignoresValues_toBooleanAttr⟩,
    hmember, ignoresValues_toChild⟩

/-! ## Parsing -/

/-- Where the parser that owns the recognizer of an expression attempts it. -/
def sceneOf (e : Rules.Expr V) (view : View V) : Scene V (Piece V) where
  toView := view
  targets := (Grammar.addPair e Rules.toResolved "template" "element").target
  names := fun _ _ => False

/-- What the recognizer of an expression comes to at the start of an input, with room for
its transform, in the parser that owns both. -/
def Settles (e : Rules.Expr V) (view : View V) (ending : Ending V (Piece V)) : Prop :=
  (Grammar.pair e Rules.toResolved).1.ComesTo (sceneOf e view).targets view
    (Parser.limit view.input - 1) .start ending

/-- Whether a parser is the one for an expression, after any uses of it. -/
structure Serves (e : Rules.Expr V) (p : Parser V) : Prop where
  template_eq : p.template = (Grammar.pair e Rules.toResolved).1
  root_eq : p.root = (Grammar.pair e Rules.toResolved).2.1
  kept : Grammar.PairKept e Rules.toResolved "template" "element" p.grammar

section Serves

variable {e : Rules.Expr V} {p : Parser V}

/-- A parser with nothing recorded. -/
theorem serves_ofBuilt (h : Grammar.Transparent e) :
    (ofBuilt (Grammar.build [] e {})).Serves e :=
  ⟨rfl, rfl, h.kept (by decide)⟩

theorem Serves.dropTraces (h : Grammar.Transparent e) (hp : p.Serves e) : p.dropTraces.Serves e :=
  ⟨hp.template_eq, hp.root_eq, hp.kept.dropTraces h (by decide) p.template⟩

variable {view : View V} {limit : Nat} {ending : Ending V (Piece V)}

/-- What every recognizer of an expression comes to, the one in the parser does. -/
theorem settles_of_makes (hclosed : e.Closed []) (hlimit : limit < Parser.limit view.input)
    (h : ∀ r, e.Makes (sceneOf e view).targets (fun _ _ => False) r →
      r.ComesTo (sceneOf e view).targets view limit .start ending) : Settles e view ending := by
  obtain ⟨hmakes, -⟩ := Grammar.makes_pair e "template" "element" Rules.toResolved hclosed
    (by decide) fun _ _ => False
  exact (h _ hmakes).mono (Nat.le_sub_one_of_lt hlimit)

variable {input : Fragments} {values : List V}

/-- After any uses a parser finds what the recognizer of its expression comes to. -/
theorem Serves.template? (h : Grammar.Transparent e) (hp : p.Serves e) (options : ParseOptions)
    (hsettles : Settles e ⟨input, values, options.errorWindow⟩ ending) :
    ∃ p', p.template? input values options = some (templateOf ending, p') ∧ p'.Serves e := by
  let q : Query V (Piece V) := ⟨p.template, input, values, options⟩
  have hroot : Grammar.IsOfPair e Rules.toResolved q.root := .inl hp.template_eq
  have hcomes : q.root.ComesTo (sceneOf e q.context.view).targets q.context.view
      (Parser.limit input) .start ending := by
    show p.template.ComesTo _ _ _ _ _
    rw [hp.template_eq]
    exact hsettles.mono (Nat.sub_le _ 1)
  obtain ⟨report, hreport, rfl, hkept⟩ := hp.kept.parse? h (by decide) hroot hcomes
  refine ⟨{ p with grammar := report.grammar }, ?_, hp.template_eq, hp.root_eq, hkept⟩
  have htemplate : p.template? input values options =
      (q.parse? p.grammar (Parser.limit input)).map fun report =>
        (templateOf report.ending, { p with grammar := report.grammar }) := rfl
  rw [htemplate, hreport]
  rfl

/-- An ending with values filled in. -/
def resolvedWith (values : List V) (ending : Ending V (Piece V)) : Ending V (Piece V) :=
  ending.map (Option.map (Match.map fun tree => Rules.toResolved tree values))

/-- It makes the element of what the recognizer comes to. -/
theorem Serves.parse? (h : Grammar.Transparent e) (hp : p.Serves e) (options : ParseOptions)
    (hsettles : Settles e ⟨input, values, options.errorWindow⟩ ending) :
    ∃ p', p.parse? input values options = some (elementOf (resolvedWith values ending), p') ∧
      p'.Serves e := by
  let q : Query V (Piece V) := ⟨p.root, input, values, options⟩
  have hroot : Grammar.IsOfPair e Rules.toResolved q.root := .inr hp.root_eq
  have hlimit : Parser.limit input - 1 + 1 = Parser.limit input := by
    unfold Parser.limit
    omega
  have hcomes : q.root.ComesTo (sceneOf e q.context.view).targets q.context.view
      (Parser.limit input) .start (resolvedWith values ending) := by
    show p.root.ComesTo _ _ _ _ _
    rw [hp.root_eq, ← hlimit]
    exact hsettles.mapped _ Rules.toResolved
  obtain ⟨report, hreport, hending, hkept⟩ := hp.kept.parse? h (by decide) hroot hcomes
  refine ⟨{ p with grammar := report.grammar }, ?_, hp.template_eq, hp.root_eq, hkept⟩
  have hparse : p.parse? input values options =
      (q.parse? p.grammar (Parser.limit input)).map fun report =>
        (elementOf report.ending, { p with grammar := report.grammar }) := rfl
  rw [hparse, hreport, ← hending]
  rfl

end Serves

variable [SoundLexicon]

/-- The scene in which a new parser reads an input. -/
def scene (input : Fragments) (values : List V) (window : ErrorWindow) : Scene V (Piece V) :=
  sceneOf Rules.template ⟨input, values, window⟩

/-- The recognizer of templates comes to what their expression reads in the symbols. -/
theorem exists_settles_of_reads {input : Fragments} (hinput : input.texts ≠ []) {values : List V}
    {window : ErrorWindow} {limit : Nat} (hlimit : limit < Parser.limit input)
    {v : Verdict V (Piece V)}
    (h : Rules.template.Reads (scene input values window) limit input.symbols v) :
    ∃ ending, v.Fits input ending ∧ Settles Rules.template ⟨input, values, window⟩ ending := by
  obtain ⟨hmakes, -⟩ := Grammar.makes_pair Rules.template "template" "element" Rules.toResolved
    (template_transparent (V := V)).closed (by decide) fun _ _ => False
  obtain ⟨ending, hfits, hcomes⟩ := h _ hmakes .start (Fragments.ahead?_start hinput)
  exact ⟨ending, hfits, hcomes.mono (Nat.le_sub_one_of_lt hlimit)⟩

/-- A new parser is one for templates. -/
theorem serves_create : (create : Parser V).Serves Rules.template :=
  serves_ofBuilt template_transparent

end SlotGrammar.Html.Parser
