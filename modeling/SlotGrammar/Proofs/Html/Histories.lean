import SlotGrammar.Proofs.Html.Parsing

/-!
# Parsers without memory

A parser of elements keeps the outcomes of its recognizer of templates from call to call, and
parses with values filled in, with values spread and without values all use them.  None of this
shows in what the calls return: each returns what a new parser returns that keeps nothing.

Main results:

- Definition `Call`: the uses of a parser.
- Theorem `Serves.call`: what one call returns after any uses of the parser.
- Theorem `Parser.runAll?_create`: what the calls of a whole history return.
-/

namespace SlotGrammar.Html

variable {V : Type}

/-! ## Calls -/

/-- One use of a parser. -/
inductive Call (V : Type) where
  /-- An input is parsed with values in place of attributes collected. -/
  | parse (input : Fragments) (values : List V) (options : ParseOptions)
  /-- An input is parsed with values in place of attributes spread. -/
  | parseSpreading (input : Fragments) (values : List V)
  /-- The template of an input is asked for. -/
  | template (input : Fragments) (values : List V) (options : ParseOptions)
  /-- Everything that was recorded is dropped. -/
  | dropTraces

/-- What a call returns. -/
inductive Answer (V : Type) where
  | element (result : Except Failure (Element V))
  | template (result : Except ParseError (Option (Template × Position)))
  | nothing

namespace Parser

variable [AttrSource V]

/-- The element of an answer about a template, with values in place of attributes spread. -/
def spreadInto (values : List V) :
    Except ParseError (Option (Template × Position)) → Except Failure (Element V)
  | .error e => .error (.parse e)
  | .ok none => .error .noMatch
  | .ok (some (t, _)) => (t.resolveSpreading values).mapError .resolve

/-- The element in an input, with values in place of attributes spread, under any options. -/
def parseSpreadingWith? (p : Parser V) (input : Fragments) (values : List V)
    (options : ParseOptions) : Option (Except Failure (Element V) × Parser V) :=
  (p.template? input values options).map fun (answer, p) => (spreadInto values answer, p)

theorem parseSpreading?_eq (p : Parser V) (input : Fragments) (values : List V) :
    p.parseSpreading? input values = p.parseSpreadingWith? input values .standard := rfl

/-- Calls a parser, which gives the answer and the parser after it. -/
def call? (p : Parser V) : Call V → Option (Answer V × Parser V)
  | .parse input values options =>
    (p.parse? input values options).map fun (result, p) => (.element result, p)
  | .parseSpreading input values =>
    (p.parseSpreading? input values).map fun (result, p) => (.element result, p)
  | .template input values options =>
    (p.template? input values options).map fun (result, p) => (.template result, p)
  | .dropTraces => some (.nothing, p.dropTraces)

/-- Calls a parser again and again. -/
def runAll? (p : Parser V) : List (Call V) → Option (List (Answer V) × Parser V)
  | [] => some ([], p)
  | c :: cs =>
    (p.call? c).bind fun (answer, p) =>
      (p.runAll? cs).map fun (answers, p) => (answer :: answers, p)

/-- What a call returns from a new parser with its caches left alone. -/
def afresh? [Lexicon] : Call V → Option (Answer V)
  | .parse input values options =>
    (create.parse? input values (options.withCache false)).map fun (result, _) => .element result
  | .parseSpreading input values =>
    (create.parseSpreadingWith? input values .uncached).map fun (result, _) => .element result
  | .template input values options =>
    (create.template? input values (options.withCache false)).map fun (result, _) =>
      .template result
  | .dropTraces => some .nothing

/-! ## Histories -/

section Histories

variable [SoundLexicon] {p : Parser V}

/-- After any uses, a call returns what it returns from a new parser that keeps nothing. -/
theorem Serves.call (hp : p.Serves Rules.template) (c : Call V) :
    ∃ answer p', p.call? c = some (answer, p') ∧ p'.Serves Rules.template ∧
      afresh? c = some answer := by
  cases c with
  | parse input values options =>
    obtain ⟨result, p', q, hfound, hp', hfresh⟩ := hp.parse?_fresh input values
      (show (options.withCache false).errorWindow = options.errorWindow from rfl)
    refine ⟨.element result, p', ?_, hp', ?_⟩
    · rw [call?, hfound, Option.map_some]
    · rw [afresh?, hfresh, Option.map_some]
  | parseSpreading input values =>
    obtain ⟨answer, p', q, hfound, hp', hfresh⟩ := hp.template?_fresh input values
      (show ParseOptions.uncached.errorWindow = ParseOptions.standard.errorWindow from rfl)
    refine ⟨.element (spreadInto values answer), p', ?_, hp', ?_⟩
    · rw [call?, parseSpreading?_eq, parseSpreadingWith?, hfound, Option.map_some, Option.map_some]
    · rw [afresh?, parseSpreadingWith?, hfresh, Option.map_some, Option.map_some]
  | template input values options =>
    obtain ⟨answer, p', q, hfound, hp', hfresh⟩ := hp.template?_fresh input values
      (show (options.withCache false).errorWindow = options.errorWindow from rfl)
    refine ⟨.template answer, p', ?_, hp', ?_⟩
    · rw [call?, hfound, Option.map_some]
    · rw [afresh?, hfresh, Option.map_some]
  | dropTraces => exact ⟨.nothing, p.dropTraces, rfl, hp.dropTraces template_transparent, rfl⟩

/-- The same for one call after the other. -/
theorem Serves.runAll (hp : p.Serves Rules.template) (calls : List (Call V)) :
    ∃ answers p', p.runAll? calls = some (answers, p') ∧
      List.Forall₂ (fun c answer => afresh? c = some answer) calls answers := by
  induction calls generalizing p with
  | nil => exact ⟨[], p, rfl, .nil⟩
  | cons c calls ih =>
    obtain ⟨answer, mid, hcall, hmid, hafresh⟩ := hp.call c
    obtain ⟨answers, p', hrest, hanswers⟩ := ih hmid
    refine ⟨answer :: answers, p', ?_, .cons hafresh hanswers⟩
    rw [runAll?, hcall, Option.bind_some]
    show (mid.runAll? calls).map _ = _
    rw [hrest]
    rfl

/-- A parser has no memory in its results: every call of a history returns what the same call
returns from a new parser with its caches left alone. -/
theorem runAll?_create (calls : List (Call V)) :
    ∃ answers p, create.runAll? calls = some (answers, p) ∧
      List.Forall₂ (fun c answer => afresh? c = some answer) calls answers :=
  serves_create.runAll calls

end Histories

end Parser

end SlotGrammar.Html
