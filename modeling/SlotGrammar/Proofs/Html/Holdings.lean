import Mathlib.Data.Finset.Image
import SlotGrammar.Proofs.Holdings
import SlotGrammar.Proofs.Html.Histories

/-!
# What a parser of elements holds

A parser of elements parses from its recognizer of templates or from the one that fills values
in, and both keep what they find in one store.  After any calls that store holds one outcome for
each recognizer and input that were parsed with caching and matched since it was cleared.

Main results:

- Definition `sinceDropped`: the recognizers and inputs of the matches that count.
- Theorem `Holds.call`: what one call does to what is held.
- Theorem `Parser.runAll?_heldOutcomes`: how many outcomes are held after a history of calls.
-/

namespace SlotGrammar.Html

variable {V : Type}

/-! ## Uses -/

/-- The recognizers of a parser from which its calls parse. -/
inductive Root where
  /-- The recognizer of templates. -/
  | template
  /-- The recognizer of templates with values filled in. -/
  | element
deriving DecidableEq

/-- The recognizer that a call parses from, the input, and whether caching is on. -/
def Call.parses? : Call V → Option (Root × Fragments × Bool)
  | .parse input _ options => some (.element, input, options.cache)
  | .parseSpreading input _ => some (.template, input, ParseOptions.standard.cache)
  | .template input _ options => some (.template, input, options.cache)
  | .dropTraces => none

/-- Whether an answer tells of a match: a value may be missing then. -/
def Answer.tellsMatch : Answer V → Bool
  | .element (.ok _) => true
  | .element (.error (.resolve _)) => true
  | .template (.ok (some _)) => true
  | _ => false

/-- The recognizer and the input of a call with caching that its answer tells a match of. -/
def cachedMatch? (x : Call V × Answer V) : Option (Root × Fragments) :=
  match x.1.parses? with
  | some (root, input, true) => if x.2.tellsMatch then some (root, input) else none
  | _ => none

/-- The recognizers and inputs of the matches with caching after the last call that dropped
everything, latest first. -/
def sinceDropped (history : List (Call V × Answer V)) : List (Root × Fragments) :=
  (history.reverse.takeWhile fun x => x.1.parses?.isSome).filterMap cachedMatch?

/-- What is held after a call. -/
def holdAfter (held : Finset (Root × Fragments)) (x : Call V × Answer V) :
    Finset (Root × Fragments) :=
  if x.1.parses?.isSome then (cachedMatch? x).elim held (insert · held) else ∅

/-- A call holds its pair exactly when it parses with caching and the answer tells of a match. -/
theorem holdAfter_eq {held : Finset (Root × Fragments)} {c : Call V} {answer : Answer V}
    {matched : Bool} (htells : answer.tellsMatch = matched) {root : Root} {input : Fragments}
    {cache : Bool} (hparses : c.parses? = some (root, input, cache)) :
    holdAfter held (c, answer) =
      if (cache && matched) = true then insert (root, input) held else held := by
  rw [holdAfter, cachedMatch?, hparses, htells]
  cases cache <;> cases matched <;> rfl

/-- Holding what each call of a history adds is holding what has matched since everything was
dropped. -/
theorem foldl_holdAfter (history : List (Call V × Answer V)) :
    history.foldl holdAfter ∅ = (sinceDropped history).toFinset := by
  induction history using List.reverseRecOn with
  | nil => rfl
  | append_singleton history x ih =>
    rw [List.foldl_append, ih, List.foldl_cons, List.foldl_nil, holdAfter]
    cases hparses : x.1.parses?.isSome with
    | false => simp [sinceDropped, hparses]
    | true =>
      cases hmatch : cachedMatch? x <;>
        simp [sinceDropped, hparses, hmatch]

namespace Parser

/-! ## Holding -/

section Holds

variable (e : Rules.Expr V)

/-- The recognizers of the parser for an expression. -/
def recognizerOf : Root → Recognizer V (Piece V)
  | .template => (Grammar.pair e Rules.toResolved).1
  | .element => (Grammar.pair e Rules.toResolved).2.1

/-- What is parsed is the template's recognizer, resolved or not. -/
theorem isOfPair_recognizerOf (root : Root) :
    Grammar.IsOfPair e Rules.toResolved (recognizerOf e root) := by
  cases root
  · exact .inl rfl
  · exact .inr rfl

/-- The trace of an input that is parsed from a recognizer. -/
def traceOf (use : Root × Fragments) : TraceKey := traceKey (recognizerOf e use.1) use.2

/-- Each recognizer and input have a trace of their own. -/
theorem traceOf_injective : Function.Injective (traceOf e) := by
  have hne := Grammar.pair_id_ne e Rules.toResolved
  rintro ⟨root, input⟩ ⟨root', input'⟩ heq
  injection heq with hid hprint
  have hinput : input = input' := Fragments.fingerprint_inj.1 hprint
  have hroot : root = root' := by
    cases root <;> cases root'
    · rfl
    · exact absurd hid hne
    · exact absurd hid.symm hne
    · rfl
  rw [hroot, hinput]

/-- Whether a parser is the one for an expression, after some uses, and holds in a store an
outcome for each recognizer and input of a set. -/
structure Holds (s₀ : StoreId) (held : Finset (Root × Fragments)) (p : Parser V) : Prop where
  template_eq : p.template = recognizerOf e .template
  root_eq : p.root = recognizerOf e .element
  holds : Grammar.PairHolds e Rules.toResolved "template" "element" s₀ (held.image (traceOf e))
    p.grammar

variable {e} {s₀ : StoreId} {held : Finset (Root × Fragments)} {p : Parser V}

/-- With nothing recorded, a parser holds nothing. -/
theorem holds_ofBuilt (h : Grammar.Transparent e) :
    Holds e s₀ ∅ (ofBuilt (Grammar.build [] e {})) :=
  ⟨rfl, rfl, h.holds (by decide)⟩

/-- Neither does one that drops everything. -/
theorem Holds.dropTraces (h : Grammar.Transparent e)
    (hcaching : (recognizerOf e .template).handle.caching = .active s₀) (hp : Holds e s₀ held p) :
    Holds e s₀ ∅ p.dropTraces := by
  refine ⟨hp.template_eq, hp.root_eq, ?_⟩
  have hdropped := hp.holds.dropTraces h (by decide) hcaching
  rw [Parser.dropTraces, hp.template_eq]
  exact hdropped

/-- A parser holds as many outcomes as the set has members. -/
theorem Holds.heldOutcomes (hcaching : (recognizerOf e .template).handle.caching = .active s₀)
    (hp : Holds e s₀ held p) : p.heldOutcomes = held.card := by
  have hcard := hp.holds.heldOutcomes hcaching
  rw [Finset.card_image_of_injective held (traceOf_injective e)] at hcard
  rw [Parser.heldOutcomes, hp.template_eq]
  exact hcard

/-! ## Parsing -/

variable {input : Fragments} {values : List V} {options : ParseOptions}
  {ending : Ending V (Piece V)}

/-- How a parse from a recognizer ends where the recognizer of templates comes to an ending. -/
def endingFrom (values : List V) (ending : Ending V (Piece V)) : Root → Ending V (Piece V)
  | .template => ending
  | .element => resolvedWith values ending

/-- Resolving a template does not change whether it is a match. -/
theorem isMatch_endingFrom (root : Root) :
    (endingFrom values ending root).isMatch = ending.isMatch := by
  cases root with
  | template => rfl
  | element => rcases ending with err | _ | m <;> rfl

/-- What the grammar's rule settles, the recognizer parsed comes to. -/
theorem Settles.comesTo_recognizerOf
    (hsettles : Settles e ⟨input, values, options.errorWindow⟩ ending) (root : Root) :
    (recognizerOf e root).ComesTo (sceneOf e ⟨input, values, options.errorWindow⟩).targets
      ⟨input, values, options.errorWindow⟩ (Parser.limit input) .start
      (endingFrom values ending root) := by
  cases root with
  | template => exact hsettles.mono (Nat.sub_le _ 1)
  | element =>
    have hlimit : Parser.limit input - 1 + 1 = Parser.limit input := by
      unfold Parser.limit
      omega
    rw [← hlimit]
    exact hsettles.mapped _ Rules.toResolved

/-- A parse with caching that matches adds its recognizer and input, and no other one does. -/
theorem Holds.report? (h : Grammar.Transparent e)
    (hcaching : (recognizerOf e .template).handle.caching = .active s₀) (hp : Holds e s₀ held p)
    (root : Root) (hsettles : Settles e ⟨input, values, options.errorWindow⟩ ending) :
    ∃ report, p.grammar.parse? (limit input) (recognizerOf e root) input values options =
        some report ∧ report.ending = endingFrom values ending root ∧
      Holds e s₀
        (if (options.cache && ending.isMatch) = true then insert (root, input) held else held)
        { p with grammar := report.grammar } := by
  let q : Query V (Piece V) := ⟨recognizerOf e root, input, values, options⟩
  have hroot : Grammar.IsOfPair e Rules.toResolved q.root := isOfPair_recognizerOf e root
  have hcomes : q.root.ComesTo _ q.context.view _ _ _ := hsettles.comesTo_recognizerOf root
  rcases hp.holds.parse? h (by decide) hcaching hroot hcomes with ⟨report, hreport, hending, hholds⟩
  refine ⟨report, hreport, hending, hp.template_eq, hp.root_eq, ?_⟩
  have himage : (if (options.cache && ending.isMatch) = true then insert (root, input) held
      else held).image (traceOf e) = if (options.cache && ending.isMatch) = true then
        insert q.key (held.image (traceOf e)) else held.image (traceOf e) := by
    split
    · rw [Finset.image_insert]
      rfl
    · rfl
  rw [himage]
  rw [isMatch_endingFrom] at hholds
  exact hholds

/-- The same for the template of an input. -/
theorem Holds.template? (h : Grammar.Transparent e)
    (hcaching : (recognizerOf e .template).handle.caching = .active s₀) (hp : Holds e s₀ held p)
    (hsettles : Settles e ⟨input, values, options.errorWindow⟩ ending) :
    ∃ p', p.template? input values options = some (templateOf ending, p') ∧ Holds e s₀
      (if (options.cache && ending.isMatch) = true then insert (.template, input) held else held)
      p' := by
  rcases hp.report? h hcaching .template hsettles with ⟨report, hreport, hending, hholds⟩
  have hending : report.ending = ending := hending
  refine ⟨_, ?_, hholds⟩
  rw [Parser.template?, hp.template_eq, hreport, Option.map_some, hending]

/-- The same with values filled in. -/
theorem Holds.parse? (h : Grammar.Transparent e)
    (hcaching : (recognizerOf e .template).handle.caching = .active s₀) (hp : Holds e s₀ held p)
    (hsettles : Settles e ⟨input, values, options.errorWindow⟩ ending) :
    ∃ p', p.parse? input values options = some (elementOf (resolvedWith values ending), p') ∧
      Holds e s₀
        (if (options.cache && ending.isMatch) = true then insert (.element, input) held else held)
        p' := by
  rcases hp.report? h hcaching .element hsettles with ⟨report, hreport, hending, hholds⟩
  have hending : report.ending = resolvedWith values ending := hending
  refine ⟨_, ?_, hholds⟩
  rw [Parser.parse?, hp.root_eq, hreport, Option.map_some, hending]

end Holds

/-! ## Matches of the grammar -/

/-- A new parser holds nothing. -/
theorem holds_create [SoundLexicon] (s₀ : StoreId) :
    Holds Rules.template s₀ ∅ (create : Parser V) :=
  holds_ofBuilt template_transparent

/-- The recognizer of templates has a store. -/
theorem exists_store [SoundLexicon] :
    ∃ s₀, (recognizerOf (Rules.template : Rules.Expr V) .template).handle.caching = .active s₀ := by
  have hsame : (create : Parser V).template = recognizerOf Rules.template .template :=
    (holds_create 0).template_eq
  rw [← hsame]
  rcases Caching.active_or_inactive (create : Parser V).template.handle.caching with hon | hoff
  · exact hon
  · have hcached : (create : Parser V).template.isCached = true := create_isCached.1
    rw [Recognizer.isCached, hoff] at hcached
    cases hcached

variable (V) in
/-- Whether the grammar of a new parser matches an input. -/
def grammarMatches [Lexicon] (input : Fragments) : Bool :=
  (create.grammar.parse? (limit input) create.template input ([] : List V) .standard).any
    fun report => report.ending.isMatch

section Matches

variable [SoundLexicon] {input : Fragments} {values : List V} {window : ErrorWindow}
  {ending : Ending V (Piece V)}

/-- The recognizer of templates matches the inputs that are read as a template. -/
theorem isMatch_iff (hanswers : Answers input ending)
    (hsettles : Settles Rules.template ⟨input, values, window⟩ ending) :
    ending.isMatch = true ↔ ∃ t, ReadsDocument t input.symbols := by
  constructor
  · intro hmatch
    cases hanswers with
    | found ht => exact ⟨_, ht⟩
    | refused => cases hmatch
    | raised => cases hmatch
  · rintro ⟨t, ht⟩
    rcases settles_of_readsDocument values window ht with ⟨stop, hfound⟩
    have hsame := (hsettles _ (Nat.le_refl _)).symm.trans (hfound _ (Nat.le_refl _))
    rw [Option.some.inj hsame]
    rfl

/-- So does the grammar of a new parser. -/
theorem grammarMatches_iff :
    grammarMatches V input = true ↔ ∃ t, ReadsDocument t input.symbols := by
  rcases exists_settles (V := V) input [] ParseOptions.standard.errorWindow with
    ⟨ending, hanswers, hsettles⟩
  rcases exists_store (V := V) with ⟨s₀, hcaching⟩
  rcases (holds_create s₀).report? template_transparent hcaching .template hsettles with
    ⟨report, hreport, hending, -⟩
  have hending : report.ending = ending := hending
  rw [grammarMatches, (holds_create s₀).template_eq, hreport, Option.any_some, hending]
  exact isMatch_iff hanswers hsettles

/-- An answer is a match when a fresh grammar matches the input. -/
theorem isMatch_eq_grammarMatches (hanswers : Answers input ending)
    (hsettles : Settles Rules.template ⟨input, values, window⟩ ending) :
    ending.isMatch = grammarMatches V input :=
  Bool.eq_iff_iff.2 ((isMatch_iff hanswers hsettles).trans grammarMatches_iff.symm)

end Matches

/-! ## Answers -/

section Answers

variable {input : Fragments} {ending : Ending V (Piece V)}

/-- What answers an input tells of a match exactly when it is one, as a template and as an
element. -/
theorem tellsMatch_templateOf (h : Answers input ending) :
    (Answer.template (templateOf ending) : Answer V).tellsMatch = ending.isMatch := by
  cases h <;> rfl

/-- An element tells of a match as its ending does. -/
theorem tellsMatch_elementOf (h : Answers input ending) (values : List V) :
    (Answer.element (elementOf (resolvedWith values ending))).tellsMatch = ending.isMatch := by
  cases h with
  | @found t stop ht =>
    show (Answer.element (elementOf (.ok (some ⟨.made (.element (t.resolve values)), stop⟩)))
      ).tellsMatch = true
    cases t.resolve values <;> rfl
  | refused => rfl
  | raised => rfl

/-- An element with its spreads merged tells of a match as its ending does. -/
theorem tellsMatch_spreadInto [AttrSource V] (h : Answers input ending) (values : List V) :
    (Answer.element (spreadInto values (templateOf ending))).tellsMatch = ending.isMatch := by
  cases h with
  | @found t stop ht =>
    show (Answer.element ((t.resolveSpreading values).mapError .resolve)).tellsMatch = true
    cases t.resolveSpreading values <;> rfl
  | refused => rfl
  | raised => rfl

end Answers

/-! ## Histories -/

/-- Whether the answer to a call tells of a match exactly when the grammar matches the input. -/
def TellsMatches [Lexicon] (c : Call V) (answer : Answer V) : Prop :=
  ∀ root input cache, c.parses? = some (root, input, cache) →
    answer.tellsMatch = grammarMatches V input

/-- An answer that tells what the grammar settled tells of matches rightly. -/
theorem tellsMatches_of_answers [SoundLexicon] {c : Call V} {answer : Answer V} {root : Root}
    {input : Fragments} {cache : Bool} {values : List V} {window : ErrorWindow}
    {ending : Ending V (Piece V)}
    (hparses : c.parses? = some (root, input, cache)) (hanswers : Answers input ending)
    (hsettles : Settles Rules.template ⟨input, values, window⟩ ending)
    (htells : answer.tellsMatch = ending.isMatch) : TellsMatches c answer := by
  intro root' input' cache' hparses'
  rw [hparses] at hparses'
  cases hparses'
  exact htells.trans (isMatch_eq_grammarMatches hanswers hsettles)

section Histories

variable [AttrSource V] [SoundLexicon] {p : Parser V} {s₀ : StoreId}
  {held : Finset (Root × Fragments)}
  (hcaching : (recognizerOf (Rules.template : Rules.Expr V) .template).handle.caching = .active s₀)

include hcaching in
/-- A call adds what it matches with caching, and its answer tells whether the grammar matches
its input. -/
theorem Holds.call (hp : Holds Rules.template s₀ held p) (c : Call V) :
    ∃ answer p', p.call? c = some (answer, p') ∧
      Holds Rules.template s₀ (holdAfter held (c, answer)) p' ∧ TellsMatches c answer := by
  cases c with
  | parse input values options =>
    rcases exists_settles input values options.errorWindow with ⟨ending, hanswers, hsettles⟩
    rcases hp.parse? template_transparent hcaching hsettles with ⟨p', hfound, hholds⟩
    have htells := tellsMatch_elementOf hanswers values
    refine ⟨.element (elementOf (resolvedWith values ending)), p', ?_, ?_,
      tellsMatches_of_answers rfl hanswers hsettles htells⟩
    · rw [call?, hfound, Option.map_some]
    · rw [holdAfter_eq htells rfl]
      exact hholds
  | parseSpreading input values =>
    rcases exists_settles input values ParseOptions.standard.errorWindow with
      ⟨ending, hanswers, hsettles⟩
    rcases hp.template? template_transparent hcaching hsettles with ⟨p', hfound, hholds⟩
    have htells := tellsMatch_spreadInto hanswers values
    refine ⟨.element (spreadInto values (templateOf ending)), p', ?_, ?_,
      tellsMatches_of_answers rfl hanswers hsettles htells⟩
    · rw [call?, parseSpreading?_eq, parseSpreadingWith?, hfound, Option.map_some, Option.map_some]
    · rw [holdAfter_eq htells rfl]
      exact hholds
  | template input values options =>
    rcases exists_settles input values options.errorWindow with ⟨ending, hanswers, hsettles⟩
    rcases hp.template? template_transparent hcaching hsettles with ⟨p', hfound, hholds⟩
    have htells := tellsMatch_templateOf hanswers
    refine ⟨.template (templateOf ending), p', ?_, ?_,
      tellsMatches_of_answers rfl hanswers hsettles htells⟩
    · rw [call?, hfound, Option.map_some]
    · rw [holdAfter_eq htells rfl]
      exact hholds
  | dropTraces =>
    have htells : TellsMatches (.dropTraces : Call V) .nothing := by
      intro root input cache hparses
      simp [Call.parses?] at hparses
    exact ⟨.nothing, p.dropTraces, rfl, hp.dropTraces template_transparent hcaching, htells⟩

include hcaching in
/-- A history of calls adds what each of them does. -/
theorem Holds.runAll (hp : Holds Rules.template s₀ held p) (calls : List (Call V)) :
    ∃ answers p', p.runAll? calls = some (answers, p') ∧
      Holds Rules.template s₀ ((calls.zip answers).foldl holdAfter held) p' ∧
      List.Forall₂ TellsMatches calls answers := by
  induction calls generalizing p held with
  | nil => exact ⟨[], p, rfl, hp, .nil⟩
  | cons c calls ih =>
    rcases hp.call hcaching c with ⟨answer, mid, hcall, hmid, htells⟩
    rcases ih hmid with ⟨answers, p', hrest, hp', hall⟩
    refine ⟨answer :: answers, p', ?_, hp', .cons htells hall⟩
    rw [runAll?, hcall, Option.bind_some]
    show (mid.runAll? calls).map _ = _
    rw [hrest]
    rfl

/-- After any calls a parser holds one outcome for each recognizer and input that a call with
caching has matched since everything was dropped.  That a call has matched is told by its
answer: it does so exactly when the grammar matches the input. -/
theorem runAll?_heldOutcomes (calls : List (Call V)) :
    ∃ answers p, create.runAll? calls = some (answers, p) ∧
      p.heldOutcomes = (sinceDropped (calls.zip answers)).toFinset.card ∧
      List.Forall₂ TellsMatches calls answers := by
  rcases exists_store (V := V) with ⟨s₀, hcaching⟩
  rcases (holds_create s₀).runAll hcaching calls with ⟨answers, p, hrun, hholds, htells⟩
  refine ⟨answers, p, hrun, ?_, htells⟩
  rw [hholds.heldOutcomes hcaching, foldl_holdAfter]

end Histories

end Parser

end SlotGrammar.Html
