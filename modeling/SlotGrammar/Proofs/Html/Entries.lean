import SlotGrammar.Proofs.Html.Entering
import SlotGrammar.Proofs.Html.Interpolation

/-!
# Where elements are entered

The recognizer of elements is recursive, and it is one of the ways to read a child.  A child is
tried where the one before it stopped, what follows the bracket of an element is required, and
nothing that has an element in it is tried twice.  So on every input, well formed or not, the
recognizer is entered at one position after the other, and each of them but the last is at a
bracket.

Main results:

- Theorem `Lookout.element_visits`: an attempt of an element enters elements in order.
- Theorem `Parser.Serves.strays`: a parse without caching ends, and enters elements in order.
- Theorem `Parser.create_visits`: it does so at most once for each bracket and once more.
-/

namespace SlotGrammar.Html

variable {V : Type}

namespace Lookout

variable {lo : Lookout V} {S : Meaning V (Piece V)} {limit : Nat} {e : Rules.Expr V}
  {R : Position → Ending V (Piece V) → List Position → Prop}

variable [SoundLexicon]

/-! ## The rules of elements -/

/-- A child that is an element is entered as the element is. -/
theorem visits_child (h : lo.Visits S limit e (Entered lo.input)) :
    lo.Visits S limit (Rules.child e) (Entered lo.input) := by
  have helement : lo.Visits S limit (e.map Rules.toChild) (Entered lo.input) :=
    h.map (by simp [Apart, Rules.toChild, tagged])
  have hothers : ∀ e' ∈ [Rules.whiteSpace.map Rules.toChild, Expr.nextSlot.map Rules.toChild,
      (Rules.token .textRun).map Rules.toChild], (e' : Rules.Expr V).Plain Apart [] := by
    simp [Rules.whiteSpace, Rules.token, Expr.map, Expr.regex, Expr.nextSlot, Shape.parts, Apart,
      Shape.Standard, Rules.toChild, tagged]
  exact helement.choice hothers

/-- A closing tag enters no element. -/
theorem plain_closingTag : (Rules.closingTag : Rules.Expr V).Plain Apart [] := by
  simp [Rules.closingTag, Rules.optionalSpace, Rules.whiteSpace, Rules.token, Expr.required,
    Expr.sequence, Expr.choice, Expr.optional, Expr.literal, Expr.regex, Expr.nextSlot,
    Shape.parts, Apart, Shape.Standard]

/-- A closing tag begins with a bracket. -/
theorem visits_closingTag : lo.Visits S limit Rules.closingTag fun pos ending visits =>
    Unseen lo.input pos ending visits ∧ Leads lo.input ['<', '/'] pos ending visits := by
  apply (visits_unseen plain_closingTag).and
  apply Visits.leads_required
  apply (leads_literal ['<', '/']).leads_sequence
  cases plain_closingTag with
  | make _ h =>
    cases h _ List.mem_cons_self with
    | make _ h => exact (List.forall_mem_cons.1 h).2

omit [SoundLexicon] in
/-- The `>` of a tag enters no element. -/
theorem plain_close : (Expr.literal ['>'] : Rules.Expr V).required.Plain Apart [] := by
  simp [Apart, Shape.Standard, Expr.required, Expr.literal, Shape.parts]

/-- The children of an element trail to its closing tag, which begins with a bracket. -/
theorem visits_body (h : lo.Visits S limit e (Entered lo.input)) :
    lo.Visits S limit (Rules.body e) (Tidy lo.input (Strays lo.input)) := by
  apply Visits.map _ (by simp [Apart, Rules.member, tagged, Tree.nth])
  apply visits_make (by exact trivial)
  intro n ctx ps pos _ hpos hps
  change List.Forall₂ _ [_, _, _] ps at hps
  rcases hps with _ | ⟨hend, _ | ⟨hchildren, _ | ⟨hclosing, _ | _⟩⟩⟩
  apply Act.Visits.onOutcome (hend _ (visits_tidy plain_close) pos hpos)
  · intro m visits hvisits
    have hstop := hvisits.onward.2 hpos
    apply Act.Visits.onOutcome (hchildren _ (visits_child h).repeated.optional m.stop hstop)
    · intro m' visits' hvisits'
      have htrailing := hvisits'.of_brackets hvisits
      apply Act.Visits.assoc
      apply Act.Visits.onOutcome (hclosing _ visits_closingTag m'.stop
        (htrailing.onward.2 hpos))
      · intro m'' visits'' hends
        have htidy := htrailing.tidy hends.1 hends.2
        dsimp only [Script.inOrder]
        apply Act.Visits.assoc
        apply Act.Visits.done_after
        exact htidy
      · exact fun visits'' hends => .assoc (.done_after (htrailing.tidy hends.1 hends.2))
      · exact fun error visits'' hends => htrailing.tidy hends.1 hends.2
    · intro visits' hvisits'
      exact .assoc (.done_after ⟨m.stop, hvisits'.of_brackets hvisits⟩)
    · exact fun error visits' hvisits' => hvisits'.of_brackets hvisits
  · rintro _ rfl
    exact .done (.nil lo.input pos)
  · exact fun _ _ hvisits => hvisits

omit [SoundLexicon] in
/-- The end of a tag without children enters no element. -/
theorem plain_selfClosing : (Rules.selfClosing : Rules.Expr V).Plain Apart [] := by
  simp [Rules.selfClosing, Apart, Shape.Standard, Expr.map, Expr.literal, Shape.parts]

/-- The rest of an element enters what its children enter. -/
theorem visits_elementRest (h : lo.Visits S limit e (Entered lo.input)) :
    lo.Visits S limit (elementRest e) (Sure lo.input) := by
  have hchoice : lo.Visits S limit (.choice [Rules.selfClosing, Rules.body e])
      (Tidy lo.input (Strays lo.input)) :=
    Visits.choice (visits_body h) (List.forall_mem_singleton.2 plain_selfClosing)
  exact hchoice.required fun _ _ hvisits => hvisits

omit [SoundLexicon] in
/-- A `<` enters no element. -/
theorem plain_openBracket : (openBracket : Rules.Expr V).Plain Apart [] := by
  simp [openBracket, Apart, Shape.Standard, Expr.butNot, Expr.literal, Shape.parts]

omit [SoundLexicon] in
/-- The bracket of an element begins with one. -/
theorem visits_openBracket : lo.Visits S limit openBracket fun pos ending visits =>
    Unseen lo.input pos ending visits ∧ Leads lo.input ['<'] pos ending visits := by
  apply (visits_unseen plain_openBracket).and
  apply (leads_literal ['<']).leads_butNot
  simp [Apart, Shape.Standard, Expr.literal, Shape.parts]

/-- The name of a tag enters no element and is no failure behind its `<`. -/
theorem visits_tag : lo.Visits S limit Rules.tag (Sure lo.input) := by
  apply Visits.required (visits_tidy _)
  · rintro pos _ rfl
    exact .nil lo.input pos
  · simp [Apart, Shape.Standard, Expr.map, Expr.choice, Rules.token, Expr.regex, Expr.nextSlot,
      Shape.parts, Rules.toTag, tagged]

/-- The attributes of a tag enter no element. -/
theorem plain_attributes :
    ((Expr.sequence [Rules.whiteSpace, Rules.attributes]).map (Rules.member 1) :
      Rules.Expr V).Plain Apart [] := by
  simp [Rules.attributes, Rules.booleanAttr, Rules.staticAttr, Rules.slotAttr, Rules.spreadAttr,
    Rules.quote, Rules.whiteSpace, Rules.token, Expr.map, Expr.sequence, Expr.choice,
    Expr.required, Expr.separated, Expr.literal, Expr.regex, Expr.nextSlot, Shape.parts, Apart,
    Shape.Standard, Rules.toSpread, Rules.toSlotAttr, Rules.toStaticAttr, Rules.toBooleanAttr,
    Rules.member, tagged, Tree.nth]

/-- White space enters no element. -/
theorem plain_whiteSpace : (Rules.whiteSpace : Rules.Expr V).Plain Apart [] := by
  simp [Rules.whiteSpace, Apart, Shape.Standard, Rules.token, Expr.regex, Shape.parts]

/-- What the definition of elements transforms enters elements in order behind its own bracket. -/
theorem visits_elementParts (h : lo.Visits S limit e (Entered lo.input)) :
    lo.Visits S limit (.sequence [openBracket, Rules.tag,
        .optional ((Expr.sequence [Rules.whiteSpace, Rules.attributes]).map (Rules.member 1)),
        Rules.optionalSpace, elementRest e])
      fun pos ending visits => Entered lo.input pos ending (pos :: visits) := by
  apply visits_make (by exact trivial)
  intro n ctx ps pos _ hpos hps
  rcases List.forall₂_cons_left_iff.1 hps with ⟨p, ps, hp, hrest, rfl⟩
  apply Act.Visits.onOutcome (hp _ visits_openBracket pos hpos)
  · rintro m _ ⟨⟨rfl, -⟩, hleads⟩
    rcases hleads m rfl with ⟨s, hs, honward⟩
    have hsure : ∀ e' ∈ [Rules.tag,
        .optional ((Expr.sequence [Rules.whiteSpace, Rules.attributes]).map (Rules.member 1)),
        Rules.optionalSpace, elementRest e], lo.Visits S limit e' (Sure lo.input) := by
      simp only [List.forall_mem_cons]
      exact ⟨visits_tag, visits_optional plain_attributes, visits_optional plain_whiteSpace,
        visits_elementRest h, nofun⟩
    have hbracket : Brackets lo.input pos [pos] m.stop :=
      .cons (.refl lo.input pos) hs (.nil honward)
    apply visits_inOrder (hbracket.onward.2 hpos) hsure hrest
    · intro trees stop visits hvisits
      apply Act.Visits.done
      rw [List.append_nil]
      exact hbracket.append hvisits
    · exact fun _ _ _ _ => False.elim
    · exact fun _ _ hvisits => hvisits.of_brackets hbracket
  · rintro _ ⟨⟨rfl, -⟩, -⟩
    exact .done rfl
  · rintro _ _ ⟨⟨rfl, -⟩, -⟩
    exact .single lo.input pos

/-- An attempt of an element enters elements in order, first at its own position. -/
theorem element_visits (hmakes : (Rules.elementOver (.ref "element")).Makes lo.targets
      (S.within lo.targets "element" lo.element) lo.element) (limit : Nat) :
    lo.element.Visits lo.grammar.definitions lo.handle lo.input limit (Entered lo.input) := by
  induction limit with
  | zero => exact .zero _ _ _ _ _
  | succ limit ih =>
    -- the links inside lead back to the definition, with a smaller limit
    have hself : lo.Visits (S.within lo.targets "element" lo.element) limit (.ref "element")
        (Entered lo.input) := by
      intro r hr hformed
      cases hr with
      | ref hname =>
        rw [Meaning.within, if_pos rfl] at hname
        rcases hname with ⟨handle, l, rfl, hl⟩
        cases limit with
        | zero => exact .zero _ _ _ _ _
        | succ limit =>
          exact .link (handle_ne (hformed _ .refl) nofun) hl (ih.of_le (Nat.le_succ limit))
    rcases hmakes.one rfl with ⟨handle, p, hp, heq⟩
    cases heq
    have hbody : lo.body.Formed lo.bodies lo.grammar := fun x hx =>
      lo.formed x (Recognizer.over_node_iff.2 (.inr ⟨_, List.mem_singleton_self _, hx⟩))
    apply Recognizer.Visits.self
    intro ctx hctx hinput pos hpos
    apply Act.Visits.onOutcome (visits_elementParts hself _ hp hbody ctx hctx hinput pos hpos)
    · intro m visits hvisits
      apply Act.Visits.done
      rw [List.append_nil]
      exact hvisits
    · exact fun visits hvisits => .done_after hvisits
    · exact fun _ _ hvisits => hvisits

/-! ## Templates -/

omit [SoundLexicon] in
/-- A store around a shape has no say in what is entered. -/
theorem Visits.cached {shape : Shape V (Piece V) (Rules.Expr V)}
    (h : lo.Visits S limit (.make shape) R) (on : Bool) :
    lo.Visits S limit (.cached on (.make shape)) R := by
  intro r hr hformed
  cases hr with
  | cached hp =>
    cases hp with
    | make hlength hparts => exact h _ (.make hlength hparts) hformed

/-- Where the grammar defines nothing else, the expression of elements makes links to their
definition. -/
theorem visits_element (hdefs : lo.grammar.definitions = #[some lo.element]) :
    lo.Visits S limit Rules.element (Entered lo.input) := by
  intro r hr hformed
  cases limit with
  | zero => exact .zero _ _ _ _ _
  | succ limit =>
    cases hr with
    | @recursive _ _ _ handle l p hl hmakes =>
      have hp : some p ∈ lo.grammar.definitions := Definitions.mem_of_targets hl
      rw [hdefs, Array.mem_singleton] at hp
      cases hp
      exact .link (handle_ne (hformed _ .refl) nofun) hl (element_visits hmakes limit)

/-- A template enters elements in order. -/
theorem visits_template (hdefs : lo.grammar.definitions = #[some lo.element]) :
    lo.Visits S limit Rules.template (Tidy lo.input (Strays lo.input)) := by
  apply Visits.cached
  apply Visits.map _ (by simp [Apart, Rules.member, tagged, Tree.nth])
  apply visits_make (by exact trivial)
  intro n ctx ps pos _ hpos hps
  have hspace : lo.Visits S limit Rules.optionalSpace (Tidy lo.input (Strays lo.input)) :=
    (visits_optional plain_whiteSpace).mono fun _ _ _ h => h.mono False.elim
  have helement : lo.Visits S limit Rules.element (Tidy lo.input (Strays lo.input)) := by
    apply (visits_element hdefs).mono
    intro pos ending visits h
    apply h.mono
    rintro rfl
    exact .single lo.input pos
  have hend : lo.Visits S limit .inputEnd (Tidy lo.input (Strays lo.input)) :=
    visits_strays (by simp [Expr.inputEnd, Apart, Shape.Standard, Shape.parts])
  apply visits_inOrder hpos (List.forall_mem_cons.2 ⟨hspace, List.forall_mem_cons.2 ⟨helement,
    List.forall_mem_cons.2 ⟨hspace, List.forall_mem_singleton.2 hend⟩⟩⟩) hps
  · exact fun _ _ _ hvisits => .done_after hvisits
  · exact fun _ _ _ hbefore hvisits => .done_after (hvisits.of_brackets hbefore)
  · exact fun _ _ hvisits => hvisits

end Lookout

namespace Parser

/-- The definition of elements refers to nothing but itself. -/
theorem plain_elementOver [SoundLexicon] : (Rules.elementOver (.ref "element") : Rules.Expr V).Plain
    (fun _ => True) ["element"] := by
  simp [Rules.elementOver, Rules.selfClosing, Rules.body, Rules.closingTag, Rules.child, Rules.tag,
    Rules.attributes, Rules.booleanAttr, Rules.staticAttr, Rules.slotAttr, Rules.spreadAttr,
    Rules.quote, Rules.optionalSpace, Rules.whiteSpace, Expr.map, Expr.sequence, Expr.choice,
    Expr.optional, Expr.required, Expr.repeated, Expr.separated, Expr.butNot, Expr.literal,
    Rules.token, Expr.regex, Expr.nextSlot, Shape.parts]

/-- The grammar of templates defines elements alone. -/
theorem exists_definitions_template [SoundLexicon] :
    ∃ element, (Grammar.build [] (Rules.template : Rules.Expr V) {}).2.definitions =
      #[some element] := by
  have hspace : (Rules.optionalSpace : Rules.Expr V).Plain (fun _ => True) [] := by
    simp [Rules.optionalSpace, Rules.whiteSpace, Rules.token, Expr.optional, Expr.regex,
      Shape.parts]
  have hend : (Expr.inputEnd : Rules.Expr V).Plain (fun _ => True) [] := by
    simp [Expr.inputEnd, Shape.parts]
  rw [Rules.template, Grammar.definitions_build_cached, Grammar.definitions_build_map,
    Grammar.definitions_build_sequence, Grammar.definitions_buildParts_cons,
    Grammar.definitions_buildParts_cons, Grammar.definitions_buildParts_cons,
    Grammar.definitions_buildParts_cons]
  have hnil : ∀ g : Grammar V (Piece V),
      (Grammar.buildParts [] [] g).2.definitions = g.definitions :=
    fun _ => rfl
  rw [hnil, hend.definitions_build, hspace.definitions_build, Rules.element,
    plain_elementOver.definitions_recursive, hspace.definitions_build]
  exact ⟨_, rfl⟩

/-- The definition of elements, where an expression of templates makes a link to it. -/
theorem exists_element_of_makes [SoundLexicon] {ρ : Targets V (Piece V)} {S : Meaning V (Piece V)}
    {r : Recognizer V (Piece V)} (h : Rules.template.Makes ρ S r) :
    ∃ l p, ρ l = some p ∧
      (Rules.elementOver (.ref "element")).Makes ρ (S.within ρ "element" p) p := by
  cases h with
  | cached h =>
    rcases h.one rfl with ⟨_, q, hq, rfl⟩
    rcases hq.parts with ⟨_, ps, hps, rfl⟩
    rcases List.forall₂_cons_left_iff.1 hps with ⟨_, _, _, hrest, rfl⟩
    rcases List.forall₂_cons_left_iff.1 hrest with ⟨_, _, helement, _, rfl⟩
    cases helement with
    | recursive hl hp => exact ⟨_, _, hl, hp⟩

section Serves

variable {e : Rules.Expr V} {p : Parser V}

/-- After any uses the definitions are those of the expression. -/
theorem Serves.defines (hp : p.Serves e) :
    p.grammar.Defines (Grammar.build [] e {}).2.definitions :=
  hp.kept.defines

/-- The recognizer of templates holds all of them. -/
theorem Serves.holdsAll (hp : p.Serves e) (h : e.Closed []) {ctx : Context V (Piece V)}
    (hctx : p.template ∈ ctx.held) : ctx.HoldsAll (Grammar.build [] e {}).2.definitions := by
  rcases Grammar.built_of_closed h with ⟨-, hdeferrals, hcovers, -⟩
  intro cell hlo hcell
  rcases hcovers cell hlo hcell with ⟨r, hr, l, hl, hreach⟩
  cases List.mem_singleton.1 hr
  rw [hp.template_eq] at hctx
  have hsame : ({ definitions := (Grammar.build [] e {}).2.definitions } :
      Grammar V (Piece V)).deferrals = (Grammar.build [] e {}).2.deferrals :=
    hdeferrals.symm
  exact ⟨_, hctx, l, hl, hreach.mono hsame fun _ _ h => h⟩

/-- After any uses the recognizer is the one that was built. -/
theorem Serves.template_built (hp : p.Serves e) : p.template = (Grammar.build [] e {}).1 :=
  hp.template_eq

end Serves

/-- After any uses of a parser of elements, its recognizer of templates enters elements in
order. -/
theorem Serves.exists_lookout [SoundLexicon] {p : Parser V} (hp : p.Serves Rules.template)
    (input : Fragments) :
    ∃ lo : Lookout V, p.grammar.Defines lo.grammar.definitions ∧
      lo.grammar.definitions = #[some lo.element] ∧
      (∀ ctx : Context V (Piece V), p.template ∈ ctx.held →
        ctx.HoldsAll lo.grammar.definitions) ∧
      ∀ limit, p.template.Visits lo.grammar.definitions lo.handle input limit
        (Tidy input (Strays input)) := by
  have hdefines := hp.defines
  have hholds : ∀ ctx : Context V (Piece V), p.template ∈ ctx.held →
      ctx.HoldsAll (Grammar.build [] Rules.template {}).2.definitions :=
    fun ctx => hp.holdsAll template_transparent.closed
  have hroot := hp.template_built
  rcases exists_definitions_template (V := V) with ⟨element, hdefs⟩
  rcases (Grammar.Built.empty (V := V) (α := Piece V)).formed with ⟨_, hempty⟩
  rcases Grammar.build_formed hempty (Rules.template (V := V)) with ⟨bodies, hformed, hbuilt⟩
  have hmakes := (Grammar.built_of_closed (template_transparent (V := V)).closed).2.2.2
  -- from here on the grammar is any that has these properties
  generalize Grammar.build [] (Rules.template : Rules.Expr V) {} = built at *
  rcases built with ⟨root, g⟩
  have hanswers : g.Answers 0 (Definitions.targets g.definitions) := by
    intro cell r _ hr
    have hjoin : (g.definitions[cell]?).join = some r := by
      rw [hr]
      rfl
    exact ⟨hjoin, hjoin⟩
  have htemplate := hmakes _ hanswers fun _ _ => False
  rcases exists_element_of_makes htemplate with ⟨l, r, hl, helement⟩
  have hr : some r ∈ g.definitions := Definitions.mem_of_targets hl
  rw [hdefs, Array.mem_singleton] at hr
  cases hr
  rcases helement.one rfl with ⟨handle, body, -, rfl⟩
  have hcell : g.definitions[0]? = some (some (.node handle (.mapped Rules.toElement body))) := by
    rw [hdefs]
    rfl
  let lo : Lookout V := ⟨input, g, bodies, handle, body, hformed.definitions 0 _ hcell⟩
  refine ⟨lo, hdefines, hdefs, hholds, ?_⟩
  intro limit
  have hvisits : lo.Visits (fun _ _ => False) limit Rules.template (Tidy input (Strays input)) :=
    Lookout.visits_template hdefs
  rw [hroot]
  exact hvisits root htemplate hbuilt

/-- After any uses of it, a parser of elements that parses without caching comes to an end,
and enters elements in order. -/
theorem Serves.strays [SoundLexicon] {p : Parser V} (hp : p.Serves Rules.template)
    (input : Fragments) (values : List V) (window : ErrorWindow) :
    ∃ element report, p.grammar.definitions = #[some element] ∧
      (∀ limit ≥ Parser.limit input, p.grammar.parse? limit p.template input values
        { cache := false, errorWindow := window } = some report) ∧
      Strays input .start (Event.visits element.handle report.events) := by
  let q : Query V (Piece V) :=
    ⟨p.template, input, values, { cache := false, errorWindow := window }⟩
  rcases hp.exists_lookout input with ⟨lo, hdefines, hdefs, hholds, hvisits⟩
  rcases exists_settles input values window with ⟨ending, -, hsettles⟩
  rcases hp.template? template_transparent q.options hsettles with ⟨_, hfound, -⟩
  rcases Option.map_eq_some_iff.1 hfound with ⟨report, hreport, -⟩
  refine ⟨lo.element, report, hdefines.1.trans hdefs,
    fun limit hlimit => q.parse?_mono hlimit hreport, ?_⟩
  rcases q.exec_of_parse? hreport with ⟨mid, hmid, -, hevents⟩
  have hstart : (q.opened p.grammar).Visited lo.grammar.definitions lo.handle [] :=
    ⟨rfl, hdefines, rfl⟩
  rcases hvisits _ q.context (hholds _ List.mem_cons_self) rfl .start input.valid_start _ _ hstart
    _ _ hmid with ⟨visits, hmid, htidy⟩
  rw [hevents]
  show Strays input .start (Event.visits lo.handle mid.log.reverse)
  rw [hmid.visits_eq]
  exact htidy.strays

variable [AttrSource V] in
/-- However a parser of elements has been used, a parse without caching comes to an end on every
input.  It enters elements at one position after the other, at most once for each bracket of the
input and once more, and so elements never nest deeper. -/
theorem create_visits [SoundLexicon] (calls : List (Call V)) :
    ∃ answers p, create.runAll? calls = some (answers, p) ∧
      ∀ (input : Fragments) (values : List V) (window : ErrorWindow),
        ∃ element report, p.grammar.definitions = #[some element] ∧
          (∀ limit ≥ Parser.limit input, p.grammar.parse? limit p.template input values
            { cache := false, errorWindow := window } = some report) ∧
          (Event.visits element.handle report.events).Pairwise (· < ·) ∧
          (Event.visits element.handle report.events).length ≤
            input.symbols.count (.char '<') + 1 ∧
          ∀ earlier later, report.events = earlier ++ later →
            Event.underWay element.handle earlier ≤ input.symbols.count (.char '<') + 1 := by
  rcases exists_reached calls with ⟨answers, p, hrun, hp⟩
  refine ⟨answers, p, hrun, ?_⟩
  intro input values window
  rcases hp.strays input values window with ⟨element, report, hdefs, hreport, hstrays⟩
  refine ⟨element, report, hdefs, hreport, hstrays.pairwise, hstrays.length_le, ?_⟩
  intro earlier later hevents
  apply Nat.le_trans (Event.underWay_le element.handle earlier later)
  rw [← hevents]
  exact hstrays.length_le

/-- The bound is reached where an element is not closed: behind the one inside it, at the end of
the input, another one is tried. -/
example :
    let p : Parser Nat := create
    let input : Fragments := ⟨[['<', 'a', '>', '<', 'b', '/', '>']]⟩
    input.symbols.count (.char '<') = 2 ∧
      (p.grammar.parse? (Parser.limit input) p.template input [] { cache := false }).bind
        (fun report => (p.grammar.definitions.back?.join).map fun element =>
          Event.visits element.handle report.events) = some [⟨0, 0⟩, ⟨0, 3⟩, ⟨0, 7⟩] := by
  decide +kernel

end Parser

end SlotGrammar.Html
