import SlotGrammar.Proofs.Html.Brackets
import SlotGrammar.Proofs.Visits

/-!
# Rules that enter elements

What an attempt of a shape enters follows from what its parts do: alternatives of which the last
one alone enters elements, parts in order, and a repetition that ends where its part stays or
misses.

Main results:

- Definition `Lookout.Visits`: what all attempts of what an expression makes enter.
- Theorem `Lookout.visits_unseen`: rules without elements enter none.
- Theorems `Lookout.Visits.choice`, `Lookout.visits_inOrder` and `Lookout.Visits.repeated`: the
  rules for alternatives, for parts in order and for repetitions.
-/

namespace SlotGrammar.Html

variable {V : Type}

/-! ## The definition of elements -/

/-- A tree on which the transform of elements does what no other transform does. -/
def tagged : Rules.Tree V := .list [.unit, .made (.tag (.slot 0))]

/-- Whether a shape of the library is not that of elements. -/
def Apart {ρ : Type} : Shape V (Piece V) ρ → Prop
  | .mapped transform _ => transform tagged [] ≠ .made (.template ⟨.slot 0, [], []⟩)
  | shape => shape.Standard

namespace Apart

variable {ρ : Type} {shape : Shape V (Piece V) ρ}

/-- A shape apart from elements is one of the standard shapes. -/
theorem standard (h : Apart shape) : shape.Standard := by
  cases shape with
  | mapped => trivial
  | _ => exact h

/-- A shape apart from elements makes none. -/
theorem ne_mapped (h : Apart shape) (p : ρ) : shape ≠ .mapped Rules.toElement p := by
  rintro rfl
  exact h rfl

end Apart

/-- Over other parts a shape has the same transform. -/
theorem withParts_ne_mapped {ρ σ : Type} {shape : Shape V (Piece V) ρ} {ps : List σ}
    {transform : Rules.Tree V → List V → Rules.Tree V} (h : ∀ p, shape ≠ .mapped transform p) :
    ∀ p, shape.withParts ps ≠ .mapped transform p := by
  intro p
  fun_cases Shape.withParts shape ps
  case case2 =>
    rintro ⟨⟩
    exact h _ rfl
  all_goals exact nofun

/-- A grammar in which elements are defined, and an input for it. -/
structure Lookout (V : Type) where
  input : Fragments
  grammar : Grammar V (Piece V)
  bodies : Bodies V (Piece V)
  /-- The handle of the definition of elements. -/
  handle : Handle
  /-- What the definition transforms. -/
  body : Recognizer V (Piece V)
  formed : (Recognizer.node handle (.mapped Rules.toElement body)).Formed bodies grammar

namespace Lookout

variable (lo : Lookout V)

/-- The definition of elements. -/
def element : Recognizer V (Piece V) := .node lo.handle (.mapped Rules.toElement lo.body)

/-- What the links of the grammar lead to. -/
def targets : Targets V (Piece V) := Definitions.targets lo.grammar.definitions

/-- Whether an action enters elements as given. -/
abbrev Enters (act : Act V (Piece V) (Outcome V (Piece V)))
    (R : Ending V (Piece V) → List Position → Prop) : Prop :=
  act.Visits lo.grammar.definitions lo.handle R

/-- Whether all attempts of the recognizers that an expression makes enter elements as given. -/
def Visits (S : Meaning V (Piece V)) (limit : Nat) (e : Rules.Expr V)
    (R : Position → Ending V (Piece V) → List Position → Prop) : Prop :=
  ∀ r, e.Makes lo.targets S r → r.Formed lo.bodies lo.grammar →
    r.Visits lo.grammar.definitions lo.handle lo.input limit R

/-- Whether attempts of a recognizer enter elements as those of an expression do. -/
def Follows (S : Meaning V (Piece V)) (limit n : Nat) (ctx : Context V (Piece V))
    (e : Rules.Expr V) (p : Recognizer V (Piece V)) : Prop :=
  ∀ R, lo.Visits S limit e R → ∀ pos, lo.input.Valid pos → lo.Enters (exec n ctx p pos) (R pos)

variable {lo} {S : Meaning V (Piece V)} {limit n : Nat} {ctx : Context V (Piece V)}
  {e e' : Rules.Expr V} {es : List (Rules.Expr V)} {p : Recognizer V (Piece V)}
  {ps : List (Recognizer V (Piece V))} {pos : Position} {w : Text}
  {R R' : Position → Ending V (Piece V) → List Position → Prop}
  {missed : Position → List Position → Prop}

/-- Only the definition of elements has its handle. -/
theorem handle_ne {r : Recognizer V (Piece V)} (hr : r.Agrees lo.bodies lo.grammar)
    (hother : ∀ handle p, r ≠ .node handle (.mapped Rules.toElement p)) : r.handle ≠ lo.handle := by
  intro hhandle
  have hid : lo.element.handle.id = r.handle.id := congrArg Handle.id hhandle.symm
  exact hother _ _ ((lo.formed _ .refl).eq_withHandle hr hid)

/-- A node of a shape apart from elements is not the node of elements. -/
theorem handle_ne_of_shape {shape : Shape V (Piece V) (Rules.Expr V)} {handle : Handle}
    (hshape : Apart shape)
    (hr : (Recognizer.node handle (shape.withParts ps)).Agrees lo.bodies lo.grammar) :
    handle ≠ lo.handle := by
  apply handle_ne hr
  intro handle' p heq
  injection heq with _ heq
  exact withParts_ne_mapped hshape.ne_mapped p heq

/-- What holds of every run holds of it in weaker form. -/
theorem Visits.mono (h : lo.Visits S limit e R)
    (hsub : ∀ pos ending visits, R pos ending visits → R' pos ending visits) :
    lo.Visits S limit e R' :=
  fun r hr hformed => (h r hr hformed).mono hsub

/-- Two properties of every run hold of it together. -/
theorem Visits.and (h : lo.Visits S limit e R) (h' : lo.Visits S limit e R') :
    lo.Visits S limit e fun pos ending visits => R pos ending visits ∧ R' pos ending visits :=
  fun r hr hformed ctx hctx hinput pos hpos =>
    (h r hr hformed ctx hctx hinput pos hpos).and (h' r hr hformed ctx hctx hinput pos hpos)

/-- A shape enters elements as its script does when the attempts in it do as its parts. -/
theorem visits_make {shape : Shape V (Piece V) (Rules.Expr V)}
    (hshape : Apart shape)
    (h : ∀ n ctx ps pos, ctx.input = lo.input → lo.input.Valid pos →
      List.Forall₂ (lo.Follows S limit n ctx) shape.parts ps →
      lo.Enters (((shape.withParts ps).script n ctx.view pos).play (exec n) ctx) (R pos)) :
    lo.Visits S limit (.make shape) R := by
  intro r hr hformed
  cases limit with
  | zero => exact .zero _ _ _ _ _
  | succ limit =>
    rcases hr.parts with ⟨handle, ps, hps, rfl⟩
    apply Recognizer.Visits.node (handle_ne_of_shape hshape (hformed _ .refl))
    intro ctx hctx hinput pos hpos
    apply h limit ctx ps pos hinput hpos
    rw [List.forall₂_iff_zip]
    refine ⟨hps.length_eq, ?_⟩
    intro e p hep R hR pos hpos
    have hp := (List.forall₂_iff_zip.1 hps).2 hep
    have hpart : p ∈ (shape.withParts ps).parts := by
      rw [shape.parts_withParts hps.length_eq.symm]
      exact (List.of_mem_zip hep).2
    have hbelow : p.Formed lo.bodies lo.grammar := fun x hx =>
      hformed x (Recognizer.over_node_iff.2 (.inr ⟨p, hpart, hx⟩))
    exact (hR p hp hbelow).of_le (Nat.le_succ limit) ctx hctx hinput pos hpos

/-- The same for a shape over one part. -/
theorem visits_make_one {shape : Shape V (Piece V) (Rules.Expr V)}
    (hshape : Apart shape) (hparts : shape.parts = [e])
    (h : ∀ n ctx p pos, ctx.input = lo.input → lo.input.Valid pos →
      lo.Follows S limit n ctx e p →
      lo.Enters (((shape.withParts [p]).script n ctx.view pos).play (exec n) ctx) (R pos)) :
    lo.Visits S limit (.make shape) R := by
  apply visits_make hshape
  intro n ctx ps pos hinput hpos hps
  rw [hparts] at hps
  rcases List.forall₂_cons_left_iff.1 hps with ⟨p, _, hp, hnil, rfl⟩
  cases hnil
  exact h n ctx p pos hinput hpos hp

/-! ## Plain rules -/

/-- Rules without elements enter none. -/
theorem visits_unseen (h : e.Plain Apart []) : lo.Visits S limit e (Unseen lo.input) := by
  intro r hr hformed ctx hctx hinput pos hpos
  have hstays : ∀ {pos stop : Position}, lo.input.Proceeds pos stop →
      lo.input.Valid pos → lo.input.Valid stop :=
    fun hproceeds hvalid => (hproceeds.1 hvalid.hasRoom).2.2 hvalid
  apply Act.Visits.mono
    (Recognizer.visits_unseen (Account.onward lo.input) hstays limit ?_ ctx hctx hinput pos hpos)
    fun ending visits h => ⟨h.1, h.2.onward hpos.hasRoom⟩
  intro x hx
  rcases h.over hr hx with ⟨handle, shape, ps, hshape, hps, rfl⟩
  refine ⟨handle, shape.withParts ps, rfl, handle_ne_of_shape hshape (hformed _ hx), ?_⟩
  rw [shape.outline_withParts hps]
  exact Shape.standard_outline.2 hshape.standard

/-- A plain expression enters no element and ends tidily. -/
theorem visits_tidy (h : e.Plain Apart []) :
    lo.Visits S limit e (Tidy lo.input fun _ visits => visits = []) :=
  (visits_unseen h).mono fun _ _ _ => Unseen.tidy

/-- A plain expression enters no element, so none that is lost. -/
theorem visits_strays (h : e.Plain Apart []) :
    lo.Visits S limit e (Tidy lo.input (Strays lo.input)) := by
  apply (visits_tidy h).mono
  intro pos ending visits hvisits
  apply hvisits.mono
  rintro rfl
  exact .nil lo.input pos

/-! ## Rules -/

/-- A transform enters what its part does. -/
theorem Visits.map (h : lo.Visits S limit e (Tidy lo.input missed))
    {transform : Rules.Tree V → List V → Rules.Tree V}
    (hshape : Apart (.mapped transform e : Shape V (Piece V) (Rules.Expr V))) :
    lo.Visits S limit (e.map transform) (Tidy lo.input missed) := by
  apply visits_make_one (e := e) hshape rfl
  intro n ctx p pos _ hpos hp
  apply Act.Visits.onOutcome (hp _ h pos hpos)
  · exact fun m visits hvisits => .done_after hvisits
  · exact fun visits hvisits => .done_after hvisits
  · exact fun _ _ hvisits => hvisits

/-- What is required does not miss. -/
theorem Visits.required (h : lo.Visits S limit e (Tidy lo.input missed))
    (hmissed : ∀ pos visits, missed pos visits → Strays lo.input pos visits) :
    lo.Visits S limit e.required (Sure lo.input) := by
  apply visits_make_one (e := e) (by exact trivial) rfl
  intro n ctx p pos _ hpos hp
  apply Act.Visits.onOutcome (hp _ h pos hpos)
  · exact fun m visits hvisits => .done_after hvisits
  · intro visits hvisits
    apply Act.Visits.note rfl
    exact .ended_after (hmissed pos visits hvisits)
  · exact fun _ _ hvisits => hvisits

/-- What is optional does not miss, and without its part stays where it is. -/
theorem visits_optional (h : e.Plain Apart []) : lo.Visits S limit e.optional (Sure lo.input) := by
  apply visits_make_one (e := e) (by exact trivial) rfl
  intro n ctx p pos _ hpos hp
  apply Act.Visits.onOutcome (hp _ (visits_tidy h) pos hpos)
  · exact fun m visits hvisits => .done_after hvisits
  · rintro visits rfl
    apply Act.Visits.done
    exact .nil (.refl lo.input pos)
  · exact fun _ _ hvisits => hvisits

/-- An optional part enters what the part enters. -/
theorem Visits.optional (h : lo.Visits S limit e (Trails lo.input)) :
    lo.Visits S limit e.optional (Trails lo.input) := by
  apply visits_make_one (e := e) (by exact trivial) rfl
  intro n ctx p pos _ hpos hp
  apply Act.Visits.onOutcome (hp _ h pos hpos)
  · exact fun m visits hvisits => .done_after hvisits
  · exact fun visits hvisits => .done_after hvisits
  · exact fun _ _ hvisits => hvisits

/-- When all choices but the last are plain, what is entered is what the last one enters. -/
theorem visits_firstOf (hpos : lo.input.Valid pos) (h : lo.Visits S limit e (Tidy lo.input missed))
    (hes : ∀ e ∈ es, e.Plain Apart [])
    (hps : List.Forall₂ (lo.Follows S limit n ctx) (es ++ [e]) ps) :
    lo.Enters ((Script.firstOf ps pos).play (exec n) ctx) (Tidy lo.input missed pos) := by
  induction es generalizing ps with
  | nil =>
    rcases List.forall₂_cons_left_iff.1 hps with ⟨p, _, hp, hnil, rfl⟩
    cases hnil
    apply Act.Visits.onOutcome (hp _ h pos hpos)
    · exact fun m visits hvisits => .done_after hvisits
    · exact fun visits hvisits => .done_after hvisits
    · exact fun _ _ hvisits => hvisits
  | cons e' es ih =>
    rcases List.forall₂_cons_left_iff.1 hps with ⟨p, ps, hp, hrest, rfl⟩
    rw [List.forall_mem_cons] at hes
    apply Act.Visits.onOutcome (hp _ (visits_tidy hes.1) pos hpos)
    · exact fun m visits hvisits => .done_after hvisits
    · rintro visits rfl
      exact ih hes.2 hrest
    · exact fun _ _ hvisits => hvisits

/-- Of some alternatives the last one alone enters elements. -/
theorem Visits.choice (h : lo.Visits S limit e (Tidy lo.input missed))
    (hes : ∀ e ∈ es, e.Plain Apart []) :
    lo.Visits S limit (.choice (es ++ [e])) (Tidy lo.input missed) := by
  apply visits_make (by exact trivial)
  intro n ctx ps pos _ hpos hps
  exact visits_firstOf hpos h hes hps

/-- Parts in order enter elements in order, up to one that misses. -/
theorem visits_inOrder {R : Ending V (Piece V) → List Position → Prop}
    {next : Option (List (Rules.Tree V) × Position) → Script V (Piece V)}
    (hpos : lo.input.Valid pos)
    (hes : ∀ e ∈ es, lo.Visits S limit e (Tidy lo.input missed))
    (hps : List.Forall₂ (lo.Follows S limit n ctx) es ps)
    (hall : ∀ trees stop visits, Brackets lo.input pos visits stop →
      lo.Enters ((next (some (trees, stop))).play (exec n) ctx) fun last more =>
        R last (visits ++ more))
    (hmissed : ∀ mid before visits, Brackets lo.input pos before mid → missed mid visits →
      lo.Enters ((next none).play (exec n) ctx) fun last more => R last (before ++ visits ++ more))
    (hraised : ∀ error visits, Strays lo.input pos visits → R (.error error) visits) :
    lo.Enters ((Script.inOrder ps pos next).play (exec n) ctx) R := by
  induction hps generalizing pos R next with
  | nil => exact hall [] pos [] (.nil (.refl lo.input pos))
  | @cons e p es ps hp _ ih =>
    rw [List.forall_mem_cons] at hes
    apply Act.Visits.onOutcome (hp _ hes.1 pos hpos)
    · intro m first hfirst
      apply ih (hfirst.onward.2 hpos) hes.2
      · intro trees stop visits hvisits
        exact .assoc (hall (m.tree :: trees) stop _ (hfirst.append hvisits))
      · intro mid before visits hbefore hvisits
        have h := hmissed mid (first ++ before) visits (hfirst.append hbefore) hvisits
        rw [List.append_assoc first before visits] at h
        exact .assoc h
      · intro error visits hvisits
        exact hraised error _ (hvisits.of_brackets hfirst)
    · intro visits hvisits
      exact hmissed pos [] visits (.nil (.refl lo.input pos)) hvisits
    · exact hraised

/-- Steps that move the cursor enter elements in order, up to the step that ends them. -/
theorem visits_chain {R : Ending V (Piece V) → List Position → Prop}
    {next : List (Rules.Tree V) → Position → Script V (Piece V)}
    (hpos : lo.input.Valid pos)
    (hp : ∀ pos, lo.input.Valid pos → lo.Enters (exec n ctx p pos) (Entered lo.input pos))
    (hnext : ∀ trees stop visits, Trailing lo.input pos visits stop →
      lo.Enters ((next trees stop).play (exec n) ctx) fun last more => R last (visits ++ more))
    (hraised : ∀ error visits, Strays lo.input pos visits → R (.error error) visits) (steps : Nat) :
    lo.Enters ((Script.chain (.onOutcome p) steps pos next).play (exec n) ctx) R := by
  induction steps generalizing pos R next with
  | zero => exact .exhausted
  | succ steps ih =>
    apply Act.Visits.onOutcome (hp pos hpos)
    · intro m visits hvisits
      dsimp only
      by_cases hmoves : pos < m.stop
      · rw [if_pos hmoves]
        apply ih (hvisits.onward.2 hpos)
        · intro trees stop visits' hvisits'
          exact .assoc (hnext (m.tree :: trees) stop _ (hvisits'.of_brackets hvisits))
        · intro error visits' hvisits'
          exact hraised error _ (hvisits'.of_brackets hvisits)
      · -- what a step enters lies before its stop, so one that stays enters nothing
        rw [if_neg hmoves, hvisits.eq_nil hmoves]
        exact hnext [] pos [] (.none (.nil (.refl lo.input pos)))
    · rintro visits rfl
      exact hnext [] pos [pos] (.one (.nil (.refl lo.input pos)))
    · exact hraised

/-- A repetition of what enters elements trails. -/
theorem Visits.repeated (h : lo.Visits S limit e (Entered lo.input)) :
    lo.Visits S limit e.repeated (Trails lo.input) := by
  apply visits_make_one (e := e) (by exact trivial) rfl
  intro n ctx p pos _ hpos hp
  apply Act.Visits.onOutcome (hp _ h pos hpos)
  · intro m visits hvisits
    dsimp only
    by_cases hmoves : pos < m.stop
    · rw [if_pos hmoves]
      apply visits_chain (hvisits.onward.2 hpos) (hp _ h)
      · intro trees stop visits' hvisits'
        exact .assoc (.done_after (hvisits'.of_brackets hvisits))
      · exact fun error visits' hvisits' => hvisits'.of_brackets hvisits
    · rw [if_neg hmoves, hvisits.eq_nil hmoves]
      exact .done_after (.none (.nil (.refl lo.input pos)))
  · rintro visits rfl
    exact .done_after (.one (.nil (.refl lo.input pos)))
  · exact fun _ _ hvisits => hvisits

/-! ## Texts that come first -/

/-- A literal leads with itself. -/
theorem leads_literal (w : Text) : lo.Visits S limit (.literal w) (Leads lo.input w) := by
  apply visits_make (by exact trivial)
  intro n ctx ps pos hinput _ hps
  cases hps
  apply Act.Visits.done
  intro m hm
  injection hm with hm
  rw [Leaf.outcome_find] at hm
  rcases Option.map_eq_some_iff.1 hm with ⟨t, ht, rfl⟩
  rcases Option.bind_eq_some_iff.1 ht with ⟨ahead, hahead, ht⟩
  rcases Pattern.matched?_literal_iff.1 ht with ⟨rfl, rest, hrest⟩
  have hsome : (lo.input.ahead? pos).isSome = true := by
    rw [Fragments.isSome_ahead?, ← hinput]
    exact Option.isSome_of_eq_some hahead
  rcases Option.isSome_iff_exists.1 hsome with ⟨s, hs⟩
  have hlead := Fragments.rest?_of_ahead? hs
  rw [← hinput] at hlead
  cases hahead.symm.trans hlead
  rcases exists_eq_of_lead hrest with ⟨s, rfl⟩
  exact ⟨s, hs, .refl _ _⟩

/-- A sequence leads with what its first part leads with. -/
theorem Visits.leads_sequence (h : lo.Visits S limit e (Leads lo.input w))
    (hes : ∀ e ∈ es, e.Plain Apart []) :
    lo.Visits S limit (.sequence (e :: es)) (Leads lo.input w) := by
  apply visits_make (by exact trivial)
  intro n ctx ps pos _ hpos hps
  rcases List.forall₂_cons_left_iff.1 hps with ⟨p, ps, hp, hrest, rfl⟩
  apply Act.Visits.onOutcome (hp _ h pos hpos)
  · intro m visits hleads
    rcases hleads m rfl with ⟨s, hs, honward⟩
    have hstop : lo.input.Valid m.stop := honward.2 ((onward_chars hs).1.2 hpos)
    apply visits_inOrder hstop (fun e he => visits_tidy (hes e he)) hrest
    · intro trees stop visits' hvisits'
      apply Act.Visits.done
      rintro m' ⟨⟩
      exact ⟨s, hs, honward.trans hvisits'.onward⟩
    · exact fun _ _ _ _ _ => .done nofun
    · exact fun _ _ _ => nofun
  · exact fun _ _ => .done nofun
  · exact fun _ _ _ => nofun

/-- What is required leads with what it is. -/
theorem Visits.leads_required (h : lo.Visits S limit e (Leads lo.input w)) :
    lo.Visits S limit e.required (Leads lo.input w) := by
  apply visits_make_one (e := e) (by exact trivial) rfl
  intro n ctx p pos _ hpos hp
  apply Act.Visits.onOutcome (hp _ h pos hpos)
  · intro m visits hleads
    exact .done_after hleads
  · exact fun _ _ => .note rfl (.ended nofun)
  · exact fun _ _ _ => nofun

/-- A difference with a plain part enters what its main part enters. -/
theorem Visits.leads_butNot (h : lo.Visits S limit e (Leads lo.input w)) (h' : e'.Plain Apart []) :
    lo.Visits S limit (e.butNot e') (Leads lo.input w) := by
  apply visits_make (by exact trivial)
  intro n ctx ps pos _ hpos hps
  change List.Forall₂ _ [_, _] ps at hps
  rcases hps with _ | ⟨hp, _ | ⟨hp', _ | _⟩⟩
  apply Act.Visits.onOutcome (hp' _ (visits_unseen h') pos hpos)
  · exact fun _ _ _ => .done nofun
  · rintro _ ⟨rfl, -⟩
    apply Act.Visits.onOutcome (hp _ h pos hpos)
    · exact fun m visits hleads => .done_after hleads
    · exact fun _ _ => .done nofun
    · exact fun _ _ _ => nofun
  · exact fun _ _ _ => nofun

end Lookout

end SlotGrammar.Html
