import SlotGrammar.Proofs.Cursor
import SlotGrammar.Proofs.Limits
import SlotGrammar.Proofs.Renaming
import SlotGrammar.Proofs.Snapshots

/-!
# Visits

Where a recognizer is entered in a run, and how often, stands in the log.  A run outside every
session replays nothing, so each attempt adds the visits that its parts make one after the
other.  This file follows them through the scripts of shapes: a triple says of an action how it
may end after which visits, and so bounds what a grammar does that need not match.

Main results:

- Theorem `Act.Visits.call`: what a script visits is what its first attempt visits and then the
  rest of it.
- Theorems `Recognizer.Visits.node`, `self` and `link`: an attempt visits what its own logic
  visits, after its own visit if it is one of the recognizer that is watched.
- Theorem `Recognizer.visits_unseen`: what is built over other recognizers visits nothing.
-/

namespace SlotGrammar

variable {V α : Type}

/-! ## Visits in a log -/

namespace Event

/-- The position at which an event enters a recognizer with a handle. -/
def visit? (handle : Handle) : Event V α → Option Position
  | called h pos _ => if h = handle then some pos else none
  | _ => none

/-- The positions at which a recognizer with a handle is entered, in the order of the events. -/
def visits (handle : Handle) (events : List (Event V α)) : List Position :=
  events.filterMap (visit? handle)

/-- Whether an event is the end of an attempt of a recognizer with a handle. -/
def isReturn (handle : Handle) : Event V α → Bool
  | replied h _ _ _ => h = handle
  | _ => false

/-- How many attempts of a recognizer with a handle are under way after some events. -/
def underWay (handle : Handle) (events : List (Event V α)) : Nat :=
  (visits handle events).length - events.countP (isReturn handle)

/-- What is visited in two lists of events is visited one after the other. -/
@[simp]
theorem visits_append (handle : Handle) (events events' : List (Event V α)) :
    visits handle (events ++ events') = visits handle events ++ visits handle events' :=
  List.filterMap_append

/-- At no time are more attempts under way than are made in all. -/
theorem underWay_le (handle : Handle) (earlier later : List (Event V α)) :
    underWay handle earlier ≤ (visits handle (earlier ++ later)).length := by
  rw [visits_append, List.length_append]
  exact Nat.le_trans (Nat.sub_le _ _) (Nat.le_add_right _ _)

end Event

/-! ## Actions -/

/-- The recognizer that a link leads to where every definition is held. -/
def Definitions.targets (defs : Definitions V α) : Targets V α
  | .definition cell => (defs[cell]?).join
  | .self cell => (defs[cell]?).join
  | _ => none

/-- A link leads to definitions alone. -/
theorem Definitions.mem_of_targets {defs : Definitions V α} {l : Link} {r : Recognizer V α}
    (h : defs.targets l = some r) : some r ∈ defs := by
  have hcell : ∀ cell, (defs[cell]?).join = some r → some r ∈ defs :=
    fun cell hcell => Array.mem_of_getElem? (Option.join_eq_some_iff.1 hcell)
  cases l with
  | definition cell => exact hcell cell h
  | self cell => exact hcell cell h
  | deferred cell => cases h
  | unbound => cases h

/-- What a run without a session has visited, in a grammar with some definitions. -/
structure Run.Visited (defs : Definitions V α) (handle : Handle) (run : Run V α)
    (visits : List Position) : Prop where
  alone : run.session = none
  defines : run.grammar.Defines defs
  visits_eq : Event.visits handle run.log.reverse = visits

/-- Whether an action ends only as given after the visits that it makes, wherever a run without
a session has got. -/
def Act.Visits (defs : Definitions V α) (handle : Handle) (act : Act V α (Outcome V α))
    (R : Ending V α → List Position → Prop) : Prop :=
  ∀ run before, run.Visited defs handle before → ∀ ending run', act run = some (ending, run') →
    ∃ visits, run'.Visited defs handle (before ++ visits) ∧ R ending visits

section Actions

variable {defs : Definitions V α} {handle : Handle} {run : Run V α} {before : List Position}
  {event : Event V α}

/-- An event that enters another recognizer, or none, is no visit. -/
theorem Run.Visited.noted (h : run.Visited defs handle before)
    (hevent : event.visit? handle = none) : (run.noted event).Visited defs handle before := by
  refine ⟨h.alone, h.defines, ?_⟩
  show Event.visits handle (event :: run.log).reverse = before
  rw [List.reverse_cons, Event.visits_append, h.visits_eq]
  simp [Event.visits, hevent]

/-- The recognizer is entered at a position. -/
theorem Run.Visited.entered (h : run.Visited defs handle before) {pos : Position}
    {ordinal : Option Nat} :
    (run.noted (.called handle pos ordinal)).Visited defs handle (before ++ [pos]) := by
  refine ⟨h.alone, h.defines, ?_⟩
  show Event.visits handle (Event.called handle pos ordinal :: run.log).reverse = _
  rw [List.reverse_cons, Event.visits_append, h.visits_eq]
  simp [Event.visits, Event.visit?]

namespace Act.Visits

variable {act : Act V α (Outcome V α)} {R R' : Ending V α → List Position → Prop}

/-- An account of an action holds when it says less. -/
theorem mono (h : act.Visits defs handle R)
    (hsub : ∀ ending visits, R ending visits → R' ending visits) : act.Visits defs handle R' := by
  intro run before hrun ending run' hact
  rcases h run before hrun ending run' hact with ⟨visits, hrun', hR⟩
  exact ⟨visits, hrun', hsub _ _ hR⟩

/-- What two triples say of an action holds of the same visits. -/
theorem and (h : act.Visits defs handle R) (h' : act.Visits defs handle R') :
    act.Visits defs handle fun ending visits => R ending visits ∧ R' ending visits := by
  intro run before hrun ending run' hact
  rcases h run before hrun ending run' hact with ⟨visits, hvisited, hR⟩
  rcases h' run before hrun ending run' hact with ⟨visits', hvisited', hR'⟩
  have hsame : visits' = visits :=
    List.append_cancel_left (hvisited'.visits_eq.symm.trans hvisited.visits_eq)
  exact ⟨visits, hvisited, hR, hsame ▸ hR'⟩

variable {attempt : Attempt V α} {ctx : Context V α} {pos : Position} {p : Recognizer V α}

/-- A script that has ended visits nothing. -/
theorem ended {ending : Ending V α} (h : R ending []) :
    ((Script.ended ending).play attempt ctx).Visits defs handle R := by
  intro run before hrun ending' run' heq
  rw [Script.play, Act.endAs_apply] at heq
  cases heq
  exact ⟨[], by simpa using hrun, h⟩

/-- A script that ends with an outcome visits nothing. -/
theorem done {outcome : Outcome V α} (h : R (.ok outcome) []) :
    ((Script.done outcome).play attempt ctx).Visits defs handle R :=
  ended h

/-- A script that has ended adds no visits to those before. -/
theorem ended_after {ending : Ending V α} {visits : List Position} (h : R ending visits) :
    ((Script.ended ending).play attempt ctx).Visits defs handle fun last more =>
      R last (visits ++ more) :=
  ended (by rwa [List.append_nil])

/-- An outcome after some visits adds none to them. -/
theorem done_after {outcome : Outcome V α} {visits : List Position} (h : R (.ok outcome) visits) :
    ((Script.done outcome).play attempt ctx).Visits defs handle fun last more =>
      R last (visits ++ more) :=
  ended_after h

theorem assoc {visits visits' : List Position}
    (h : act.Visits defs handle fun last more => R last (visits ++ visits' ++ more)) :
    act.Visits defs handle fun last more => R last (visits ++ (visits' ++ more)) := by
  simpa only [List.append_assoc] using h

/-- What goes deeper than its limit keeps every account. -/
theorem exhausted : ((Script.exhausted : Script V α).play attempt ctx).Visits defs handle R :=
  fun _ _ _ _ _ heq => by cases heq

/-- A note that is no visit changes no account. -/
theorem note {next : Script V α} (hevent : event.visit? handle = none)
    (h : (next.play attempt ctx).Visits defs handle R) :
    ((Script.note event next).play attempt ctx).Visits defs handle R :=
  fun run before hrun => h (run.noted event) before (hrun.noted hevent)

/-- A probed attempt visits what the attempt visits. -/
theorem probe {label : String} (hp : (attempt ctx p pos).Visits defs handle R) :
    ((Script.probe label p pos).play attempt ctx).Visits defs handle R := by
  intro run before hrun ending run' heq
  rw [Script.play, Part.probed_eq] at heq
  rcases Option.map_eq_some_iff.1 heq with ⟨⟨last, mid⟩, hmid, heq⟩
  cases heq
  rcases hp run before hrun _ mid hmid with ⟨visits, hvisited, hR⟩
  exact ⟨visits, hvisited.noted rfl, hR⟩

/-- What a script visits is what its first attempt visits and then the rest of it. -/
theorem call {next : Ending V α → Script V α} {Rp : Ending V α → List Position → Prop}
    (hp : (attempt ctx p pos).Visits defs handle Rp)
    (hnext : ∀ ending visits, Rp ending visits →
      ((next ending).play attempt ctx).Visits defs handle fun last more =>
        R last (visits ++ more)) :
    ((Script.call p pos next).play attempt ctx).Visits defs handle R := by
  intro run before hrun ending run' heq
  rw [Script.play_call_apply] at heq
  rcases Option.bind_eq_some_iff.1 heq with ⟨⟨first, mid⟩, hmid, heq⟩
  rcases hp run before hrun first mid hmid with ⟨visits, hmid, hfirst⟩
  rcases hnext first visits hfirst mid _ hmid ending run' heq with ⟨more, hrun', hlast⟩
  exact ⟨visits ++ more, by rwa [← List.append_assoc], hlast⟩

/-- A script that goes on with the outcome of a part, and ends with its error. -/
theorem onOutcome {next : Outcome V α → Script V α} {Rp : Ending V α → List Position → Prop}
    (hp : (attempt ctx p pos).Visits defs handle Rp)
    (hmatched : ∀ m visits, Rp (.ok (some m)) visits →
      ((next (some m)).play attempt ctx).Visits defs handle fun last more =>
        R last (visits ++ more))
    (hmissed : ∀ visits, Rp (.ok none) visits →
      ((next none).play attempt ctx).Visits defs handle fun last more => R last (visits ++ more))
    (hraised : ∀ e visits, Rp (.error e) visits → R (.error e) visits) :
    ((Script.onOutcome p pos next).play attempt ctx).Visits defs handle R := by
  apply call hp
  intro ending visits h
  rcases ending with e | _ | m
  · exact ended_after (hraised e visits h)
  · exact hmissed visits h
  · exact hmatched m visits h

end Act.Visits

end Actions

/-! ## Recognizers -/

/-- Whether all attempts of a recognizer inside an input, with a limit on their nesting, end only
as given after the visits that they make. -/
def Recognizer.Visits (defs : Definitions V α) (handle : Handle) (input : Fragments) (limit : Nat)
    (r : Recognizer V α) (R : Position → Ending V α → List Position → Prop) : Prop :=
  ∀ ctx : Context V α, ctx.HoldsAll defs → ctx.input = input → ∀ pos, input.Valid pos →
    (exec limit ctx r pos).Visits defs handle (R pos)

namespace Recognizer.Visits

variable {defs : Definitions V α} {handle : Handle} {input : Fragments} {limit : Nat}
  {r : Recognizer V α} {R R' : Position → Ending V α → List Position → Prop}

/-- An account of a recognizer holds when it says less. -/
theorem mono (h : r.Visits defs handle input limit R)
    (hsub : ∀ pos ending visits, R pos ending visits → R' pos ending visits) :
    r.Visits defs handle input limit R' :=
  fun ctx hctx hinput pos hpos => (h ctx hctx hinput pos hpos).mono (hsub pos)

/-- With a smaller limit no more attempts come to an end. -/
theorem of_le (h : r.Visits defs handle input limit R) {limit' : Nat} (hle : limit' ≤ limit) :
    r.Visits defs handle input limit' R :=
  fun ctx hctx hinput pos hpos run before hrun ending run' heq =>
    h ctx hctx hinput pos hpos run before hrun ending run' (exec_mono hle ctx r pos run _ heq)

variable (defs handle input R) in
/-- Under no limit every account is kept. -/
theorem zero (r : Recognizer V α) : r.Visits defs handle input 0 R :=
  fun _ _ _ _ _ _ _ _ _ _ heq => by cases heq

/-- An attempt of another recognizer than the one that is watched visits what its work does. -/
theorem of_work (hother : r.handle ≠ handle)
    (h : ∀ ctx : Context V α, ctx.HoldsAll defs → ctx.input = input → ∀ pos, input.Valid pos →
      (r.work (exec limit) limit ctx pos).Visits defs handle (R pos)) :
    r.Visits defs handle input (limit + 1) R := by
  intro ctx hctx hinput pos hpos run before hrun ending run' heq
  rw [exec_succ, Recognizer.attempt_eq_of_straight (Run.way_of_no_session hrun.alone _)] at heq
  rcases Option.map_eq_some_iff.1 heq with ⟨⟨last, mid⟩, hmid, heq⟩
  cases heq
  have hcalled : (Event.called r.handle pos run.ordinal? : Event V α).visit? handle = none :=
    if_neg hother
  have hstart : ((run.entering r pos).atWork r pos).Visited defs handle before :=
    (hrun.noted hcalled).noted rfl
  rcases h ctx hctx hinput pos hpos _ _ hstart _ _ hmid with ⟨visits, hvisited, hR⟩
  exact ⟨visits, hvisited.noted rfl, hR⟩

/-- A recognizer with a shape does what the script of the shape does. -/
theorem node {h : Handle} {shape : Shape V α (Recognizer V α)} (hother : h ≠ handle)
    (hscript : ∀ ctx : Context V α, ctx.HoldsAll defs → ctx.input = input → ∀ pos,
      input.Valid pos →
      ((shape.script limit ctx.view pos).play (exec limit) ctx).Visits defs handle (R pos)) :
    (Recognizer.node h shape).Visits defs handle input (limit + 1) R := by
  apply of_work (r := .node h shape) hother
  intro ctx hctx hinput pos hpos
  show (shape.attempt (exec limit) limit ctx pos).Visits defs handle (R pos)
  rw [← Script.play_script]
  exact hscript ctx hctx hinput pos hpos

/-- The recognizer that is watched is visited first. -/
theorem self {shape : Shape V α (Recognizer V α)}
    (hscript : ∀ ctx : Context V α, ctx.HoldsAll defs → ctx.input = input → ∀ pos,
      input.Valid pos →
      ((shape.script limit ctx.view pos).play (exec limit) ctx).Visits defs handle
        fun ending visits => R pos ending (pos :: visits)) :
    (Recognizer.node handle shape).Visits defs handle input (limit + 1) R := by
  intro ctx hctx hinput pos hpos run before hrun ending run' heq
  rw [exec_succ, Recognizer.attempt_eq_of_straight (Run.way_of_no_session hrun.alone _)] at heq
  rcases Option.map_eq_some_iff.1 heq with ⟨⟨last, mid⟩, hmid, heq⟩
  cases heq
  change shape.attempt (exec limit) limit ctx pos _ = _ at hmid
  rw [← Script.play_script] at hmid
  have hstart : ((run.entering (.node handle shape) pos).atWork (.node handle shape) pos).Visited
      defs handle (before ++ [pos]) :=
    hrun.entered.noted rfl
  rcases hscript ctx hctx hinput pos hpos _ _ hstart _ _ hmid with ⟨visits, hvisited, hR⟩
  rw [List.append_assoc] at hvisited
  exact ⟨pos :: visits, hvisited.noted rfl, hR⟩

/-- A link to a definition is followed in every context that holds the definitions. -/
theorem exists_found {ctx : Context V α} (hctx : ctx.HoldsAll defs) {l : Link}
    (hl : defs.targets l = some r) :
    ∃ ctx', l.found defs ctx = some (ctx', r) ∧ ctx'.HoldsAll defs ∧ ctx'.view = ctx.view := by
  cases l with
  | definition cell =>
    change (defs[cell]?).join = some r at hl
    refine ⟨ctx, ?_, hctx, rfl⟩
    rw [Link.found, hl]
    rfl
  | self cell =>
    change (defs[cell]?).join = some r at hl
    refine ⟨ctx.hold r, ?_, hctx.hold r, ?_⟩
    · rw [Link.found, hl]
      rfl
    · unfold Context.hold
      split <;> rfl
  | deferred cell => cases hl
  | unbound => cases hl

/-- A link does what the definition does that it leads to. -/
theorem link {h : Handle} {l : Link} (hother : h ≠ handle) (hl : defs.targets l = some r)
    (hr : r.Visits defs handle input limit R) :
    (Recognizer.link h l).Visits defs handle input (limit + 1) R := by
  apply of_work (r := .link h l) hother
  intro ctx hctx hinput pos hpos run before hrun ending run' heq
  rcases exists_found hctx hl with ⟨ctx', hfound, hctx', hview⟩
  have hfollow := Act.follow_of_holdsAll hctx l hrun.defines
  rw [hfound] at hfollow
  rw [Recognizer.work_link_some hfollow] at heq
  exact hr ctx' hctx' ((congrArg View.input hview).trans hinput) pos hpos run before hrun ending
    run' heq

end Recognizer.Visits

/-! ## What is not seen -/

section Unseen

variable {defs : Definitions V α} {handle : Handle} {input : Fragments}
  {T : Shape V α Unit → Prop} {A : Account V α T input}

/-- A script visits nothing and keeps an account when the attempts in it do, all of them inside
the input. -/
theorem Account.visits_play (hstays : ∀ {pos stop : Position}, A.Reaches pos stop →
      input.Valid pos → input.Valid stop) {attempt : Attempt V α} {ctx : Context V α}
    {shape : Shape V α (Recognizer V α)} {script : Script V α} {start : Position}
    (hstart : input.Valid start) (h : A.Obeys start script) (hscript : script.Within shape)
    (hparts : ∀ p ∈ shape.parts, ∀ pos, input.Valid pos →
      (attempt ctx p pos).Visits defs handle fun ending visits =>
        visits = [] ∧ A.Ends pos ending) :
    (script.play attempt ctx).Visits defs handle fun ending visits =>
      visits = [] ∧ A.Ends start ending := by
  induction h with
  | ended h => exact .ended ⟨rfl, h⟩
  | exhausted => exact .exhausted
  | @call p pos next hreaches _ ih =>
    cases hscript with
    | call hp _ hnext =>
      apply Act.Visits.call (hparts p hp pos (hstays hreaches hstart))
      rintro ending visits ⟨rfl, hends⟩
      exact ih ending hends (hnext ending)
  | note _ ih =>
    cases hscript with
    | note hevent hnext =>
      have hvisit : ∀ {event : Event V α}, ((∃ pos, event = .missed pos) ∨
          ∃ label, event = .tallied label) → event.visit? handle = none := by
        rintro event (⟨pos, rfl⟩ | ⟨label, rfl⟩) <;> rfl
      exact .note (hvisit hevent) (ih hnext)
  | @probe label p =>
    cases hscript with
    | probe hshape =>
      exact .probe (hparts p (by simp [hshape, Shape.parts]) start hstart)

/-- What is built over other recognizers than the one that is watched, and over no links, visits
nothing and keeps an account. -/
theorem Recognizer.visits_unseen (A : Account V α T input)
    (hstays : ∀ {pos stop : Position}, A.Reaches pos stop → input.Valid pos → input.Valid stop)
    (limit : Nat) {r : Recognizer V α}
    (h : ∀ x, r.Over x → ∃ h shape, x = .node h shape ∧ h ≠ handle ∧ T shape.outline) :
    r.Visits defs handle input limit fun pos ending visits => visits = [] ∧ A.Ends pos ending := by
  induction limit generalizing r with
  | zero => exact .zero _ _ _ _ _
  | succ limit ih =>
    rcases h r .refl with ⟨hr, shape, rfl, hother, hkind⟩
    apply Recognizer.Visits.node hother
    intro ctx hctx hinput pos hpos
    apply Account.visits_play hstays hpos (A.obeys_script limit hinput hkind pos)
      (Script.within_script _ _ _ _)
    intro p hp pos hpos
    refine ih ?_ ctx hctx hinput pos hpos
    intro x hx
    exact h x (Recognizer.over_node_iff.2 (.inr ⟨p, hp, hx⟩))

end Unseen

/-! ## Plain expressions -/

/-- Whether an expression is made of shapes with a property and of some names alone. -/
inductive Expr.Plain (T : Shape V α (Expr V α) → Prop) (names : List String) :
    Expr V α → Prop where
  | make {shape : Shape V α (Expr V α)} (h : T shape)
      (hparts : ∀ p ∈ shape.parts, Plain T names p) : Plain T names (.make shape)
  | ref {name : String} (h : name ∈ names) : Plain T names (.ref name)

section Plain

variable {T : Shape V α (Expr V α) → Prop} {names : List String} {e : Expr V α}

@[simp]
theorem Expr.plain_make_iff {shape : Shape V α (Expr V α)} :
    (make shape).Plain T names ↔ T shape ∧ ∀ p ∈ shape.parts, p.Plain T names :=
  ⟨fun | .make h hparts => ⟨h, hparts⟩, fun h => .make h.1 h.2⟩

@[simp]
theorem Expr.plain_ref_iff {name : String} :
    (ref name : Expr V α).Plain T names ↔ name ∈ names :=
  ⟨fun | .ref h => h, .ref⟩

/-- What a plain expression without names makes is built over recognizers with its shapes. -/
theorem Expr.Plain.over (h : e.Plain T []) {ρ : Targets V α} {S : Meaning V α}
    {r x : Recognizer V α} (hr : e.Makes ρ S r) (hx : r.Over x) :
    ∃ handle shape ps, T shape ∧ ps.length = shape.parts.length ∧
      x = .node handle (shape.withParts ps) := by
  induction h generalizing r with
  | @make shape hshape _ ih =>
    rcases hr.parts with ⟨handle, ps, hps, rfl⟩
    rcases Recognizer.over_node_iff.1 hx with rfl | ⟨p, hp, hx⟩
    · exact ⟨handle, shape, ps, hshape, hps.length_eq.symm, rfl⟩
    · rw [shape.parts_withParts hps.length_eq.symm] at hp
      rcases List.mem_iff_getElem.1 hp with ⟨n, hn, rfl⟩
      have hn' : n < shape.parts.length := hps.length_eq ▸ hn
      exact ih _ (List.getElem_mem hn') (hps.get hn' hn) hx
  | ref hname => cases hname

namespace Grammar

variable {scope : Scope V α} {g : Grammar V α}

/-- A shape defines what its parts define. -/
theorem definitions_build_make (shape : Shape V α (Expr V α)) :
    (build scope (.make shape) g).2.definitions =
      (buildParts scope shape.parts g).2.definitions := by
  rw [build, buildShape_eq]
  rfl

/-- Parts are built one after the other. -/
theorem definitions_buildParts_cons (es : List (Expr V α)) :
    (buildParts scope (e :: es) g).2.definitions =
      (buildParts scope es (build scope e g).2).2.definitions := by
  rw [buildParts]
  rfl

/-- A sequence defines what its parts define. -/
theorem definitions_build_sequence (es : List (Expr V α)) :
    (build scope (.sequence es) g).2.definitions = (buildParts scope es g).2.definitions :=
  definitions_build_make _

/-- A transform defines nothing. -/
theorem definitions_build_map (e : Expr V α) (transform : Tree V α → List V → Tree V α) :
    (build scope (e.map transform) g).2.definitions = (build scope e g).2.definitions := by
  rw [Expr.map, definitions_build_make]
  exact definitions_buildParts_cons []

/-- Parts that define nothing leave the definitions as they are. -/
theorem definitions_buildParts {es : List (Expr V α)}
    (h : ∀ e ∈ es, ∀ g, (build scope e g).2.definitions = g.definitions) :
    (buildParts scope es g).2.definitions = g.definitions := by
  induction es generalizing g with
  | nil => rfl
  | cons e es ih =>
    rw [definitions_buildParts_cons, ih fun e he => h e (List.mem_cons_of_mem _ he)]
    exact h e List.mem_cons_self g

/-- A cache defines nothing. -/
theorem definitions_build_cached (on : Bool) :
    (build scope (.cached on e) g).2.definitions = (build scope e g).2.definitions := by
  have hstep : build scope (.cached on e) g =
      withCaching (build scope e g).1 on (build scope e g).2 := by
    rw [build]
    rfl
  rw [hstep]
  rcases withCaching_cases (build scope e g).1 on (build scope e g).2 with heq | ⟨_, _, -, -, heq⟩
  · rw [heq]
  · rw [heq]

end Grammar

/-- A plain expression defines nothing. -/
theorem Expr.Plain.definitions_build (h : e.Plain T names) (scope : Grammar.Scope V α)
    (g : Grammar V α) : (Grammar.build scope e g).2.definitions = g.definitions := by
  induction h generalizing g with
  | make _ _ ih =>
    rw [Grammar.definitions_build_make]
    exact Grammar.definitions_buildParts ih
  | @ref name _ =>
    cases hfound : g.resolve? scope name with
    | some r => rw [Grammar.build_ref hfound]
    | none =>
      rw [Grammar.build_unresolved hfound]
      rfl

/-- A recursive expression with a plain body defines its body and nothing else. -/
theorem Expr.Plain.definitions_recursive (h : e.Plain T names) (scope : Grammar.Scope V α)
    (name : String) (g : Grammar V α) :
    (Grammar.build scope (.recursive name e) g).2.definitions =
      g.definitions.push (some (g.bodyBuilt scope name e).1) := by
  rw [Grammar.build_recursive]
  show (g.bodyBuilt scope name e).2.definitions.setIfInBounds g.definitions.size _ = _
  rw [Grammar.bodyBuilt, h.definitions_build, Grammar.opened_definitions]
  apply Array.toList_inj.1
  simp

end Plain

end SlotGrammar
