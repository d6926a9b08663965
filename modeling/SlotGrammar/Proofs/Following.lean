import SlotGrammar.Proofs.Built
import SlotGrammar.Proofs.Course
import SlotGrammar.Proofs.Liveness

/-!
# Following links

A deferral that stands for a name always gives the recognizer that the name is bound
to.  In a grammar whose deferrals all do, every link leads to the same recognizer at
all times: a run only settles deferrals, and that brings no definition to life and
lets none die.

Main results:

- Theorem `Reachable.sound`: what named roots reach is well formed and kept.
- Theorem `follow_eq`: in a run, a link leads to its target.
-/

namespace SlotGrammar

variable {V α : Type}

namespace Grammar

/-! ## Targets -/

/-- The recognizer that a link leads to. -/
def target (g : Grammar V α) : Targets V α
  | .definition cell => (g.definitions[cell]?).join
  | .self cell => g.definition? [] cell
  | .deferred cell =>
    match g.deferrals[cell]? with
    | some (.settled r) => some r
    | some (.awaiting _ (.ref name) scope) => g.resolve? scope name
    | _ => none
  | .unbound => none

theorem target_self (g : Grammar V α) (cell : Nat) :
    g.target (.self cell) = g.definition? [] cell := rfl

theorem target_deferred (g : Grammar V α) (cell : Nat) :
    g.target (.deferred cell) =
      match g.deferrals[cell]? with
      | some (.settled r) => some r
      | some (.awaiting _ (.ref name) scope) => g.resolve? scope name
      | _ => none := rfl

/-- Whether every deferral that is not settled yet stands for a recognizer that there
is. -/
def Supplied (g : Grammar V α) : Prop :=
  ∀ (cell : Nat) (label : String) (e : Expr V α) (scope : Scope V α),
    g.deferrals[cell]? = some (.awaiting label e scope) →
    ∃ name r, e = .ref name ∧ g.resolve? scope name = some r

/-- The recognizer that a deferral stands for is well formed and kept. -/
theorem keeps_supplied {bodies : Bodies V α} {g : Grammar V α} (hg : g.Formed bodies) {cell : Nat}
    {label : String} {e : Expr V α} {scope : Scope V α} {name : String} {r : Recognizer V α}
    (hcell : g.deferrals[cell]? = some (.awaiting label e scope))
    (hr : g.resolve? scope name = some r) : r.Formed bodies g ∧ g.Keeps r := by
  rcases resolve?_eq_some hr with ⟨n, hmem⟩ | hmem
  · have hscope := hg.scopes cell label e scope hcell _ hmem
    refine ⟨hscope.1, ?_⟩
    intro l hl
    rw [hscope.2] at hl
    cases hl
  · exact ⟨hg.names r hmem, keeps_of_named hmem⟩

/-- The recognizers that a run from some roots can attempt. -/
inductive Reachable (g : Grammar V α) (roots : Recognizer V α → Prop) : Recognizer V α → Prop where
  | root {r : Recognizer V α} (h : roots r) : Reachable g roots r
  | part {handle : Handle} {shape : Shape V α (Recognizer V α)} {p : Recognizer V α}
      (h : Reachable g roots (.node handle shape)) (hp : p ∈ shape.parts) : Reachable g roots p
  | target {handle : Handle} {l : Link} {r : Recognizer V α}
      (h : Reachable g roots (.link handle l)) (hr : g.target l = some r) : Reachable g roots r

theorem closed_reachable (g : Grammar V α) (roots : Recognizer V α → Prop) :
    Closed g.target (g.Reachable roots) :=
  ⟨fun h hp => .part h hp, fun h hr => .target h hr⟩

/-- A closed set contains what is reached from roots in it. -/
theorem Reachable.mem {g : Grammar V α} {roots P : Recognizer V α → Prop}
    (hP : Closed g.target P) (hroots : ∀ r, roots r → P r) {r : Recognizer V α}
    (h : g.Reachable roots r) : P r := by
  induction h with
  | root h => exact hroots _ h
  | part _ hp ih => exact hP.part ih hp
  | target _ hr ih => exact hP.target ih hr

/-- Where no link is met, what is reached from a recognizer is what it is built over. -/
theorem Reachable.over {g : Grammar V α} {top r : Recognizer V α} (h : g.Reachable (· = top) r)
    (hlinks : ∀ handle l, ¬ top.Over (.link handle l)) : top.Over r := by
  induction h with
  | root h =>
    cases h
    exact .refl
  | part _ hp ih => exact .part ih hp
  | target _ _ ih => exact absurd ih (hlinks _ _)

/-- The target of a kept link is well formed and kept. -/
theorem target_sound {bodies : Bodies V α} {g : Grammar V α} (hg : g.Formed bodies) {l : Link}
    (hl : ∀ k ∈ l.held, g.Kept k) {r : Recognizer V α} (hr : g.target l = some r) :
    r.Formed bodies g ∧ g.Keeps r := by
  have hdefinition : ∀ cell, (g.definitions[cell]?).join = some r → g.Kept (.definition cell) →
      r.Formed bodies g ∧ g.Keeps r := by
    intro cell hcell hkept
    have hcontent : g.definitions[cell]? = some (some r) := Option.join_eq_some_iff.1 hcell
    refine ⟨hg.definitions cell r hcontent, ?_⟩
    intro k hk
    exact hkept.holds (by simpa [Holds, linksBehind, hcontent] using hk)
  cases l with
  | definition cell => exact hdefinition cell hr (hl _ (by simp [Link.held]))
  | self cell =>
    rw [target_self, definition?] at hr
    split at hr
    next halive => exact hdefinition cell hr ((isAlive_iff_kept (by simp)).1 halive)
    · cases hr
  | unbound => cases hr
  | deferred cell =>
    rw [target_deferred] at hr
    split at hr
    next content hcell =>
      cases hr
      refine ⟨hg.settled cell r hcell, ?_⟩
      intro k hk
      exact (hl (.deferred cell) (by simp [Link.held])).holds
        (by simpa [Holds, linksBehind, hcell] using hk)
    next label name scope hcell => exact keeps_supplied hg hcell hr
    · cases hr

/-- What named roots reach is well formed and kept. -/
theorem Reachable.sound {bodies : Bodies V α} {g : Grammar V α} (hg : g.Formed bodies)
    {roots : Recognizer V α → Prop} (hroots : ∀ r, roots r → r ∈ g.names.values)
    {r : Recognizer V α} (h : g.Reachable roots r) : r.Formed bodies g ∧ g.Keeps r := by
  induction h with
  | root h => exact ⟨hg.names _ (hroots _ h), keeps_of_named (hroots _ h)⟩
  | @part handle shape p _ hp ih =>
    refine ⟨fun x hx => ih.1 x (Recognizer.over_node_iff.2 (.inr ⟨p, hp, hx⟩)), ?_⟩
    intro l hl
    exact ih.2 l ((ih.1 _ .refl).holdsParts p hp l hl)
  | target _ hr ih => exact target_sound hg (fun k hk => ih.2 k ((ih.1 _ .refl).holdsParts k hk)) hr

/-! ## Later states of a grammar -/

/-- Whether a grammar is a later state of another one: some deferrals may have been
settled with the recognizers that they stand for. -/
structure Later (g g' : Grammar V α) : Prop where
  names : g'.names = g.names
  definitions : g'.definitions = g.definitions
  deferrals : ∀ cell : Nat, g'.deferrals[cell]? = g.deferrals[cell]? ∨
    ∃ label name scope r, g.deferrals[cell]? = some (.awaiting label (.ref name) scope) ∧
      g.resolve? scope name = some r ∧ g'.deferrals[cell]? = some (.settled r)
  kept : ∀ l, g'.Kept l ↔ g.Kept l

namespace Later

variable {g g' : Grammar V α}

theorem refl (g : Grammar V α) : Later g g := ⟨rfl, rfl, fun _ => .inl rfl, fun _ => Iff.rfl⟩

/-- Stores and sessions have no part in what links lead to. -/
theorem onStores (h : Later g g') (stores : Stores V α) (nextSession : SessionId) :
    Later g { g' with stores, nextSession } :=
  ⟨h.names, h.definitions, h.deferrals, h.kept⟩

theorem resolve?_eq (h : Later g g') (scope : Scope V α) (name : String) :
    g'.resolve? scope name = g.resolve? scope name := by
  simp only [resolve?, find?, h.names]

theorem keeps_iff (h : Later g g') {r : Recognizer V α} : g'.Keeps r ↔ g.Keeps r :=
  forall_congr' fun l => imp_congr_right fun _ => h.kept l

/-- The living definitions stay the same. -/
theorem definition?_eq (h : Later g g') {held : List (Recognizer V α)}
    (hheld : ∀ r ∈ held, g.Keeps r) (cell : Nat) :
    g'.definition? held cell = g.definition? [] cell := by
  have hsame : g'.isAlive held cell = g.isAlive [] cell := by
    rw [Bool.eq_iff_iff, isAlive_iff_kept fun r hr => h.keeps_iff.2 (hheld r hr),
      isAlive_iff_kept (by simp), h.kept]
  simp [definition?, hsame, h.definitions]

/-- Settling a deferral with what it stands for leads to a later state. -/
theorem settle (h : Later g g') {cell : Nat} {label name : String} {scope : Scope V α}
    {r : Recognizer V α} (hcell : g'.deferrals[cell]? = some (.awaiting label (.ref name) scope))
    (hr : g.resolve? scope name = some r) (hkeeps : g.Keeps r) :
    Later g (Grammar.settle cell r g').2 := by
  refine ⟨h.names, h.definitions, ?_, ?_⟩
  · intro c
    obtain ⟨hlt, -⟩ := Array.getElem?_eq_some_iff.1 hcell
    by_cases hc : c = cell
    · subst hc
      right
      rcases h.deferrals c with hsame | ⟨_, _, _, _, _, _, hsettled⟩
      · refine ⟨label, name, scope, r, hsame ▸ hcell, hr, ?_⟩
        exact Array.getElem?_setIfInBounds_self_of_lt hlt
      · rw [hcell] at hsettled
        cases hsettled
    · have hother : (Grammar.settle cell r g').2.deferrals[c]? = g'.deferrals[c]? :=
        Array.getElem?_setIfInBounds_ne (Ne.symm hc)
      rw [hother]
      exact h.deferrals c
  · intro l
    rw [kept_settle_iff hcell (h.keeps_iff.2 hkeeps), h.kept]

end Later

end Grammar

/-! ## Runs -/

namespace Act

/-- A deferral that has been settled is not built again. -/
theorem settled_of_settled {cell : Nat} {run : Run V α} {r : Recognizer V α}
    (h : run.grammar.deferrals[cell]? = some (.settled r)) :
    settled cell run = some (.ok (some r), run) := by
  unfold settled
  rw [bind_apply, get_apply, Option.bind_some]
  simp only [h]
  rfl

/-- A deferral that stands for a name is settled with what the name is bound to. -/
theorem settled_of_awaiting {cell : Nat} {run : Run V α} {label name : String}
    {scope : Grammar.Scope V α} {r : Recognizer V α}
    (h : run.grammar.deferrals[cell]? = some (.awaiting label (.ref name) scope))
    (hr : run.grammar.resolve? scope name = some r) :
    settled cell run = some (.ok (some r),
      { run with
        grammar := (Grammar.settle cell r run.grammar).2
        log := .tallied label :: run.log }) := by
  have hstep : settled cell run =
      (onGrammar (Grammar.build scope (.ref name)) >>= fun r =>
        onGrammar (Grammar.settle cell r) >>= fun _ => pure (some r))
          { run with log := .tallied label :: run.log } := by
    unfold settled
    rw [bind_apply, get_apply, Option.bind_some]
    simp only [h]
    rfl
  have hbuild : onGrammar (Grammar.build scope (.ref name))
      { run with log := .tallied label :: run.log } =
        some (.ok r, { run with log := .tallied label :: run.log }) := by
    unfold onGrammar
    dsimp only
    rw [Grammar.build_ref hr]
  rw [hstep, bind_apply, hbuild]
  rfl

theorem settled_of_none {cell : Nat} {run : Run V α} (h : run.grammar.deferrals[cell]? = none) :
    settled cell run = some (.ok none, run) := by
  unfold settled
  rw [bind_apply, get_apply, Option.bind_some]
  simp only [h]
  rfl

/-- Settling a deferred cell finds its target and leads to a later state of the grammar. -/
theorem settled_eq {bodies : Bodies V α} {g : Grammar V α} (hg : g.Formed bodies)
    (hsupplied : g.Supplied) (cell : Nat) {run : Run V α} (hlater : g.Later run.grammar) :
    ∃ (deferrals : Array (Deferral V α)) (tallies : List String),
      settled cell run = some (.ok (g.target (.deferred cell)),
        { run with
          grammar := { run.grammar with deferrals }
          log := tallies.map Event.tallied ++ run.log }) ∧
      g.Later { run.grammar with deferrals } := by
  have hawaiting : ∀ label name scope r,
      g.deferrals[cell]? = some (.awaiting label (.ref name) scope) →
      g.resolve? scope name = some r → g.target (.deferred cell) = some r := by
    intro label name scope r hcell hr
    rw [Grammar.target_deferred, hcell]
    exact hr
  cases hcell : run.grammar.deferrals[cell]? with
  | none =>
    have hnone : g.target (.deferred cell) = none := by
      rcases hlater.deferrals cell with hsame | ⟨_, _, _, _, -, -, hsettled⟩
      · rw [Grammar.target_deferred, ← hsame, hcell]
      · rw [hcell] at hsettled
        cases hsettled
    rw [settled_of_none hcell, hnone]
    exact ⟨run.grammar.deferrals, [], rfl, hlater⟩
  | some deferral =>
    cases deferral with
    | settled r =>
      have hr : g.target (.deferred cell) = some r := by
        rcases hlater.deferrals cell with hsame | ⟨label, name, scope, x, hold, hx, hsettled⟩
        · rw [Grammar.target_deferred, ← hsame, hcell]
        · rw [hcell] at hsettled
          cases hsettled
          exact hawaiting label name scope r hold hx
      rw [settled_of_settled hcell, hr]
      exact ⟨run.grammar.deferrals, [], rfl, hlater⟩
    | awaiting label e scope =>
      have hold : g.deferrals[cell]? = some (.awaiting label e scope) := by
        rcases hlater.deferrals cell with hsame | ⟨_, _, _, _, -, -, hsettled⟩
        · rw [← hsame, hcell]
        · rw [hcell] at hsettled
          cases hsettled
      obtain ⟨name, r, rfl, hr⟩ := hsupplied cell label e scope hold
      rw [settled_of_awaiting hcell ((hlater.resolve?_eq scope name).trans hr),
        hawaiting label name scope r hold hr]
      exact ⟨_, [label], rfl, hlater.settle hcell hr (Grammar.keeps_supplied hg hold hr).2⟩

/-- In a run, a link leads to its target.  The run goes on in a later state of its
grammar, with the same stores and sessions. -/
theorem follow_eq {bodies : Bodies V α} {g : Grammar V α} (hg : g.Formed bodies)
    (hsupplied : g.Supplied) {ctx : Context V α} (hheld : ∀ r ∈ ctx.held, g.Keeps r) {l : Link}
    (hl : ∀ k ∈ l.held, g.Kept k) {run : Run V α} (hlater : g.Later run.grammar) :
    ∃ (found : Option (Context V α × Recognizer V α)) (deferrals : Array (Deferral V α))
        (tallies : List String),
      follow ctx l run = some (.ok found,
        { run with
          grammar := { run.grammar with deferrals }
          log := tallies.map Event.tallied ++ run.log }) ∧
      g.Later { run.grammar with deferrals } ∧ found.map Prod.snd = g.target l ∧
      ∀ x ∈ found, x.1.view = ctx.view ∧ ∀ r ∈ x.1.held, g.Keeps r := by
  cases l with
  | definition cell =>
    refine ⟨_, run.grammar.deferrals, [], rfl, hlater, ?_, ?_⟩
    · show (((run.grammar.definitions[cell]?).join).map fun r => (ctx, r)).map Prod.snd = _
      rw [hlater.definitions, Option.map_map]
      exact Option.map_id'
    · intro x hx
      obtain ⟨r, -, rfl⟩ := Option.map_eq_some_iff.1 hx
      exact ⟨rfl, hheld⟩
  | self cell =>
    refine ⟨_, run.grammar.deferrals, [], rfl, hlater, ?_, ?_⟩
    · show ((run.grammar.definition? ctx.held cell).map fun r => (ctx.hold r, r)).map Prod.snd = _
      rw [hlater.definition?_eq hheld, Option.map_map]
      exact Option.map_id'
    · intro x hx
      obtain ⟨r, hr, rfl⟩ := Option.map_eq_some_iff.1 hx
      have hr : g.target (.self cell) = some r := by
        rw [Grammar.target_self, ← hlater.definition?_eq hheld]
        exact hr
      have hkeeps : g.Keeps r := (Grammar.target_sound hg hl hr).2
      unfold Context.hold
      dsimp only
      split
      · exact ⟨rfl, hheld⟩
      · refine ⟨rfl, ?_⟩
        intro x hx
        rcases List.mem_cons.1 hx with rfl | hx
        · exact hkeeps
        · exact hheld x hx
  | unbound => exact ⟨none, run.grammar.deferrals, [], rfl, hlater, rfl, by simp⟩
  | deferred cell =>
    have hstep : follow ctx (.deferred cell) run =
        (settled cell >>= fun found => pure (found.map fun r => (ctx, r))) run := rfl
    obtain ⟨deferrals, tallies, hsettled, hlater'⟩ := settled_eq hg hsupplied cell hlater
    refine ⟨(g.target (.deferred cell)).map fun r => (ctx, r), deferrals, tallies, ?_, hlater', ?_,
      ?_⟩
    · rw [hstep, bind_apply, hsettled]
      rfl
    · rw [Option.map_map]
      exact Option.map_id'
    · intro x hx
      obtain ⟨r, -, rfl⟩ := Option.map_eq_some_iff.1 hx
      exact ⟨rfl, hheld⟩

end Act

namespace Recognizer

variable {attempt : Attempt V α} {limit : Nat} {ctx ctx' : Context V α} {handle : Handle}
  {l : Link} {r : Recognizer V α} {run run' : Run V α}

/-- The work of a link is an attempt of its target. -/
theorem work_link_some (h : Act.follow ctx l run = some (.ok (some (ctx', r)), run'))
    (pos : Position) :
    (Recognizer.link handle l).work attempt limit ctx pos run = attempt ctx' r pos run' := by
  show (Act.follow ctx l >>= _) run = _
  rw [Act.bind_apply, h]
  rfl

/-- A link without a target raises an error. -/
theorem work_link_none (h : Act.follow ctx l run = some (.ok none, run')) (pos : Position) :
    (Recognizer.link handle l).work attempt limit ctx pos run =
      some (.error .unresolved, run') := by
  show (Act.follow ctx l >>= _) run = _
  rw [Act.bind_apply, h]
  rfl

end Recognizer

end SlotGrammar
