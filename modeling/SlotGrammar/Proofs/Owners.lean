import SlotGrammar.Proofs.Grounds

/-!
# Owners of definitions

The recursive use of a definition does not keep it alive, so a run that comes to one may find
the definition gone.  It finds the definition wherever the recognizer that owns it can be
reached from the root of the run through what recognizers hold.  It does not matter where the
recursive use lies, inside other definitions, in what a deferral was settled with or outside of
its own definition, nor when the owner came to be reached: a definition that is reached once was
kept all the time.

Main results:

- Theorem `follow_finds`: a run finds the recognizers that its links lead to.
- Theorem `Underway.resolved`: a run in which every recursive use has its owner within reach
  never ends unresolved.
-/

namespace SlotGrammar

variable {V α : Type}

/-! ## What is within reach -/

/-- The recognizers that are reached from one through its parts, their parts and the targets of
links. -/
inductive Recognizer.Reaches (ρ : Targets V α) (root : Recognizer V α) : Recognizer V α → Prop where
  | root : Reaches ρ root root
  | part {handle : Handle} {shape : Shape V α (Recognizer V α)} {p : Recognizer V α}
      (h : Reaches ρ root (.node handle shape)) (hp : p ∈ shape.parts) : Reaches ρ root p
  | target {handle : Handle} {l : Link} {r : Recognizer V α}
      (h : Reaches ρ root (.link handle l)) (hr : ρ l = some r) : Reaches ρ root r

/-- Whether the links that a recognizer is built over are among some. -/
def Recognizer.LinksIn (ls : List Link) (top : Recognizer V α) : Prop :=
  ∀ handle l, top.Over (.link handle l) → l ∈ ls

@[simp]
theorem Recognizer.linksIn_link {ls : List Link} {handle : Handle} {l : Link} :
    (Recognizer.link handle l : Recognizer V α).LinksIn ls ↔ l ∈ ls := by
  constructor
  · exact fun h => h handle l .refl
  · intro h handle' l' hover
    cases over_link_iff.1 hover
    exact h

@[simp]
theorem Recognizer.linksIn_node {ls : List Link} {handle : Handle}
    {shape : Shape V α (Recognizer V α)} :
    (Recognizer.node handle shape).LinksIn ls ↔ ∀ p ∈ shape.parts, p.LinksIn ls := by
  constructor
  · exact fun h p hp handle' l hover => h handle' l (over_node_iff.2 (.inr ⟨p, hp, hover⟩))
  · intro h handle' l hover
    rcases over_node_iff.1 hover with heq | ⟨p, hp, hover⟩
    · cases heq
    · exact h p hp handle' l hover

/-- Links that lead to no others are all that are reached. -/
theorem Recognizer.Reaches.linksIn {ρ : Targets V α} {root r : Recognizer V α} {ls : List Link}
    (hroot : root.LinksIn ls) (htargets : ∀ l ∈ ls, ∀ r, ρ l = some r → r.LinksIn ls)
    (h : root.Reaches ρ r) : r.LinksIn ls := by
  induction h with
  | root => exact hroot
  | part _ hp ih => exact linksIn_node.1 ih _ hp
  | target _ hr ih => exact htargets _ (linksIn_link.1 ih) _ hr

namespace Grammar

/-- The recognizer that the cell of a link holds, for a link that holds its cell. -/
def owned? (g : Grammar V α) : Targets V α
  | .definition cell => (g.definitions[cell]?).join
  | .deferred cell =>
    match g.deferrals[cell]? with
    | some (.settled r) => some r
    | _ => none
  | .self _ => none
  | .unbound => none

/-- The recognizer in the cell of a link, which a run comes to unless it is gone. -/
def content? (g : Grammar V α) : Targets V α
  | .self cell => (g.definitions[cell]?).join
  | l => g.owned? l

/-- Whether every recursive use that a run from some root can come to has an owner that the
root reaches through what recognizers hold, and the run cannot come to a name that was never
bound.  A build function that has not returned has given no owner yet. -/
structure Owned (g : Grammar V α) (root : Recognizer V α) : Prop where
  owner : ∀ handle cell, root.Reaches g.content? (.link handle (.self cell)) →
    ∃ handle', root.Reaches g.owned? (.link handle' (.definition cell))
  bound : ∀ handle, ¬ root.Reaches g.content? (.link handle .unbound)

variable {g g' : Grammar V α} {root r : Recognizer V α} {holders : List (Recognizer V α)}
  {cell : Nat}

/-- The cells of what a recognizer reaches through what is held are reached from the links that
it holds itself. -/
theorem Grounded.held_reached (hg : g.Grounded) (hroot : root.Grounded g)
    (h : root.Reaches g.owned? r) :
    r.Grounded g ∧ ∀ l ∈ r.held, ∃ k ∈ root.held, g.Reaches k l := by
  induction h with
  | root => exact ⟨hroot, fun l hl => ⟨l, hl, .refl⟩⟩
  | part _ hp ih =>
    exact ⟨ih.1.part hp, fun l hl => ih.2 l ((ih.1 _ .refl).holdsParts _ hp l hl)⟩
  | @target handle l r _ hr ih =>
    have hlink : ∀ k ∈ l.held, ∃ k' ∈ root.held, g.Reaches k' k :=
      fun k hk => ih.2 k ((ih.1 _ .refl).holdsParts k hk)
    cases l with
    | definition cell =>
      have hcell : g.definitions[cell]? = some (some r) := Option.join_eq_some_iff.1 hr
      obtain ⟨k, hk, hreach⟩ := hlink (.definition cell) (by simp [Link.held])
      refine ⟨hg.definitions cell r hcell, fun l hl => ⟨k, hk, hreach.tail ?_⟩⟩
      simpa [Holds, linksBehind, hcell] using hl
    | deferred cell =>
      unfold owned? at hr
      dsimp only at hr
      split at hr
      next content hcell =>
        cases hr
        obtain ⟨k, hk, hreach⟩ := hlink (.deferred cell) (by simp [Link.held])
        refine ⟨hg.settled cell r hcell, fun l hl => ⟨k, hk, hreach.tail ?_⟩⟩
        simpa [Holds, linksBehind, hcell] using hl
      · cases hr
    | self cell => cases hr
    | unbound => cases hr

/-- A definition whose owner a recognizer reaches later is alive before, as long as that
recognizer is held. -/
theorem Develops.isAlive (h : g.Develops g') (hg' : g'.Grounded) (hroot : root.Grounded g')
    (hheld : root ∈ holders) (hcell : cell < g.definitions.size) {handle : Handle}
    (howner : root.Reaches g'.owned? (.link handle (.definition cell))) :
    g.isAlive holders cell = true := by
  have howner := hg'.held_reached hroot howner
  obtain ⟨k, hk, hreach⟩ := howner.2 (.definition cell)
    ((howner.1 _ .refl).holdsParts (.definition cell) (by simp [Link.held]))
  rw [isAlive_iff]
  rcases h.reaches hreach (mem_allLinks_definition.2 hcell) with hold | hkept
  · exact .inr ⟨root, hheld, k, hk, hold⟩
  · exact .inl hkept

end Grammar

/-! ## Following links -/

/-- Whether a recognizer may be attempted in a state of a run that comes to a last grammar: it is
grounded, the root of the run is held, and the root reaches the recognizer in the end. -/
structure Recognizer.Due (root : Recognizer V α) (last : Grammar V α) (ctx : Context V α)
    (run : Run V α) (r : Recognizer V α) : Prop where
  grammar : run.grammar.Grounded
  held : root ∈ ctx.held
  grounded : r.Grounded run.grammar
  reached : root.Reaches last.content? r

section Runs

variable {root r : Recognizer V α} {last : Grammar V α} {ctx : Context V α} {run run' : Run V α}
  {handle : Handle} {l : Link} {limit : Nat} {pos : Position} {ending : Ending V α}

/-- A run finds the recognizers that its links lead to. -/
theorem Act.follow_finds (hlast : last.Grounded) (hroot : root.Grounded last)
    (howned : last.Owned root) (hdue : root.Due last ctx run (.link handle l))
    {found : Option (Context V α × Recognizer V α)}
    (h : Act.follow ctx l run = some (.ok found, run')) (hlater : run'.grammar.Develops last) :
    ∃ x, found = some x ∧ root.Due last x.1 run' x.2 := by
  have hgrown := Act.grown_follow hdue.grammar hdue.held hdue.grounded h
  have hfound : ∃ x, found = some x ∧ last.content? l = some x.2 := by
    have hfounded := (hdue.grounded _ .refl).founded handle l rfl
    cases l with
    | unbound => exact absurd hdue.reached (howned.bound handle)
    | definition cell =>
      obtain ⟨r, hr⟩ := hfounded
      cases h
      refine ⟨(ctx, r), by rw [hr]; rfl, ?_⟩
      have hsame := hlater.definitions cell (Array.getElem?_eq_some_iff.1 hr).1
      show (last.definitions[cell]?).join = some r
      rw [hsame, hr]
      rfl
    | self cell =>
      obtain ⟨owner, howner⟩ := howned.owner handle cell hdue.reached
      obtain ⟨r, hr⟩ := ((hlast.held_reached hroot howner).1 _ .refl).founded owner _ rfl
      cases h
      have halive := hlater.isAlive hlast hroot hdue.held hfounded howner
      have hdefinition : run.grammar.definition? ctx.held cell = some r := by
        rw [Grammar.definition?, if_pos halive, ← hlater.definitions cell hfounded, hr]
        rfl
      refine ⟨(ctx.hold r, r), by rw [hdefinition]; rfl, ?_⟩
      show (last.definitions[cell]?).join = some r
      rw [hr]
      rfl
    | deferred cell =>
      have hstep : Act.follow ctx (.deferred cell) run =
          (Act.settled cell >>= fun found => pure (found.map fun r => (ctx, r))) run := rfl
      have hcontent : ∀ {r : Recognizer V α}, last.deferrals[cell]? = some (.settled r) →
          last.content? (.deferred cell) = some r := by
        intro r hr
        unfold Grammar.content? Grammar.owned?
        dsimp only
        rw [hr]
      rw [hstep, Act.bind_apply] at h
      have hlt : cell < run.grammar.deferrals.size := hfounded
      have hget : run.grammar.deferrals[cell]? = some _ := Array.getElem?_eq_getElem hlt
      cases hdeferral : run.grammar.deferrals[cell] with
      | settled r =>
        rw [hdeferral] at hget
        rw [Act.settled_of_settled hget] at h
        cases h
        exact ⟨(ctx, r), rfl, hcontent (hlater.settled cell r hget)⟩
      | awaiting label e scope =>
        rw [hdeferral] at hget
        rw [Act.settled_of_unsettled hget] at h
        cases h
        refine ⟨(ctx, _), rfl, hcontent (hlater.settled cell _ ?_)⟩
        exact Array.getElem?_setIfInBounds_self_of_lt
          (Nat.lt_of_lt_of_le hlt (hdue.grammar.awaited hget).develops.deferrals_le)
  obtain ⟨x, rfl, hx⟩ := hfound
  have hnext := hgrown.2 x rfl
  exact ⟨x, rfl, hgrown.1.1, hnext.1, hnext.2, .target hdue.reached hx⟩

/-- What is due for a recognizer is due for its parts. -/
theorem Recognizer.Due.part {shape : Shape V α (Recognizer V α)} {p : Recognizer V α}
    (h : root.Due last ctx run (.node handle shape)) (hp : p ∈ shape.parts) :
    root.Due last ctx run p :=
  ⟨h.grammar, h.held, h.grounded.part hp, .part h.reached hp⟩

/-- What is due for a recognizer is due for it later. -/
theorem Recognizer.Due.later (h : root.Due last ctx run r) (hrun : run'.Grown run.grammar) :
    root.Due last ctx run' r :=
  ⟨hrun.1, h.held, hrun.2.widens.grounded h.grounded, h.reached⟩

/-- What is due for a recognizer is due for it in a parse that starts inside. -/
theorem Recognizer.Due.inside (h : root.Due last ctx run r) (sub : Subparse V)
    (p : Recognizer V α) : root.Due last (ctx.inside sub p) run r :=
  ⟨h.grammar, List.mem_cons_of_mem _ h.held, h.grounded, h.reached⟩

end Runs

/-! ## Scripts -/

namespace Script

/-- Whether a script does not end unresolved after attempts that do not. -/
inductive Resolved : Script V α → Prop where
  | ended {ending : Ending V α} (h : ending ≠ .error .unresolved) : Resolved (.ended ending)
  | exhausted : Resolved .exhausted
  | call {p : Recognizer V α} {pos : Position} {next : Ending V α → Script V α}
      (hnext : ∀ ending, ending ≠ .error .unresolved → Resolved (next ending)) :
      Resolved (.call p pos next)
  | nest {sub : Subparse V} {p : Recognizer V α} {next : Ending V α → Script V α}
      (hnext : ∀ ending, ending ≠ .error .unresolved → Resolved (next ending)) :
      Resolved (.nest sub p next)
  | clear {t : Recognizer V α} {next : Script V α} (hnext : Resolved next) :
      Resolved (.clear t next)
  | note {event : Event V α} {next : Script V α} (hnext : Resolved next) :
      Resolved (.note event next)
  | probe {label : String} {p : Recognizer V α} {pos : Position} : Resolved (.probe label p pos)

theorem resolved_done (outcome : Outcome V α) : Resolved (done outcome) := .ended (by simp)

theorem resolved_pass {next : Outcome V α → Script V α} (hnext : ∀ outcome, Resolved (next outcome))
    {ending : Ending V α} (h : ending ≠ .error .unresolved) : Resolved (pass next ending) := by
  cases ending with
  | error e => exact .ended h
  | ok outcome => exact hnext outcome

theorem resolved_onOutcome {p : Recognizer V α} {pos : Position} {next : Outcome V α → Script V α}
    (hnext : ∀ outcome, Resolved (next outcome)) : Resolved (onOutcome p pos next) :=
  .call fun _ h => resolved_pass hnext h

theorem Resolved.of_simple {parts : List (Recognizer V α)} {script : Script V α}
    (h : Simple parts script) : Resolved script := by
  induction h with
  | done outcome => exact resolved_done outcome
  | exhausted => exact .exhausted
  | onOutcome _ _ ih => exact resolved_onOutcome ih

/-- No shape ends unresolved by itself. -/
theorem resolved_script (limit : Nat) (view : View V) (shape : Shape V α (Recognizer V α))
    (pos : Position) : Resolved (shape.script limit view pos) := by
  cases shape with
  | required p =>
    refine resolved_onOutcome ?_
    intro outcome
    cases outcome with
    | none => exact .note (.ended (by simp [ParseError.unexpectedAt]))
    | some found => exact resolved_done _
  | catching p =>
    refine .call ?_
    intro ending _
    cases ending with
    | error e => exact resolved_done none
    | ok outcome => exact resolved_done outcome
  | nested sub p => exact .nest fun _ h => resolved_pass (fun _ => resolved_done _) h
  | clearing t p => exact .clear (resolved_onOutcome resolved_done)
  | counted label p => exact .note (resolved_onOutcome resolved_done)
  | probed label p => exact .probe
  | _ =>
    apply Resolved.of_simple
    apply simple_script
    trivial

end Script

/-! ## Attempts -/

/-- Whether attempts on the way to a last grammar do not end unresolved where they are due. -/
def Attempt.Resolves (attempt : Attempt V α) (root : Recognizer V α) (last : Grammar V α) : Prop :=
  ∀ ⦃ctx r pos run ending run'⦄, attempt ctx r pos run = some (ending, run') →
    root.Due last ctx run r → run'.grammar.Develops last → ending ≠ .error .unresolved

section Attempts

variable {attempt : Attempt V α} {watch : Watch V α} {root r : Recognizer V α}
  {last : Grammar V α} {ctx : Context V α} {run run' : Run V α} {handle : Handle} {l : Link}
  {limit : Nat} {pos : Position} {ending : Ending V α}

/-- A script does not end unresolved when the attempts in it do not. -/
theorem Attempt.Resolves.play (hattempt : attempt.Resolves root last)
    (hkeeps : (developing root).Keeps attempt watch) {shape : Shape V α (Recognizer V α)}
    {script : Script V α} (hscript : script.Within shape) (hresolved : script.Resolved)
    (hdue : root.Due last ctx run (.node handle shape))
    (h : script.play attempt ctx run = some (ending, run'))
    (hlater : run'.grammar.Develops last) : ending ≠ .error .unresolved := by
  induction hscript generalizing run with
  | ended e =>
    cases hresolved with
    | ended hend =>
      change Act.endAs e run = _ at h
      rw [Act.endAs_apply] at h
      cases h
      exact hend
  | exhausted => cases h
  | @call p pos next hp _ hwithin ih =>
    cases hresolved with
    | call hnext =>
      rw [Script.play_call_apply] at h
      obtain ⟨⟨first, mid⟩, hfirst, hrest⟩ := Option.bind_eq_some_iff.1 h
      have hpart := hdue.part hp
      have hmid := Attempt.grown hkeeps hdue.grammar hdue.held hpart.grounded hfirst
      have hdue' := hdue.later hmid
      have htail := Script.grown_play hkeeps (hwithin first) hdue'.grammar hdue'.held
        hdue'.grounded hrest
      have hend := hattempt hfirst hpart (htail.2.trans hlater)
      exact ih first (hnext first hend) hdue' hrest
  | @nest sub p next hshape hwithin ih =>
    cases hresolved with
    | nest hnext =>
      subst hshape
      rw [Script.play_nest_apply, Act.inSession_eq, Option.bind_map] at h
      obtain ⟨⟨first, mid⟩, hfirst, hrest⟩ := Option.bind_eq_some_iff.1 h
      have hopened := run.grown_opened hdue.grammar (ctx.inside sub p) p
      have hinner : root.Due last (ctx.inside sub p) (run.opened (ctx.inside sub p) p) p :=
        ((hdue.part (by simp [Shape.parts])).later hopened).inside sub p
      have hmid := Attempt.grown hkeeps hinner.grammar hinner.held hinner.grounded hfirst
      have hclosed := mid.grown_closed hmid.1 run.session first
      have hdue' := hdue.later ⟨hclosed.1, (hopened.2.trans hmid.2).trans hclosed.2⟩
      have htail := Script.grown_play hkeeps (hwithin first) hdue'.grammar hdue'.held
        hdue'.grounded hrest
      have hend := hattempt hfirst hinner (hclosed.2.trans (htail.2.trans hlater))
      exact ih first (hnext first hend) hdue' hrest
  | clear _ _ ih =>
    cases hresolved with
    | clear hnext => exact ih hnext (hdue.later (run.grown_cleared hdue.grammar _)) h
  | @note event next hevent hwithin ih =>
    cases hresolved with
    | note hnext =>
      have hdue' : root.Due last ctx (run.noted event) (.node handle shape) :=
        hdue.later ⟨hdue.grammar, .refl run.grammar⟩
      exact ih hnext hdue' h
  | @probe label p pos hshape =>
    change Part.probed label (attempt ctx p) pos run = _ at h
    rw [Part.probed_eq] at h
    obtain ⟨⟨end₁, mid⟩, hfirst, heq⟩ := Option.map_eq_some_iff.1 h
    cases heq
    exact hattempt hfirst (hdue.part (by simp [hshape, Shape.parts])) hlater

/-- A recognizer's own logic does not end unresolved when the attempts in it do not. -/
theorem Attempt.Resolves.work (hattempt : attempt.Resolves root last)
    (hkeeps : (developing root).Keeps attempt watch) (hlast : last.Grounded)
    (hroot : root.Grounded last) (howned : last.Owned root) (hdue : root.Due last ctx run r)
    (h : r.work attempt limit ctx pos run = some (ending, run'))
    (hlater : run'.grammar.Develops last) : ending ≠ .error .unresolved := by
  cases r with
  | node handle shape =>
    change shape.attempt attempt limit ctx pos run = _ at h
    rw [← Script.play_script] at h
    exact hattempt.play hkeeps (Script.within_script limit ctx.view shape pos)
      (Script.resolved_script limit ctx.view shape pos) hdue h hlater
  | link handle l =>
    obtain ⟨found, mid, hfollow⟩ := Act.exists_follow ctx l run
    have hmid := Act.grown_follow hdue.grammar hdue.held hdue.grounded hfollow
    cases found with
    | none =>
      rw [Recognizer.work_link_none hfollow] at h
      cases h
      obtain ⟨x, hx, -⟩ := Act.follow_finds hlast hroot howned hdue hfollow hlater
      cases hx
    | some x =>
      have hx := hmid.2 x rfl
      rw [Recognizer.work_link_some hfollow] at h
      have hrest := Attempt.grown hkeeps hmid.1.1 hx.1 hx.2 h
      obtain ⟨y, hy, hdue'⟩ := Act.follow_finds hlast hroot howned hdue hfollow
        (hrest.2.trans hlater)
      cases hy
      exact hattempt h hdue' hlater

/-- One level of an attempt does not end unresolved when the level below does not. -/
theorem Attempt.resolves_attempt (hattempt : attempt.Resolves root last)
    (hkeeps : (developing root).Keeps attempt watch) (hlast : last.Grounded)
    (hroot : root.Grounded last) (howned : last.Owned root) (limit : Nat) :
    Attempt.Resolves (fun ctx r pos => r.attempt attempt limit ctx pos) root last := by
  intro ctx r pos run ending run' h hdue hlater
  change r.attempt attempt limit ctx pos run = _ at h
  cases hway : run.way r.handle.caching with
  | straight =>
    rw [Recognizer.attempt_eq_of_straight hway] at h
    obtain ⟨⟨end₁, mid⟩, hwork, heq⟩ := Option.map_eq_some_iff.1 h
    cases heq
    have hdue' : root.Due last ctx ((run.entering r pos).atWork r pos) r :=
      hdue.later ⟨hdue.grammar, .refl run.grammar⟩
    exact hattempt.work hkeeps hlast hroot howned hdue' hwork hlater
  | replays ses outcome =>
    rw [Recognizer.attempt_eq_of_replays hway] at h
    cases h
    simp
  | builds s ses =>
    rw [Recognizer.attempt_eq_of_builds hway] at h
    obtain ⟨⟨end₁, mid⟩, hwork, heq⟩ := Option.map_eq_some_iff.1 h
    cases heq
    have hdue' : root.Due last ctx (((run.entering r pos).building ses).atWork r pos) r :=
      hdue.later ⟨hdue.grammar, .refl run.grammar⟩
    have hmid := Recognizer.grown_work hkeeps hdue'.grammar hdue'.held hdue'.grounded hwork
    have hbuilt := mid.grown_built hmid.1 s ses.ordinal end₁
    exact hattempt.work hkeeps hlast hroot howned hdue' hwork (hbuilt.2.trans hlater)

/-- Where every recursive use has its owner within reach, no attempt ends unresolved. -/
theorem exec_resolves (hlast : last.Grounded) (hroot : root.Grounded last)
    (howned : last.Owned root) (limit : Nat) : Attempt.Resolves (exec limit) root last := by
  induction limit with
  | zero =>
    intro ctx r pos run ending run' h
    cases h
  | succ limit ih =>
    exact Attempt.resolves_attempt ih ((developing root).passes_exec limit) hlast hroot howned limit

end Attempts

namespace Grammar

/-- A run in which every recursive use has its owner within reach never ends unresolved, in
whatever way the grammar has been built and used before, and while definitions are being built.
What is within reach is what the root reaches in the end, with all that the deferrals have been
settled with. -/
theorem Underway.resolved {past : Past V α} {scope : Scope V α} {g : Grammar V α}
    {hand : List (Recognizer V α)} (h : Underway past scope g hand) {root : Recognizer V α}
    (hroot : root ∈ hand) (limit : Nat) (input : Fragments) (values : List V) :
    (∀ options report, g.parse? limit root input values options = some report →
      report.grammar.Owned root → report.ending ≠ .error .unresolved) ∧
    ∀ window pos report, g.exec? limit root input values window pos = some report →
      report.grammar.Owned root → report.ending ≠ .error .unresolved := by
  have hg := h.tended.1.grounded
  have hgrounded := h.tended.1.hand_grounded root hroot
  constructor
  · intro options report hreport howned
    let q : Query V α := ⟨root, input, values, options⟩
    have hparsed : q.parse? g limit = some report := hreport
    obtain ⟨hlast, hdevelops, mid, hmid, hlater⟩ := hg.parsed hgrounded hparsed
    have hopened := ({ grammar := g } : Run V α).grown_opened hg q.context root
    exact exec_resolves hlast (hdevelops.widens.grounded hgrounded) howned limit hmid
      ⟨hopened.1, List.mem_cons_self, hopened.2.widens.grounded hgrounded, .root⟩ hlater
  · intro window pos report hreport howned
    obtain ⟨hlast, hdevelops⟩ := hg.attempted hgrounded hreport
    obtain ⟨⟨ending, mid⟩, hmid, rfl⟩ := Option.map_eq_some_iff.1 hreport
    exact exec_resolves hlast (hdevelops.widens.grounded hgrounded) howned limit hmid
      ⟨hg, List.mem_cons_self, hgrounded, .root⟩ (.refl _)

/-! ## An example -/

/-- Two definitions, one inside the other.  What a deferral in the inner one builds uses both. -/
def twofold : Recognizer Nat Nat × Grammar Nat Nat :=
  build [] (.recursive "outer" (.choice [
    .recursive "inner" (.sequence [.literal ['a'],
      .deferred "late" (.choice [.ref "outer", .ref "inner"])]),
    .literal ['b']])) {}

/-- The links in the two definitions. -/
def twofoldLinks : List Link := [.definition 0, .definition 1, .deferred 0, .self 0, .self 1]

/-- Whether the two definitions are in the cells of a grammar, with the deferral settled. -/
def holdsTwofold (g : Grammar Nat Nat) : Bool :=
  match g.owned? (.definition 0), g.owned? (.definition 1), g.owned? (.deferred 0) with
  | some (.node _ (.choice [.link _ toInner, .node _ (.leaf _)])),
    some (.node _ (.sequence [.node _ (.leaf _), .link _ toLate])),
    some (.node _ (.choice [.link _ toOuter, .link _ toItself])) =>
    toInner = .definition 1 ∧ toLate = .deferred 0 ∧ toOuter = .self 0 ∧ toItself = .self 1
  | _, _, _ => false

theorem owned_of_holdsTwofold {g : Grammar Nat Nat} (h : g.holdsTwofold = true) (root : Handle) :
    g.Owned (.link root (.definition 0)) := by
  unfold holdsTwofold at h
  split at h
  next houter hinner hlate =>
    obtain ⟨rfl, rfl, rfl, rfl⟩ := of_decide_eq_true h
    have hlinks : ∀ handle l, (Recognizer.link root (.definition 0)).Reaches g.content?
        (.link handle l) → l ∈ twofoldLinks := by
      intro handle l h
      refine Recognizer.linksIn_link.1 (h.linksIn (by simp [twofoldLinks]) ?_)
      intro l hl r hr
      have hcell : some r = g.owned? (.definition 0) ∨ some r = g.owned? (.definition 1) ∨
          some r = g.owned? (.deferred 0) := by
        simp only [twofoldLinks, List.mem_cons, List.not_mem_nil, or_false] at hl
        rcases hl with rfl | rfl | rfl | rfl | rfl
        · exact .inl hr.symm
        · exact .inr (.inl hr.symm)
        · exact .inr (.inr hr.symm)
        · exact .inl hr.symm
        · exact .inr (.inl hr.symm)
      rw [houter, hinner, hlate] at hcell
      rcases hcell with heq | heq | heq <;> cases heq <;> simp [Shape.parts, twofoldLinks]
    have hcells : ∀ {handle cell}, (Recognizer.link root (.definition 0)).Reaches g.content?
        (.link handle (.self cell)) → cell = 0 ∨ cell = 1 := by
      intro handle cell h
      simpa [twofoldLinks] using hlinks handle _ h
    constructor
    · intro handle cell h
      rcases hcells h with rfl | rfl
      · exact ⟨root, .root⟩
      · exact ⟨_, .part (.target .root houter) List.mem_cons_self⟩
    · intro handle h
      simpa [twofoldLinks] using hlinks handle _ h
  · cases h

/-- A run through both definitions builds what was deferred, and does not end unresolved. -/
theorem twofold_resolved : ∃ report,
    twofold.2.parse? 20 twofold.1 ⟨[['a', 'a', 'b']]⟩ [] {} = some report ∧
    report.ending.isMatch = true ∧ report.grammar.Owned twofold.1 ∧
    report.ending ≠ .error .unresolved := by
  have hruns : (twofold.2.parse? 20 twofold.1 ⟨[['a', 'a', 'b']]⟩ [] {}).any (fun report =>
      report.ending.isMatch && report.grammar.holdsTwofold) = true := by decide +kernel
  obtain ⟨report, hreport, hruns⟩ := (Option.any_eq_true _ _).1 hruns
  obtain ⟨hmatch, hcells⟩ := Bool.and_eq_true_iff.1 hruns
  have howned : report.grammar.Owned twofold.1 := by
    rw [twofold, build_recursive]
    exact owned_of_holdsTwofold hcells _
  have hunderway : Underway {} [] twofold.2 [twofold.1] := .build .empty _
  exact ⟨report, hreport, hmatch, howned,
    (hunderway.resolved List.mem_cons_self 20 _ []).1 {} report hreport howned⟩

end Grammar

end SlotGrammar
