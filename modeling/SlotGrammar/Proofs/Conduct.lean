import SlotGrammar.Proofs.Following
import SlotGrammar.Proofs.Snapshots

/-!
# What every step keeps

A property of the states of a run holds in all of them when it holds at the start and
every step keeps it.  The steps of a run are few: a call is straight, replayed or builds
its outcome, a link is followed, a parse is opened and settled inside the run, outcomes
are dropped, and things are noted.  A conduct says what each of these keeps.  This file
draws the conclusion for all runs, those that never end included.

Main results:

- Theorem `Conduct.passes_exec`: the conduct holds throughout every attempt.
- Theorem `Act.follow_cases`: following a link raises no error, and at most builds what was
  deferred.
-/

namespace SlotGrammar

variable {V α : Type}

/-! ## Conducts -/

/-- Whether an event is no step of a call. -/
def Event.isAside : Event V α → Bool
  | .missed _ => true
  | .tallied _ => true
  | .probed _ _ _ _ _ => true
  | _ => false

/-- The snapshots of a call, given those between its start and its end. -/
def Snapshot.around (nesting : Nesting V α) (r : Recognizer V α) (pos : Position)
    (run : Run V α) (between : List (Snapshot V α)) (ending : Ending V α) (after : Run V α) :
    List (Snapshot V α) :=
  ⟨.entered r.handle pos, nesting, run⟩ ::
    (between ++ [⟨.returned r.handle pos ending, nesting, after⟩])

/-- What the states of a run keep, and what leads from one to another. -/
structure Conduct (V α : Type) where
  /-- The states that a run may be in. -/
  Ok : Nesting V α → Run V α → Prop
  /-- The recognizers that may be attempted in a grammar. -/
  Knows : Grammar V α → Recognizer V α → Prop
  /-- The contexts in which recognizers may be attempted. -/
  Sees : Context V α → Prop
  /-- What leads from one state past some snapshots to another one. -/
  Goes : Run V α → List (Snapshot V α) → Run V α → Prop
  /-- What holds of every snapshot. -/
  Fair : Snapshot V α → Prop
  refl : ∀ run, Goes run [] run
  trans : ∀ {run run' run'' : Run V α} {l l' : List (Snapshot V α)},
    Goes run l run' → Goes run' l' run'' → Goes run (l ++ l') run''
  knows_goes : ∀ {run run' : Run V α} {l : List (Snapshot V α)} {r : Recognizer V α},
    Goes run l run' → Knows run.grammar r → Knows run'.grammar r
  knows_part : ∀ {g : Grammar V α} {handle : Handle} {shape : Shape V α (Recognizer V α)}
    {p : Recognizer V α}, Knows g (.node handle shape) → p ∈ shape.parts → Knows g p
  entered : ∀ {nesting : Nesting V α} {run : Run V α} (r : Recognizer V α) (pos : Position),
    Ok nesting run → Fair ⟨.entered r.handle pos, nesting, run⟩
  working : ∀ {nesting : Nesting V α} {run : Run V α} (r : Recognizer V α) (pos : Position),
    Ok nesting run → Fair ⟨.working r.handle pos, nesting, run⟩
  returned : ∀ {nesting : Nesting V α} {run : Run V α} (r : Recognizer V α) (pos : Position)
    (ending : Ending V α), Ok nesting run → Fair ⟨.returned r.handle pos ending, nesting, run⟩
  noted : ∀ {nesting : Nesting V α} {run : Run V α} (event : Event V α), event.isAside = true →
    Ok nesting run → Ok nesting (run.noted event) ∧ Goes run [] (run.noted event)
  cleared : ∀ {nesting : Nesting V α} {run : Run V α} {handle : Handle} {t p : Recognizer V α},
    Ok nesting run → Knows run.grammar (.node handle (.clearing t p)) →
    Ok nesting { run with grammar := run.grammar.dropTraces t } ∧
      Goes run [] { run with grammar := run.grammar.dropTraces t }
  followed : ∀ {nesting : Nesting V α} {run run' : Run V α} {ctx : Context V α} {handle : Handle}
    {target : Link} {found : Option (Context V α × Recognizer V α)},
    Ok nesting run → Sees ctx → Knows run.grammar (.link handle target) →
    Act.follow ctx target run = some (.ok found, run') →
    Ok nesting run' ∧ Goes run [] run' ∧ ∀ x ∈ found, Sees x.1 ∧ Knows run'.grammar x.2
  straight : ∀ {nesting : Nesting V α} {run : Run V α} {r : Recognizer V α} (pos : Position),
    Ok nesting run → Knows run.grammar r → run.way r.handle.caching = .straight →
    let start := (run.entering r pos).atWork r pos
    Ok nesting start ∧ ∀ l mid ending, Ok nesting mid → Goes start l mid →
      let after := mid.leaving r pos ending
      Ok nesting after ∧ Goes run (Snapshot.around nesting r pos run
        (⟨.working r.handle pos, nesting, start⟩ :: l) ending after) after
  replays : ∀ {nesting : Nesting V α} {run : Run V α} {r : Recognizer V α} (pos : Position)
    {ses : Session} {outcome : Outcome V α}, Ok nesting run → Knows run.grammar r →
    run.way r.handle.caching = .replays ses outcome →
    let after := ((run.entering r pos).withSession (some ses.reserve)).leaving r pos (.ok outcome)
    Ok nesting after ∧
      Goes run (Snapshot.around nesting r pos run [] (.ok outcome) after) after
  builds : ∀ {nesting : Nesting V α} {run : Run V α} {r : Recognizer V α} (pos : Position)
    {s : StoreId} {ses : Session}, Ok nesting run → Knows run.grammar r →
    run.way r.handle.caching = .builds s ses →
    let inside := nesting.work ses.ordinal
    let start := ((run.entering r pos).building ses).atWork r pos
    Ok inside start ∧ ∀ l mid ending, Ok inside mid → Goes start l mid →
      let after := (Act.built s ses.ordinal ending mid).leaving r pos ending
      (∀ snap ∈ Snapshot.afterWork nesting s ses.ordinal ending mid, Fair snap) ∧
        Ok nesting after ∧ Goes run (Snapshot.around nesting r pos run
          (⟨.working r.handle pos, inside, start⟩ ::
            (l ++ Snapshot.afterWork nesting s ses.ordinal ending mid)) ending after) after
  nested : ∀ {nesting : Nesting V α} {run : Run V α} {ctx : Context V α} {handle : Handle}
    {sub : Subparse V} {p : Recognizer V α}, Ok nesting run → Sees ctx →
    Knows run.grammar (.node handle (.nested sub p)) →
    let opened := run.opened (ctx.inside sub p) p
    let inside := nesting.enter p sub.input run.session
    Ok inside opened ∧ Sees (ctx.inside sub p) ∧ Knows opened.grammar p ∧
      ∀ l mid ending, Ok inside mid → Goes opened l mid →
        let after := mid.closed run.session ending
        let last : Snapshot V α := ⟨.finished run.grammar.nextSession, nesting, after⟩
        Fair last ∧ Ok nesting after ∧ Goes run (l ++ [last]) after

namespace Conduct

variable {C : Conduct V α}

/-! ## Passing from state to state -/

/-- Whether all snapshots of an action are fair, and the action leads past them to a state
that a run may be in, if it ends. -/
structure Passes (C : Conduct V α) (nesting : Nesting V α) (run : Run V α)
    (l : List (Snapshot V α)) (result : Option (Ending V α × Run V α)) : Prop where
  fair : ∀ snap ∈ l, C.Fair snap
  goes : ∀ ending run', result = some (ending, run') → C.Ok nesting run' ∧ C.Goes run l run'

section Passing

variable {nesting : Nesting V α} {run mid : Run V α} {l : List (Snapshot V α)}
  {result : Option (Ending V α × Run V α)}

/-- An action that ends where it starts. -/
theorem Passes.rest (h : C.Ok nesting run) (ending : Ending V α) :
    C.Passes nesting run [] (some (ending, run)) := by
  constructor
  · simp
  · intro ending' run' heq
    cases heq
    exact ⟨h, C.refl run⟩

/-- An action without a result and without snapshots. -/
theorem Passes.exhausted : C.Passes nesting run [] none := by
  constructor
  · simp
  · intro ending run' heq
    cases heq

/-- A step before an action. -/
theorem Passes.after {l' : List (Snapshot V α)} (h : C.Passes nesting mid l result)
    (hfair : ∀ snap ∈ l', C.Fair snap) (hgoes : C.Goes run l' mid) :
    C.Passes nesting run (l' ++ l) result := by
  constructor
  · intro snap hsnap
    rcases List.mem_append.1 hsnap with hold | hnew
    · exact hfair snap hold
    · exact h.fair snap hnew
  · intro ending run' heq
    have hrest := h.goes ending run' heq
    exact ⟨hrest.1, C.trans hgoes hrest.2⟩

/-- A silent step before an action. -/
theorem Passes.afterSilent (h : C.Passes nesting mid l result) (hgoes : C.Goes run [] mid) :
    C.Passes nesting run l result := by
  have hrest : C.Passes nesting run ([] ++ l) result := h.after (by simp) hgoes
  exact hrest

/-- An action goes on after its first part. -/
theorem Passes.bind (h : C.Passes nesting run l result)
    {next : Ending V α × Run V α → Option (Ending V α × Run V α)}
    {rest : Ending V α → Run V α → List (Snapshot V α)}
    (hnext : ∀ x, result = some x → C.Ok nesting x.2 →
      C.Passes nesting x.2 (rest x.1 x.2) (next x)) :
    C.Passes nesting run (l ++ Snapshot.afterwards result rest) (result.bind next) := by
  cases result with
  | none =>
    constructor
    · simpa [Snapshot.afterwards] using h.fair
    · intro ending run' heq
      cases heq
  | some x =>
    have hmid := h.goes x.1 x.2 rfl
    have hrest := hnext x rfl hmid.1
    constructor
    · intro snap hsnap
      rcases List.mem_append.1 hsnap with hold | hnew
      · exact h.fair snap hold
      · exact hrest.fair snap hnew
    · intro ending run' heq
      have hend := hrest.goes ending run' heq
      exact ⟨hend.1, C.trans hmid.2 hend.2⟩

end Passing

/-- Whether attempts keep a conduct, past the snapshots that a watch lists. -/
def Keeps (C : Conduct V α) (attempt : Attempt V α) (watch : Watch V α) : Prop :=
  ∀ nesting ctx r pos run, C.Ok nesting run → C.Sees ctx → C.Knows run.grammar r →
    C.Passes nesting run (watch nesting ctx r pos run) (attempt ctx r pos run)

/-! ## One level of an attempt -/

section Level

variable {attempt : Attempt V α} {watch : Watch V α} {limit : Nat} {nesting : Nesting V α}
  {ctx : Context V α} {run : Run V α}

/-- A parse inside a run keeps a conduct when the attempts in it do. -/
theorem passes_inSession (h : C.Keeps attempt watch) (hok : C.Ok nesting run)
    (hsees : C.Sees ctx) {handle : Handle} {sub : Subparse V} {p : Recognizer V α}
    (hknows : C.Knows run.grammar (.node handle (.nested sub p))) :
    let inner := ctx.inside sub p
    let result := Act.inSession inner p (attempt inner p .start) run
    C.Passes nesting run
      (watch (nesting.enter p sub.input run.session) inner p .start (run.opened inner p) ++
        Snapshot.afterwards result fun _ after =>
          [⟨.finished run.grammar.nextSession, nesting, after⟩])
      result := by
  intro inner result
  have hopened := C.nested hok hsees hknows
  have hinside := h (nesting.enter p sub.input run.session) inner p .start (run.opened inner p)
    hopened.1 hopened.2.1 hopened.2.2.1
  have hresult : result = (attempt inner p .start (run.opened inner p)).map fun x =>
      (x.1, x.2.closed run.session x.1) := Act.inSession_eq _ _ _ _
  rw [hresult]
  cases hattempt : attempt inner p .start (run.opened inner p) with
  | none =>
    constructor
    · simpa [Snapshot.afterwards] using hinside.fair
    · intro ending run' heq
      cases heq
  | some x =>
    have hmid := hinside.goes x.1 x.2 hattempt
    have hclosed := hopened.2.2.2 _ x.2 x.1 hmid.1 hmid.2
    constructor
    · intro snap hsnap
      rcases List.mem_append.1 hsnap with hold | hnew
      · exact hinside.fair snap hold
      · rw [List.mem_singleton.1 hnew]
        exact hclosed.1
    · intro ending run' heq
      cases heq
      exact hclosed.2

/-- A script of a shape keeps a conduct when the attempts in it do. -/
theorem passes_play (h : C.Keeps attempt watch) (hsees : C.Sees ctx) {handle : Handle}
    {shape : Shape V α (Recognizer V α)} {script : Script V α} (hscript : script.Within shape)
    (hok : C.Ok nesting run) (hknows : C.Knows run.grammar (.node handle shape)) :
    C.Passes nesting run (script.snapshots attempt watch nesting ctx run)
      (script.play attempt ctx run) := by
  induction hscript generalizing run with
  | ended ending =>
    change C.Passes nesting run [] (Act.endAs ending run)
    rw [Act.endAs_apply]
    exact .rest hok ending
  | exhausted => exact .exhausted
  | @call p pos next hp _ _ ih =>
    have hcall := h nesting ctx p pos run hok hsees (C.knows_part hknows hp)
    rw [Script.play_call_apply]
    refine hcall.bind ?_
    intro x hx hokx
    exact ih x.1 hokx (C.knows_goes (hcall.goes x.1 x.2 hx).2 hknows)
  | @nest sub p next hshape _ ih =>
    subst hshape
    let inner := ctx.inside sub p
    have hinside := passes_inSession h hok hsees hknows
    let result := Act.inSession inner p (attempt inner p .start) run
    have hall : C.Passes nesting run
        (_ ++ Snapshot.afterwards result fun ending after =>
          (next ending).snapshots attempt watch nesting ctx after)
        (result.bind fun x => (next x.1).play attempt ctx x.2) :=
      hinside.bind fun x hx hokx =>
        ih x.1 hokx (C.knows_goes (hinside.goes x.1 x.2 hx).2 hknows)
    rw [Script.play_nest_apply, Script.snapshots]
    cases hresult : Act.inSession inner p (attempt inner p .start) run with
    | none => simpa [Snapshot.afterwards, inner, result, hresult] using hall
    | some x => simpa [Snapshot.afterwards, inner, result, hresult] using hall
  | @clear t p next hshape _ ih =>
    subst hshape
    have hcleared := C.cleared hok hknows
    exact (ih hcleared.1 (C.knows_goes hcleared.2 hknows)).afterSilent hcleared.2
  | @note event next hevent _ ih =>
    have haside : event.isAside = true := by
      rcases hevent with ⟨pos, rfl⟩ | ⟨label, rfl⟩
      · rfl
      · rfl
    have hnoted := C.noted event haside hok
    exact (ih hnoted.1 (C.knows_goes hnoted.2 hknows)).afterSilent hnoted.2
  | @probe label p pos hshape =>
    have hcall := h nesting ctx p pos run hok hsees
      (C.knows_part hknows (by simp [hshape, Shape.parts]))
    change C.Passes nesting run (watch nesting ctx p pos run)
      (Part.probed label (attempt ctx p) pos run)
    rw [Part.probed_eq]
    constructor
    · exact hcall.fair
    · intro ending run' heq
      rcases Option.map_eq_some_iff.1 heq with ⟨x, hx, hend⟩
      cases hend
      have hmid := hcall.goes x.1 x.2 hx
      have hnoted := C.noted (.probed label pos run.ordinal? x.2.ordinal? x.1) rfl hmid.1
      have hgoes := C.trans hmid.2 hnoted.2
      rw [List.append_nil] at hgoes
      exact ⟨hnoted.1, hgoes⟩

end Level

end Conduct

/-! ## Links -/

/-- The state in which a deferral has been settled with what was built. -/
def Run.supplied (run : Run V α) (cell : Nat) (label : String)
    (built : Recognizer V α × Grammar V α) : Run V α :=
  { (run.noted (.tallied label)) with grammar := (Grammar.settle cell built.1 built.2).2 }

/-- A deferral that has not been settled is built when it is asked for. -/
theorem Act.settled_of_unsettled {cell : Nat} {run : Run V α} {label : String} {e : Expr V α}
    {scope : Grammar.Scope V α}
    (hcell : run.grammar.deferrals[cell]? = some (.awaiting label e scope)) :
    Act.settled cell run = some (.ok (some (Grammar.build scope e run.grammar).1),
      run.supplied cell label (Grammar.build scope e run.grammar)) := by
  unfold Act.settled
  rw [Act.bind_apply, Act.get_apply, Option.bind_some]
  simp only [hcell]
  rfl

/-- A deferral has been settled before, or is settled with what is built now. -/
theorem Act.settled_cases (cell : Nat) (run : Run V α) :
    (∃ found, Act.settled cell run = some (.ok found, run) ∧
        ∀ r ∈ found, run.grammar.deferrals[cell]? = some (.settled r)) ∨
      ∃ label e scope, run.grammar.deferrals[cell]? = some (.awaiting label e scope) ∧
        Act.settled cell run = some (.ok (some (Grammar.build scope e run.grammar).1),
          run.supplied cell label (Grammar.build scope e run.grammar)) := by
  cases hcell : run.grammar.deferrals[cell]? with
  | none =>
    left
    exact ⟨none, Act.settled_of_none hcell, by simp⟩
  | some deferral =>
    cases deferral with
    | settled r =>
      left
      refine ⟨some r, Act.settled_of_settled hcell, ?_⟩
      intro r' hr'
      cases hr'
      rfl
    | awaiting label e scope =>
      right
      exact ⟨label, e, scope, rfl, Act.settled_of_unsettled hcell⟩

/-- Following a link raises no error.  It changes nothing, or builds a recognizer that was
deferred. -/
theorem Act.follow_cases (ctx : Context V α) (l : Link) (run : Run V α) :
    (∃ found, Act.follow ctx l run = some (.ok found, run) ∧ ∀ x ∈ found,
        (∃ cell : Nat, run.grammar.definitions[cell]? = some (some x.2)) ∨
          ∃ cell : Nat, run.grammar.deferrals[cell]? = some (.settled x.2)) ∨
      ∃ cell label e scope, run.grammar.deferrals[cell]? = some (.awaiting label e scope) ∧
        Act.follow ctx l run = some (.ok (some (ctx, (Grammar.build scope e run.grammar).1)),
          run.supplied cell label (Grammar.build scope e run.grammar)) := by
  have hdefined : ∀ (cell : Nat) (r : Recognizer V α),
      run.grammar.definitions[cell]?.join = some r →
      run.grammar.definitions[cell]? = some (some r) := by
    intro cell r hr
    simpa [Option.join_eq_some_iff] using hr
  cases l with
  | unbound =>
    left
    exact ⟨none, rfl, by simp⟩
  | definition cell =>
    left
    refine ⟨_, rfl, ?_⟩
    intro x hx
    rcases Option.map_eq_some_iff.1 hx with ⟨r, hr, rfl⟩
    exact .inl ⟨cell, hdefined cell r hr⟩
  | self cell =>
    left
    refine ⟨_, rfl, ?_⟩
    intro x hx
    rcases Option.map_eq_some_iff.1 hx with ⟨r, hr, rfl⟩
    unfold Grammar.definition? at hr
    split at hr
    · exact .inl ⟨cell, hdefined cell r hr⟩
    · cases hr
  | deferred cell =>
    have hstep : Act.follow ctx (.deferred cell) run =
        (Act.settled cell >>= fun found => pure (found.map fun r => (ctx, r))) run := rfl
    rw [hstep, Act.bind_apply]
    rcases Act.settled_cases cell run with ⟨found, hsettled, hfound⟩ |
      ⟨label, e, scope, hcell, hsettled⟩
    · left
      refine ⟨found.map fun r => (ctx, r), by rw [hsettled]; rfl, ?_⟩
      intro x hx
      rcases Option.map_eq_some_iff.1 hx with ⟨r, hr, rfl⟩
      exact .inr ⟨cell, hfound r hr⟩
    · right
      exact ⟨cell, label, e, scope, hcell, by rw [hsettled]; rfl⟩

/-- Following a link comes to an end. -/
theorem Act.exists_follow (ctx : Context V α) (l : Link) (run : Run V α) :
    ∃ found mid, Act.follow ctx l run = some (.ok found, mid) := by
  rcases Act.follow_cases ctx l run with ⟨found, hfollow, -⟩ | ⟨_, _, _, _, -, hfollow⟩
  · exact ⟨found, run, hfollow⟩
  · exact ⟨_, _, hfollow⟩

namespace Conduct

variable {C : Conduct V α}

/-! ## Attempts -/

section Attempts

variable {attempt : Attempt V α} {watch : Watch V α} {limit : Nat} {nesting : Nesting V α}
  {ctx : Context V α} {r : Recognizer V α} {pos : Position} {run : Run V α}

/-- A recognizer's own logic keeps a conduct when the attempts in it do. -/
theorem passes_work (h : C.Keeps attempt watch) (limit : Nat) (pos : Position)
    (hok : C.Ok nesting run) (hsees : C.Sees ctx) (hknows : C.Knows run.grammar r) :
    C.Passes nesting run (r.workSnapshots attempt watch limit nesting ctx pos run)
      (r.work attempt limit ctx pos run) := by
  cases r with
  | node handle shape =>
    change C.Passes nesting run _ (shape.attempt attempt limit ctx pos run)
    rw [← Script.play_script]
    exact passes_play h hsees (Script.within_script limit ctx.view shape pos) hok hknows
  | link handle target =>
    rcases Act.exists_follow ctx target run with ⟨found, mid, hfollow⟩
    have hmid := C.followed hok hsees hknows hfollow
    cases found with
    | none =>
      rw [Recognizer.work_link_none hfollow, Recognizer.workSnapshots, hfollow]
      exact (Passes.rest hmid.1 _).afterSilent hmid.2.1
    | some x =>
      have hx := hmid.2.2 x rfl
      rw [Recognizer.work_link_some hfollow, Recognizer.workSnapshots, hfollow]
      exact (h nesting x.1 x.2 pos mid hmid.1 hx.1 hx.2).afterSilent hmid.2.1

/-- The snapshots of an attempt are those around it, if it ends, and begin with these in
any case. -/
theorem passes_of_around {between : List (Snapshot V α)} {result : Option (Ending V α × Run V α)}
    (hok : C.Ok nesting run) (hfair : ∀ snap ∈ between, C.Fair snap)
    (hgoes : ∀ ending after, result = some (ending, after) → C.Ok nesting after ∧
      C.Goes run (Snapshot.around nesting r pos run between ending after) after) :
    C.Passes nesting run
      (⟨.entered r.handle pos, nesting, run⟩ ::
        (between ++ Snapshot.afterwards result fun ending after =>
          [⟨.returned r.handle pos ending, nesting, after⟩]))
      result := by
  constructor
  · intro snap hsnap
    rcases List.mem_cons.1 hsnap with rfl | hsnap
    · exact C.entered r pos hok
    · rcases List.mem_append.1 hsnap with hold | hnew
      · exact hfair snap hold
      · cases result with
        | none => cases hnew
        | some x =>
          rw [List.mem_singleton.1 hnew]
          exact C.returned r pos x.1 (hgoes x.1 x.2 rfl).1
  · intro ending after heq
    subst heq
    exact hgoes ending after rfl

/-- The snapshots of a call between its start and its end are fair. -/
theorem fair_callSnapshots (h : C.Keeps attempt watch) (limit : Nat) (pos : Position)
    (hok : C.Ok nesting run) (hsees : C.Sees ctx) (hknows : C.Knows run.grammar r) :
    ∀ snap ∈ r.callSnapshots attempt watch limit nesting ctx pos run, C.Fair snap := by
  intro snap hsnap
  unfold Recognizer.callSnapshots at hsnap
  cases hway : run.way r.handle.caching with
  | straight =>
    have hstart := C.straight pos hok hknows hway
    have hwork := passes_work (r := r) h limit pos hstart.1 hsees hknows
    rw [hway] at hsnap
    rcases List.mem_cons.1 hsnap with rfl | hsnap
    · exact C.working r pos hstart.1
    · exact hwork.fair snap hsnap
  | replays ses o =>
    rw [hway] at hsnap
    cases hsnap
  | builds s ses =>
    have hstart := C.builds pos hok hknows hway
    have hwork := passes_work (r := r) h limit pos hstart.1 hsees hknows
    rw [hway] at hsnap
    rcases List.mem_cons.1 hsnap with rfl | hsnap
    · exact C.working r pos hstart.1
    · rcases List.mem_append.1 hsnap with hinside | hafter
      · exact hwork.fair snap hinside
      · cases hresult : r.work attempt limit ctx pos
            (((run.entering r pos).building ses).atWork r pos) with
        | none =>
          rw [hresult] at hafter
          cases hafter
        | some x =>
          have hmid := hwork.goes x.1 x.2 hresult
          rw [hresult] at hafter
          exact (hstart.2 _ x.2 x.1 hmid.1 hmid.2).1 snap hafter

/-- One level of an attempt keeps a conduct when the level below does. -/
theorem passes_attempt (h : C.Keeps attempt watch) (limit : Nat) :
    C.Keeps (Recognizer.attempt attempt limit · · ·)
      (Recognizer.snapshots attempt watch limit) := by
  intro nesting ctx r pos run hok hsees hknows
  apply passes_of_around hok (fair_callSnapshots h limit pos hok hsees hknows)
  intro ending after heq
  unfold Recognizer.callSnapshots
  cases hway : run.way r.handle.caching with
  | straight =>
    have hstart := C.straight pos hok hknows hway
    have hwork := passes_work (r := r) h limit pos hstart.1 hsees hknows
    rw [Recognizer.attempt_eq_of_straight hway] at heq
    rcases Option.map_eq_some_iff.1 heq with ⟨x, hx, hend⟩
    cases hend
    have hmid := hwork.goes x.1 x.2 hx
    exact hstart.2 _ x.2 x.1 hmid.1 hmid.2
  | replays ses o =>
    rw [Recognizer.attempt_eq_of_replays hway] at heq
    cases heq
    exact C.replays pos hok hknows hway
  | builds s ses =>
    have hstart := C.builds pos hok hknows hway
    have hwork := passes_work (r := r) h limit pos hstart.1 hsees hknows
    rw [Recognizer.attempt_eq_of_builds hway] at heq
    rcases Option.map_eq_some_iff.1 heq with ⟨x, hx, hend⟩
    cases hend
    have hmid := hwork.goes x.1 x.2 hx
    dsimp only
    rw [hx]
    exact (hstart.2 _ x.2 x.1 hmid.1 hmid.2).2

/-- A conduct holds throughout every attempt. -/
theorem passes_exec (C : Conduct V α) (limit : Nat) : C.Keeps (exec limit) (snapshots limit) := by
  induction limit with
  | zero =>
    intro nesting ctx r pos run hok hsees hknows
    exact .exhausted
  | succ limit ih => exact passes_attempt ih limit

end Attempts

end Conduct

end SlotGrammar
