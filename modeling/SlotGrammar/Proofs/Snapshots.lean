import SlotGrammar.Proofs.Tracking

/-!
# Snapshots

A run passes through many states before it ends, and it may never end.  This file lists
them: the states in which recognizers are entered and return, in which their own logic
starts, in which a call with a cache comes back to record its outcome, and in which a
parse inside the run is over.  Each state comes with the parses that are in flight then.

Main results:

- Theorem `attempt_eq_of_builds`: a call that builds its outcome, as a function of the
  state.
- Theorem `built_ok`: a call records its outcome in the state that the rollback leaves.
-/

namespace SlotGrammar

variable {V α : Type}

/-! ## Parses in flight -/

/-- A parse in flight: where it started, what it parses, and the ordinals of its calls
with a cache that run their own logic, the innermost first. -/
structure Frame (V α : Type) where
  root : Recognizer V α
  input : Fragments
  working : List Nat := []

/-- A parse while a call with a cache runs its own logic. -/
def Frame.work (frame : Frame V α) (ordinal : Nat) : Frame V α :=
  { frame with working := ordinal :: frame.working }

/-- Some parses in flight, the innermost first, each with its session. -/
abbrev Flight (V α : Type) := List (Frame V α × Option Session)

/-- The parses in flight: the innermost one, and those around it with their sessions as
they were left. -/
structure Nesting (V α : Type) where
  frame : Frame V α
  outer : Flight V α := []

namespace Nesting

/-- The parses in flight while a call with a cache runs its own logic. -/
def work (nesting : Nesting V α) (ordinal : Nat) : Nesting V α :=
  { nesting with frame := nesting.frame.work ordinal }

/-- The parses in flight when one more is started. -/
def enter (nesting : Nesting V α) (root : Recognizer V α) (input : Fragments)
    (session : Option Session) : Nesting V α :=
  ⟨{ root, input }, (nesting.frame, session) :: nesting.outer⟩

/-- The parses in flight, given the session of the innermost one. -/
def inFlight (nesting : Nesting V α) (session : Option Session) : Flight V α :=
  (nesting.frame, session) :: nesting.outer

end Nesting

/-- What happens in a snapshot. -/
inductive Occasion (V α : Type) where
  /-- A recognizer is attempted. -/
  | entered (handle : Handle) (pos : Position)
  /-- Its own logic starts. -/
  | working (handle : Handle) (pos : Position)
  /-- The own logic of a call with a cache is over, and the call is still counted. -/
  | worked (ordinal : Nat) (ending : Ending V α)
  /-- The ordinals below a call have been taken back, and its outcome is to be recorded. -/
  | settling (store : StoreId) (ordinal : Nat) (outcome : Outcome V α)
  /-- The attempt has ended. -/
  | returned (handle : Handle) (pos : Position) (ending : Ending V α)
  /-- A parse inside the run is over, and has settled its session if it had one. -/
  | finished (session : SessionId)

/-- A state of a run, with what happens then and with the parses in flight. -/
structure Snapshot (V α : Type) where
  occasion : Occasion V α
  nesting : Nesting V α
  run : Run V α

/-! ## One call -/

/-- How a call goes on. -/
inductive Way (V α : Type) where
  /-- The recognizer works, without a cache or without a session. -/
  | straight
  /-- An outcome is replayed. -/
  | replays (ses : Session) (outcome : Outcome V α)
  /-- The recognizer works, and its outcome is recorded. -/
  | builds (store : StoreId) (ses : Session)

namespace Run

/-- How a call with the given caching goes on. -/
def way (run : Run V α) : Caching → Way V α
  | .active s =>
    match run.session with
    | none => .straight
    | some ses =>
      match Act.replay? run s ses with
      | some outcome => .replays ses outcome
      | none => .builds s ses
  | _ => .straight

/-- The state with a call in the log. -/
def entering (run : Run V α) (r : Recognizer V α) (pos : Position) : Run V α :=
  run.noted (.called r.handle pos run.ordinal?)

/-- The state in which a recognizer's own logic starts. -/
def atWork (run : Run V α) (r : Recognizer V α) (pos : Position) : Run V α :=
  run.noted (.worked r.handle pos)

/-- The state in which a call is over. -/
def leaving (run : Run V α) (r : Recognizer V α) (pos : Position) (ending : Ending V α) : Run V α :=
  run.noted (.replied r.handle pos run.ordinal? ending)

/-- The state in which a call has reserved its ordinal and builds its outcome. -/
def building (run : Run V α) (ses : Session) : Run V α :=
  run.withSession (some ses.reserve.beginBuilding)

/-- The state in which a call has taken back the ordinals below its own. -/
def restored (run : Run V α) (k : Nat) : Run V α :=
  match run.session with
  | none => run
  | some ses =>
    (run.withStores (ses.dropFrom (k + 1) run.grammar.stores)).withSession
      (some (ses.endBuilding.rollBack (k + 1)))

/-- The state in which a call has recorded its outcome. -/
def recorded (run : Run V α) (s : StoreId) (k : Nat) (outcome : Outcome V α) : Run V α :=
  match run.session with
  | none => run
  | some ses =>
    (run.withStores (Array.modify run.grammar.stores s fun store =>
      store.record ses.id k outcome)).withSession (some (ses.mark k s))

theorem restored_of_session {run : Run V α} {ses : Session} (h : run.session = some ses) (k : Nat) :
    run.restored k =
      (run.withStores (ses.dropFrom (k + 1) run.grammar.stores)).withSession
        (some (ses.endBuilding.rollBack (k + 1))) := by
  unfold restored
  rw [h]

theorem recorded_of_session {run : Run V α} {ses : Session} (h : run.session = some ses)
    (s : StoreId) (k : Nat) (outcome : Outcome V α) :
    run.recorded s k outcome =
      (run.withStores (Array.modify run.grammar.stores s fun store =>
        store.record ses.id k outcome)).withSession (some (ses.mark k s)) := by
  unfold recorded
  rw [h]

theorem built_error {run : Run V α} {ses : Session} (h : run.session = some ses) (s : StoreId)
    (k : Nat) (e : ParseError) :
    Act.built s k (.error e) run = run.withSession (some ses.endBuilding) := by
  unfold Act.built
  rw [h]
  rfl

/-- What a call has built leaves its session with one call less at work. -/
theorem session_built {run : Run V α} {ses : Session} (h : run.session = some ses) (s : StoreId)
    (k : Nat) (ending : Ending V α) :
    ∃ ses', (Act.built s k ending run).session = some ses' ∧ ses'.id = ses.id ∧
      ses'.key = ses.key ∧ ses'.building = ses.building - 1 := by
  unfold Act.built
  rw [h]
  cases ending with
  | error e => exact ⟨_, rfl, rfl, rfl, rfl⟩
  | ok outcome => exact ⟨_, rfl, rfl, rfl, rfl⟩

/-- A call records its outcome in the state that the rollback leaves. -/
theorem built_ok (s : StoreId) (k : Nat) (outcome : Outcome V α) (run : Run V α) :
    Act.built s k (.ok outcome) run = (run.restored k).recorded s k outcome := by
  obtain ⟨grammar, session, log⟩ := run
  cases session <;> rfl

end Run

section Calls

variable {attempt : Attempt V α} {limit : Nat} {ctx : Context V α} {r : Recognizer V α}
  {pos : Position} {run : Run V α} {s : StoreId} {ses : Session} {o : Outcome V α}

/-- Only a call through a store of a session is not straight. -/
theorem Run.way_eq_builds {caching : Caching} (h : run.way caching = .builds s ses) :
    caching = .active s ∧ run.session = some ses ∧ Act.replay? run s ses = none := by
  unfold way at h
  split at h
  next s' =>
    split at h
    · cases h
    next ses' hses =>
      split at h
      · cases h
      next hreplay =>
        cases h
        exact ⟨rfl, hses, hreplay⟩
  · cases h

theorem Run.way_eq_replays {caching : Caching} (h : run.way caching = .replays ses o) :
    ∃ s, caching = .active s ∧ run.session = some ses ∧ Act.replay? run s ses = some o := by
  unfold way at h
  split at h
  next s' =>
    split at h
    · cases h
    next ses' hses =>
      split at h
      next hreplay =>
        cases h
        exact ⟨s', rfl, hses, hreplay⟩
      · cases h
  · cases h

theorem Run.way_eq_straight {caching : Caching} (h : run.way caching = .straight) :
    caching.isActive = false ∨ run.session = none := by
  unfold way at h
  split at h
  next s' =>
    split at h
    next hses => exact .inr hses
    · split at h <;> cases h
  next hne =>
    left
    cases caching with
    | active s => exact absurd rfl (hne s)
    | never => rfl
    | paused s => rfl

/-- Without a session every call is straight. -/
theorem Run.way_of_no_session (h : run.session = none) (caching : Caching) :
    run.way caching = .straight := by
  unfold way
  rw [h]
  cases caching <;> rfl

/-- A straight call is the work of its recognizer. -/
theorem Recognizer.attempt_eq_of_straight (h : run.way r.handle.caching = .straight) :
    r.attempt attempt limit ctx pos run =
      (r.work attempt limit ctx pos ((run.entering r pos).atWork r pos)).map fun x =>
        (x.1, x.2.leaving r pos x.1) := by
  have hthrough : ∀ work : Act V α (Outcome V α),
      Act.through r.handle.caching work (run.entering r pos) = work (run.entering r pos) := by
    intro work
    cases hcaching : r.handle.caching with
    | never => rfl
    | paused s => rfl
    | active s =>
      rcases Run.way_eq_straight h with hoff | hnone
      · rw [hcaching] at hoff
        cases hoff
      · exact Act.throughStore_no_session s work hnone
  rw [attempt_eq]
  show Option.map _ (Act.through r.handle.caching _ (run.entering r pos)) = _
  rw [hthrough, Act.note_then]
  rfl

/-- A call that is replayed reserves its ordinal. -/
theorem Recognizer.attempt_eq_of_replays (h : run.way r.handle.caching = .replays ses o) :
    r.attempt attempt limit ctx pos run =
      some (.ok o,
        ((run.entering r pos).withSession (some ses.reserve)).leaving r pos (.ok o)) := by
  obtain ⟨s, hcaching, hses, hreplay⟩ := Run.way_eq_replays h
  have hses : (run.entering r pos).session = some ses := hses
  have hreplay : Act.replay? (run.entering r pos) s ses = some o := hreplay
  rw [attempt_eq, hcaching]
  show Option.map _ (Act.throughStore s _ (run.entering r pos)) = _
  rw [Act.throughStore_of_replay hses hreplay]
  rfl

/-- A call that builds its outcome works in between. -/
theorem Recognizer.attempt_eq_of_builds (h : run.way r.handle.caching = .builds s ses) :
    r.attempt attempt limit ctx pos run =
      (r.work attempt limit ctx pos (((run.entering r pos).building ses).atWork r pos)).map fun x =>
        (x.1, (Act.built s ses.ordinal x.1 x.2).leaving r pos x.1) := by
  obtain ⟨hcaching, hses, hreplay⟩ := Run.way_eq_builds h
  have hses : (run.entering r pos).session = some ses := hses
  have hreplay : Act.replay? (run.entering r pos) s ses = none := hreplay
  rw [attempt_eq, hcaching]
  show Option.map _ (Act.throughStore s _ (run.entering r pos)) = _
  rw [Act.throughStore_of_build hses hreplay, Act.note_then, Option.map_map]
  rfl

end Calls

/-! ## The snapshots of a run -/

/-- A way to list the snapshots of the attempts of recognizers. -/
abbrev Watch (V α : Type) :=
  Nesting V α → Context V α → Recognizer V α → Position → Run V α → List (Snapshot V α)

/-- What is seen after an action, if it ends. -/
def Snapshot.afterwards (result : Option (Ending V α × Run V α))
    (see : Ending V α → Run V α → List (Snapshot V α)) : List (Snapshot V α) :=
  match result with
  | none => []
  | some (ending, run) => see ending run

/-- A script goes on after a parse of another input as that has ended. -/
theorem Script.play_nest_apply {attempt : Attempt V α} {ctx : Context V α} (sub : Subparse V)
    (p : Recognizer V α) (next : Ending V α → Script V α) (run : Run V α) :
    (nest sub p next).play attempt ctx run =
      (Act.inSession (ctx.inside sub p) p (attempt (ctx.inside sub p) p .start) run).bind
        fun x => (next x.1).play attempt ctx x.2 := by
  change ((Act.inSession (ctx.inside sub p) p (attempt (ctx.inside sub p) p .start)).attempt >>=
    fun ending => (next ending).play attempt ctx) run = _
  rw [Act.bind_apply, Act.attempt_apply]
  cases Act.inSession (ctx.inside sub p) p (attempt (ctx.inside sub p) p .start) run <;> rfl

/-- The snapshots of a script, given those of the attempts in it. -/
def Script.snapshots (attempt : Attempt V α) (watch : Watch V α) (nesting : Nesting V α)
    (ctx : Context V α) : Script V α → Run V α → List (Snapshot V α)
  | .ended _, _ => []
  | .exhausted, _ => []
  | .call p pos next, run =>
    watch nesting ctx p pos run ++
      Snapshot.afterwards (attempt ctx p pos run) fun ending run =>
        (next ending).snapshots attempt watch nesting ctx run
  | .nest sub p next, run =>
    let inner := ctx.inside sub p
    watch (nesting.enter p sub.input run.session) inner p .start (run.opened inner p) ++
      Snapshot.afterwards (Act.inSession inner p (attempt inner p .start) run) fun ending after =>
        ⟨.finished run.grammar.nextSession, nesting, after⟩ ::
          (next ending).snapshots attempt watch nesting ctx after
  | .clear t next, run =>
    next.snapshots attempt watch nesting ctx { run with grammar := run.grammar.dropTraces t }
  | .note event next, run => next.snapshots attempt watch nesting ctx (run.noted event)
  | .probe _ p pos, run => watch nesting ctx p pos run

/-- The snapshots of a recognizer's own logic, given those of the attempts in it. -/
def Recognizer.workSnapshots (attempt : Attempt V α) (watch : Watch V α) (limit : Nat)
    (nesting : Nesting V α) (ctx : Context V α) :
    Recognizer V α → Position → Run V α → List (Snapshot V α)
  | .node _ shape, pos, run =>
    (shape.script limit ctx.view pos).snapshots attempt watch nesting ctx run
  | .link _ target, pos, run =>
    match Act.follow ctx target run with
    | some (.ok (some (ctx, r)), run) => watch nesting ctx r pos run
    | _ => []

/-- The snapshots of a call with a cache whose own logic is over. -/
def Snapshot.afterWork (nesting : Nesting V α) (s : StoreId) (k : Nat) :
    Ending V α → Run V α → List (Snapshot V α)
  | .error e, run => [⟨.worked k (.error e), nesting.work k, run⟩]
  | .ok outcome, run =>
    [⟨.worked k (.ok outcome), nesting.work k, run⟩,
      ⟨.settling s k outcome, nesting, run.restored k⟩]

/-- What holds when the own logic of a call with a cache is over, and before its outcome is
recorded, holds of all these snapshots. -/
theorem Snapshot.forall_afterWork {p : Snapshot V α → Prop} {nesting : Nesting V α} {s : StoreId}
    {k : Nat} {ending : Ending V α} {run : Run V α}
    (hworked : p ⟨.worked k ending, nesting.work k, run⟩)
    (hsettling : ∀ outcome, p ⟨.settling s k outcome, nesting, run.restored k⟩) :
    ∀ snap ∈ Snapshot.afterWork nesting s k ending run, p snap := by
  intro snap hsnap
  cases ending with
  | error e =>
    rw [List.mem_singleton.1 hsnap]
    exact hworked
  | ok outcome =>
    rcases List.mem_cons.1 hsnap with rfl | hsnap
    · exact hworked
    · rw [List.mem_singleton.1 hsnap]
      exact hsettling outcome

/-- The snapshots of a call between its start and its end. -/
def Recognizer.callSnapshots (attempt : Attempt V α) (watch : Watch V α) (limit : Nat)
    (nesting : Nesting V α) (ctx : Context V α) (r : Recognizer V α) (pos : Position)
    (run : Run V α) : List (Snapshot V α) :=
  match run.way r.handle.caching with
  | .straight =>
    let start := (run.entering r pos).atWork r pos
    ⟨.working r.handle pos, nesting, start⟩ ::
      r.workSnapshots attempt watch limit nesting ctx pos start
  | .replays _ _ => []
  | .builds s ses =>
    let start := ((run.entering r pos).building ses).atWork r pos
    let inside := nesting.work ses.ordinal
    ⟨.working r.handle pos, inside, start⟩ ::
      (r.workSnapshots attempt watch limit inside ctx pos start ++
        Snapshot.afterwards (r.work attempt limit ctx pos start)
          (Snapshot.afterWork nesting s ses.ordinal))

/-- The snapshots of one attempt, given those of the attempts in it. -/
def Recognizer.snapshots (attempt : Attempt V α) (watch : Watch V α) (limit : Nat) : Watch V α :=
  fun nesting ctx r pos run =>
    ⟨.entered r.handle pos, nesting, run⟩ ::
      (r.callSnapshots attempt watch limit nesting ctx pos run ++
        Snapshot.afterwards (r.attempt attempt limit ctx pos run) fun ending after =>
          [⟨.returned r.handle pos ending, nesting, after⟩])

/-- The snapshots of an attempt with a limit on the nesting of attempts, whether or not it
comes to an end. -/
def snapshots : Nat → Watch V α
  | 0 => fun _ _ _ _ _ => []
  | limit + 1 => Recognizer.snapshots (exec limit) (snapshots limit) limit

/-- The snapshots of a parse that others may be around, up to the time when it settles its
session. -/
def parseSnapshots (limit : Nat) (outer : Flight V α) (ctx : Context V α) (root : Recognizer V α)
    (run : Run V α) : List (Snapshot V α) :=
  snapshots limit ⟨{ root, input := ctx.input }, outer⟩ ctx root .start (run.opened ctx root)

end SlotGrammar
