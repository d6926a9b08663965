import SlotGrammar.Proofs.Ledger

/-!
# Tracking runs

A run follows a course when it ends as the course does and moves from state to state
in a way that the marks of the course account for.  Moves compose, so a run follows
the course of a script when it follows the courses of the attempts in it.

Main results:

- Theorem `attempt_eq`: one level of an attempt, as a function of the state.
- Theorem `throughStore_of_build`: a call that builds its outcome.
- Theorem `Tracking.follows_play`: a run follows the course of a script.
-/

namespace SlotGrammar

variable {V α : Type}

/-! ## Steps as functions of the state -/

/-- Whether an attempt ends with a match. -/
def Ending.isMatch : Ending V α → Bool
  | .ok (some _) => true
  | _ => false

theorem Ending.exists_of_isMatch {ending : Ending V α} (h : ending.isMatch = true) :
    ∃ m, ending = .ok (some m) := by
  rcases ending with e | _ | m
  · cases h
  · cases h
  · exact ⟨m, rfl⟩

namespace Run

/-- The state with one more event in the log. -/
def noted (run : Run V α) (event : Event V α) : Run V α := { run with log := event :: run.log }

/-- The ordinal that the next call will reserve, if there is a session. -/
def ordinal? (run : Run V α) : Option Nat := run.session.map Session.ordinal

/-- The state with the session changed. -/
def withSession (run : Run V α) (session : Option Session) : Run V α := { run with session }

/-- The state with the stores changed. -/
def withStores (run : Run V α) (stores : Stores V α) : Run V α :=
  { run with grammar := { run.grammar with stores } }

/-- The state in which a parse starts. -/
def opened (ctx : Context V α) (root : Recognizer V α) (run : Run V α) : Run V α :=
  if ctx.options.cache then
    { run with
      grammar := { run.grammar with nextSession := run.grammar.nextSession + 1 }
      session := some
        { id := run.grammar.nextSession
          key := ⟨root.handle.id, ctx.input.fingerprint⟩ } }
  else { run with session := none }

/-- The state after a parse that ended as given, inside another session or none. -/
def closed (outer : Option Session) (ending : Ending V α) (run : Run V α) : Run V α :=
  match run.session with
  | some ses =>
    { run with
      grammar := { run.grammar with
        stores := ses.finish ending.isMatch run.grammar.stores }
      session := outer }
  | none => { run with session := outer }

/-- The sessions that were started before a parse are started when it starts. -/
theorem nextSession_le_opened (ctx : Context V α) (root : Recognizer V α) (run : Run V α) :
    run.grammar.nextSession ≤ (run.opened ctx root).grammar.nextSession := by
  unfold opened
  split
  · exact Nat.le_succ _
  · exact Nat.le_refl _

/-- A parse that is over gives its session back to the parse around it. -/
@[simp]
theorem session_closed (run : Run V α) (outer : Option Session) (ending : Ending V α) :
    (run.closed outer ending).session = outer := by
  unfold closed
  cases run.session <;> rfl

/-- A parse without a session leaves the stores as they are. -/
theorem closed_of_no_session {run : Run V α} (h : run.session = none) (outer : Option Session)
    (ending : Ending V α) : run.closed outer ending = run.withSession outer := by
  unfold closed
  rw [h]
  rfl

/-- A parse in a session settles it in the stores. -/
theorem closed_of_session {run : Run V α} {ses : Session} (h : run.session = some ses)
    (outer : Option Session) (ending : Ending V α) :
    run.closed outer ending =
      (run.withStores (ses.finish ending.isMatch run.grammar.stores)).withSession outer := by
  unfold closed
  rw [h]
  rfl

/-- The end of a parse starts no session. -/
@[simp]
theorem nextSession_closed (run : Run V α) (outer : Option Session) (ending : Ending V α) :
    (run.closed outer ending).grammar.nextSession = run.grammar.nextSession := by
  unfold closed
  cases run.session <;> rfl

end Run

namespace Act

/-- What a parse does once its attempt is over. -/
def conclude (outer : Option Session) (ending : Ending V α) : Act V α (Outcome V α) := do
  match (← get).session with
  | some session => onStores (session.finish ending.isMatch)
  | none => pure ()
  setSession outer
  endAs ending

/-- What a parse does, as a function of the state. -/
theorem inSession_eq (ctx : Context V α) (root : Recognizer V α) (act : Act V α (Outcome V α))
    (run : Run V α) :
    inSession ctx root act run =
      (act (run.opened ctx root)).map fun x => (x.1, x.2.closed run.session x.1) := by
  have hstep : inSession ctx root act run =
      (act.attempt >>= conclude run.session) (run.opened ctx root) := rfl
  rw [hstep, bind_apply, attempt_apply]
  rcases act (run.opened ctx root) with _ | ⟨ending, grammar, session, log⟩
  · rfl
  · rcases session with _ | ses
    · rcases ending with _ | _ | _ <;> rfl
    · rcases ending with _ | _ | _ <;> rfl

end Act

/-- An action after a note in the log. -/
theorem Act.note_then {β : Type} (event : Event V α) (act : Act V α β) (run : Run V α) :
    (do
      Act.note event
      act) run = act (run.noted event) := rfl

/-- What one level of an attempt does, as a function of the state. -/
theorem Recognizer.attempt_eq (attempt : Attempt V α) (limit : Nat) (ctx : Context V α)
    (r : Recognizer V α) (pos : Position) (run : Run V α) :
    r.attempt attempt limit ctx pos run =
      (Act.through r.handle.caching (do
          Act.note (.worked r.handle pos)
          r.work attempt limit ctx pos)
        (run.noted (.called r.handle pos run.ordinal?))).map fun x =>
          (x.1, x.2.noted (.replied r.handle pos x.2.ordinal? x.1)) := by
  have hstep : r.attempt attempt limit ctx pos run =
      ((Act.through r.handle.caching (do
          Act.note (.worked r.handle pos)
          r.work attempt limit ctx pos)).attempt >>= fun ending => do
        Act.note (.replied r.handle pos (← Act.ordinal?) ending)
        Act.endAs ending) (run.noted (.called r.handle pos run.ordinal?)) := rfl
  rw [hstep, Act.bind_apply, Act.attempt_apply]
  rcases Act.through _ _ _ with _ | ⟨_ | _, _⟩ <;> rfl

/-- A probed attempt ends as the attempt itself, with a note on it in the log. -/
theorem Part.probed_eq (label : String) (part : Part V α) (pos : Position) (run : Run V α) :
    probed label part pos run =
      (part pos run).map fun x =>
        (x.1, x.2.noted (.probed label pos run.ordinal? x.2.ordinal? x.1)) := by
  have hstep : probed label part pos run =
      ((part pos).attempt >>= fun ending => do
        let after ← Act.ordinal?
        Act.note (.probed label pos run.ordinal? after ending)
        Act.endAs ending) run := rfl
  rw [hstep, Act.bind_apply, Act.attempt_apply]
  rcases part pos run with _ | ⟨_ | _, _⟩ <;> rfl

namespace Act

/-- With an outcome to replay, a call reserves its ordinal and does nothing else. -/
theorem throughStore_of_replay {s : StoreId} {work : Act V α (Outcome V α)} {run : Run V α}
    {ses : Session} (hses : run.session = some ses) {outcome : Outcome V α}
    (hreplay : replay? run s ses = some outcome) :
    throughStore s work run = some (.ok outcome, run.withSession (some ses.reserve)) := by
  unfold throughStore
  rw [bind_apply, get_apply, Option.bind_some]
  simp only [hses, hreplay]
  rfl

/-- The state in which a call has come to its outcome or to an error. -/
def built (s : StoreId) (k : Nat) (ending : Ending V α) (run : Run V α) : Run V α :=
  match ending, run.session with
  | .ok outcome, some ses =>
    (run.withStores (ses.settleIn s k outcome run.grammar.stores)).withSession
      (some ((ses.endBuilding.rollBack (k + 1)).mark k s))
  | _, session => run.withSession (session.map Session.endBuilding)

/-- What a call does once its work is over. -/
def settleBuilt (s : StoreId) (k : Nat) (ending : Ending V α) : Act V α (Outcome V α) := do
  onSession Session.endBuilding
  match ending with
  | .error e => raise e
  | .ok outcome =>
    settleCall s k outcome
    pure outcome

/-- Without an outcome to replay, a call reserves its ordinal and works. -/
theorem throughStore_of_build {s : StoreId} {work : Act V α (Outcome V α)} {run : Run V α}
    {ses : Session} (hses : run.session = some ses) (hreplay : replay? run s ses = none) :
    throughStore s work run =
      (work (run.withSession (some ses.reserve.beginBuilding))).map fun x =>
        (x.1, built s ses.ordinal x.1 x.2) := by
  have hstep : throughStore s work run =
      (work.attempt >>= settleBuilt s ses.ordinal)
        (run.withSession (some ses.reserve.beginBuilding)) := by
    unfold throughStore
    rw [bind_apply, get_apply, Option.bind_some]
    simp only [hses, hreplay]
    rfl
  rw [hstep, bind_apply, attempt_apply]
  rcases work _ with _ | ⟨ending, grammar, session, log⟩
  · rfl
  · rcases session with _ | ses'
    · rcases ending with _ | _ <;> rfl
    · rcases ending with _ | _ <;> rfl

end Act

/-! ## Following courses -/

/-- The ways in which a run may move from state to state, as far as the marks of a
course account for them. -/
structure Tracking (V α : Type) where
  /-- The states that a run may be in. -/
  Ok : Run V α → Prop
  /-- The moves that go with some marks. -/
  Moves : Run V α → Run V α → List (Mark V α) → Prop
  /-- The marks that may come from a state on. -/
  Fits : Run V α → List (Mark V α) → Prop
  refl : ∀ run, Moves run run []
  trans : ∀ {run run' run'' : Run V α} {marks marks' : List (Mark V α)},
    Moves run run' marks → Moves run' run'' marks' → Moves run run'' (marks ++ marks')
  fits_left : ∀ {run : Run V α} {marks marks' : List (Mark V α)},
    Fits run (marks ++ marks') → Fits run marks
  fits_right : ∀ {run run' : Run V α} {marks marks' : List (Mark V α)},
    Fits run (marks ++ marks') → Moves run run' marks → Fits run' marks'

namespace Tracking

/-- Whether an action leads from every state as given. -/
def Does (T : Tracking V α) (act : Act V α (Outcome V α)) (run : Run V α) (ending : Ending V α)
    (marks : List (Mark V α)) : Prop :=
  ∃ run', act run = some (ending, run') ∧ T.Ok run' ∧ T.Moves run run' marks

/-- Whether an action follows a course from every state that the course fits. -/
def Follows (T : Tracking V α) (act : Act V α (Outcome V α)) (c : Course V α) : Prop :=
  ∀ run, T.Ok run → T.Fits run c.track → T.Does act run c.ending c.track

variable {T : Tracking V α}

/-- An action that goes on after a first part has been followed. -/
theorem Does.bind {act act' : Act V α (Outcome V α)} {run mid : Run V α}
    {ending : Ending V α} {marks marks' : List (Mark V α)} (hstep : act run = act' mid)
    (hmoves : T.Moves run mid marks) (h : T.Does act' mid ending marks') :
    T.Does act run ending (marks ++ marks') := by
  obtain ⟨run', hrun, hok, hmoves'⟩ := h
  exact ⟨run', hstep.trans hrun, hok, T.trans hmoves hmoves'⟩

/-- A run follows the course of a script of a shape when it follows the courses of the
attempts in it and does the rest as the marks say. -/
theorem follows_play {ρ : Targets V α} {limit : Nat} {starts : Recognizer V α → Prop}
    {st : Setting V} {attempt : Attempt V α} {ctx : Context V α}
    {shape : Shape V α (Recognizer V α)}
    (hcall : ∀ p ∈ shape.parts, ∀ pos c, (∀ q, Nests ρ st p pos q → starts q) →
      course ρ limit st p pos = some c → T.Follows (attempt ctx p pos) c)
    (hnest : ∀ sub p, shape = .nested sub p → (sub.options.cache = true → starts p) →
      (∀ q, Nests ρ (st.nested sub) p .start q → starts q) → ∀ c,
      course ρ limit (st.nested sub) p .start = some c → ∀ run, T.Ok run →
      T.Does (Act.inSession (ctx.inside sub p) p (attempt (ctx.inside sub p) p .start)) run
        c.ending [])
    (hclear : ∀ t p, shape = .clearing t p → ∀ run, T.Ok run →
      T.Ok { run with grammar := run.grammar.dropTraces t } ∧
        T.Moves run { run with grammar := run.grammar.dropTraces t } [])
    (hnote : ∀ event, ((∃ pos, event = .missed pos) ∨ (∃ label, event = .tallied label) ∨
        ∃ label pos before after ending, event = .probed label pos before after ending) →
      ∀ run, T.Ok run → T.Ok (run.noted event) ∧ T.Moves run (run.noted event) [])
    {script : Script V α} (hscript : script.Within shape)
    (hstarts : ∀ q, Script.Nests ρ st script q → starts q) {c : Course V α}
    (hc : script.course (course ρ limit) st = some c) : T.Follows (script.play attempt ctx) c := by
  induction hscript generalizing c with
  | ended ending =>
    intro run hok _
    cases hc
    exact ⟨run, Act.endAs_apply ending run, hok, T.refl run⟩
  | exhausted => cases hc
  | @call p pos next hp _ _ ih =>
    intro run hok hfits
    obtain ⟨c₁, hc₁, hc⟩ := Option.bind_eq_some_iff.1 hc
    obtain ⟨c₂, hc₂, rfl⟩ := Option.map_eq_some_iff.1 hc
    obtain ⟨mid, hmid, hokmid, hmoves⟩ :=
      hcall p hp pos c₁ (fun q h => hstarts q (.call h)) hc₁ run hok (T.fits_left hfits)
    have hrest := ih c₁.ending (fun q h => hstarts q (.afterCall hc₁ h)) hc₂ mid hokmid
      (T.fits_right hfits hmoves)
    refine hrest.bind ?_ hmoves
    show ((attempt ctx p pos).attempt >>= fun ending => (next ending).play attempt ctx) run = _
    rw [Act.bind_apply, Act.attempt_apply, hmid]
    rfl
  | @nest sub p next hshape _ ih =>
    intro run hok hfits
    obtain ⟨c₁, hc₁, hc⟩ := Option.bind_eq_some_iff.1 hc
    obtain ⟨mid, hmid, hokmid, hmoves⟩ :=
      hnest sub p hshape (fun hcache => hstarts p (.started hcache))
        (fun q h => hstarts q (.inside h)) c₁ hc₁ run hok
    have hrest := ih c₁.ending (fun q h => hstarts q (.afterNest hc₁ h)) hc mid hokmid
      (T.fits_right hfits hmoves)
    refine hrest.bind ?_ hmoves
    show ((Act.inSession (ctx.inside sub p) p (attempt (ctx.inside sub p) p .start)).attempt >>=
      fun ending => (next ending).play attempt ctx) run = _
    rw [Act.bind_apply, Act.attempt_apply, hmid]
    rfl
  | @clear t p next hshape _ ih =>
    intro run hok hfits
    obtain ⟨hokmid, hmoves⟩ := hclear t p hshape run hok
    have hrest := ih (fun q h => hstarts q (.clear h)) hc _ hokmid (T.fits_right hfits hmoves)
    refine hrest.bind ?_ hmoves
    rfl
  | @note event next hevent _ ih =>
    intro run hok hfits
    obtain ⟨hokmid, hmoves⟩ := hnote event (hevent.imp_right .inl) run hok
    have hrest := ih (fun q h => hstarts q (.note h)) hc _ hokmid (T.fits_right hfits hmoves)
    refine hrest.bind ?_ hmoves
    rfl
  | @probe label p pos hshape =>
    intro run hok hfits
    obtain ⟨mid, hmid, hokmid, hmoves⟩ :=
      hcall p (by simp [hshape, Shape.parts]) pos c (fun q h => hstarts q (.probe h)) hc run hok
        hfits
    obtain ⟨hok', hmoves'⟩ :=
      hnote _ (.inr (.inr ⟨label, pos, run.ordinal?, mid.ordinal?, c.ending, rfl⟩)) mid hokmid
    refine ⟨_, ?_, hok', ?_⟩
    · show Part.probed label (attempt ctx p) pos run = _
      rw [Part.probed_eq, hmid]
      rfl
    · rw [← List.append_nil c.track]
      exact T.trans hmoves hmoves'

end Tracking

end SlotGrammar
