import SlotGrammar.Proofs.FrozenHistory
import SlotGrammar.Proofs.Usage

/-!
# Calls that work

The log of a parse tells which calls with a cache were running at any time, and which of
them ran their own logic.  While one of them builds its outcome no other is replayed, so
what matters is the outermost one.  It works because nothing was committed at its ordinal.

Main results:

- Theorem `Event.outermost_append`: what happens outside every cached recognizer, in two
  stretches of a log.
- Theorem `Query.accounted`: a call works only below an outermost call for which nothing
  was committed.
-/

namespace SlotGrammar

variable {V α : Type}

/-! ## Reading the log -/

namespace Event

/-- The calls with a cache that are running after an event, the innermost first, given
those before it. -/
def runningAfter (running : List Handle) : Event V α → List Handle
  | .called handle _ _ => if handle.caching.isActive then handle :: running else running
  | .replied handle _ _ _ => if handle.caching.isActive then running.tail else running
  | _ => running

/-- The call with a cache whose own logic starts with an event, and the outermost call with
a cache that is running then. -/
def work? (running : List Handle) : Event V α → Option (Handle × Handle)
  | .worked handle _ =>
    if handle.caching.isActive then some (handle, running.getLastD handle) else none
  | _ => none

/-- The calls with a cache that are running after some events, the innermost first. -/
def running (events : List (Event V α)) : List Handle := events.foldl runningAfter []

/-- The calls with a cache that run their own logic, each with the outermost call with a
cache that is running then; given those that are running at the start. -/
def works : List Handle → List (Event V α) → List (Handle × Handle)
  | _, [] => []
  | running, event :: events =>
    (work? running event).toList ++ works (runningAfter running event) events

@[simp]
theorem running_append (events : List (Event V α)) (event : Event V α) :
    running (events ++ [event]) = runningAfter (running events) event := by
  simp [running]

theorem works_append (running : List Handle) (events events' : List (Event V α)) :
    works running (events ++ events') =
      works running events ++ works (events.foldl runningAfter running) events' := by
  induction events generalizing running with
  | nil => rfl
  | cons event events ih => simp [works, ih]

/-- The calls that run their own logic after one more event. -/
theorem works_snoc (events : List (Event V α)) (event : Event V α) :
    works [] (events ++ [event]) = works [] events ++ (work? (running events) event).toList := by
  rw [works_append]
  simp [works, running]

/-- A call with a cache that runs its own logic is found among those that do. -/
theorem exists_mem_works {events : List (Event V α)} {handle : Handle} {pos : Position}
    (hactive : handle.caching.isActive = true) (h : Event.worked handle pos ∈ events)
    (running : List Handle) : ∃ x ∈ works running events, x.1 = handle := by
  induction events generalizing running with
  | nil => cases h
  | cons event events ih =>
    rw [works]
    rcases List.mem_cons.1 h with rfl | h
    · exact ⟨(handle, running.getLastD handle), by simp [work?, hactive], rfl⟩
    · rcases ih h (runningAfter running event) with ⟨x, hx, hhandle⟩
      exact ⟨x, List.mem_append_right _ hx, hhandle⟩

/-- What happens outside every cached recognizer, in two stretches of a log. -/
theorem outermost_append (running : List Handle) (events events' : List (Event V α)) :
    outermost running.length (events ++ events') = outermost running.length events ++
      outermost (events.foldl runningAfter running).length events' := by
  induction events generalizing running with
  | nil => rfl
  | cons event events ih =>
    cases event with
    | called handle pos ordinal =>
      by_cases hactive : handle.caching.isActive = true
      · have hrest := ih (handle :: running)
        simp only [List.length_cons] at hrest
        simp [outermost, runningAfter, hactive, hrest]
      · simp [outermost, runningAfter, hactive, ih]
    | replied handle pos ordinal ending =>
      by_cases hactive : handle.caching.isActive = true
      · have hrest := ih running.tail
        rw [List.length_tail] at hrest
        simp [outermost, runningAfter, hactive, hrest]
      · simp [outermost, runningAfter, hactive, ih]
    | _ => simp [outermost, runningAfter, ih]

/-- What happens outside every cached recognizer, with one more event. -/
theorem outermost_snoc (events : List (Event V α)) (event : Event V α) :
    outermost 0 (events ++ [event]) =
      outermost 0 events ++ outermost (running events).length [event] :=
  outermost_append [] events [event]

/-! ## Calls that have to work -/

/-- Whether a call with a cache was entered outside every cached recognizer with an ordinal
at which nothing was committed. -/
def Owed (entries : Entries V α) (key : TraceKey) (events : List (Event V α))
    (handle : Handle) : Prop :=
  ∃ s n pos, handle.caching = .active s ∧ entries s key n = none ∧
    Moment.entered handle pos (some n) ∈ outermost 0 events

/-- Whether all calls with a cache that run their own logic, or are still running, do so
below an outermost one for which nothing was committed. -/
structure Accounted (entries : Entries V α) (key : TraceKey) (events : List (Event V α)) :
    Prop where
  running : ∀ handle, (running events).getLast? = some handle → Owed entries key events handle
  works : ∀ x ∈ works [] events, Owed entries key events x.2

variable {entries : Entries V α} {key : TraceKey} {events : List (Event V α)} {handle : Handle}

/-- What has happened is not undone. -/
theorem Owed.append (h : Owed entries key events handle) (more : List (Event V α)) :
    Owed entries key (events ++ more) handle := by
  rcases h with ⟨s, n, pos, hactive, hnone, hentered⟩
  refine ⟨s, n, pos, hactive, hnone, ?_⟩
  have hsplit := outermost_append [] events more
  rw [List.length_nil] at hsplit
  rw [hsplit]
  exact List.mem_append_left _ hentered

/-- Whether an event is not about a call with a cache. -/
def IsQuiet (event : Event V α) : Prop :=
  ∀ running, runningAfter running event = running ∧ work? running event = none

theorem isQuiet_of_isAside {event : Event V α} (h : event.isAside = true) : event.IsQuiet := by
  cases event with
  | missed pos | tallied label | probed label pos before after ending => exact fun _ => ⟨rfl, rfl⟩
  | _ => cases h

theorem isQuiet_called (h : handle.caching.isActive = false) (pos : Position)
    (ordinal : Option Nat) : IsQuiet (.called handle pos ordinal : Event V α) :=
  fun _ => ⟨by simp [runningAfter, h], rfl⟩

theorem isQuiet_worked (h : handle.caching.isActive = false) (pos : Position) :
    IsQuiet (.worked handle pos : Event V α) :=
  fun _ => ⟨rfl, by simp [work?, h]⟩

theorem isQuiet_replied (h : handle.caching.isActive = false) (pos : Position)
    (ordinal : Option Nat) (ending : Ending V α) :
    IsQuiet (.replied handle pos ordinal ending) :=
  fun _ => ⟨by simp [runningAfter, h], rfl⟩

namespace Accounted

theorem nil : Accounted entries key ([] : List (Event V α)) :=
  ⟨by simp [Event.running], by simp [Event.works]⟩

/-- Events that change neither what is running nor what works. -/
theorem append (h : Accounted entries key events) {more : List (Event V α)}
    (hrunning : Event.running (events ++ more) = Event.running events)
    (hworks : Event.works [] (events ++ more) = Event.works [] events) :
    Accounted entries key (events ++ more) := by
  constructor
  · intro outer houter
    rw [hrunning] at houter
    exact (h.running outer houter).append more
  · intro x hx
    rw [hworks] at hx
    exact (h.works x hx).append more

/-- Events that are not about a call with a cache. -/
theorem quiet (h : Accounted entries key events) {more : List (Event V α)}
    (hquiet : ∀ event ∈ more, event.IsQuiet) :
    Accounted entries key (events ++ more) ∧
      Event.running (events ++ more) = Event.running events := by
  induction more generalizing events with
  | nil => simpa using h
  | cons event more ih =>
    have hevent := hquiet event List.mem_cons_self (Event.running events)
    have hrunning : Event.running (events ++ [event]) = Event.running events := by
      rw [running_append, hevent.1]
    have hnext : Accounted entries key (events ++ [event]) := by
      apply h.append hrunning
      rw [works_snoc, hevent.2, Option.toList_none, List.append_nil]
    have hrest := ih hnext fun event' hevent' => hquiet event' (List.mem_cons_of_mem _ hevent')
    rw [List.append_assoc, hrunning] at hrest
    exact hrest

/-- A call with a cache is replayed. -/
theorem replayed (h : Accounted entries key events) (hon : handle.caching.isActive = true)
    (pos : Position) (ordinal ordinal' : Option Nat) (ending : Ending V α) :
    Accounted entries key
        (events ++ [.called handle pos ordinal, .replied handle pos ordinal' ending]) ∧
      Event.running (events ++ [.called handle pos ordinal, .replied handle pos ordinal' ending]) =
        Event.running events := by
  have hrunning : Event.running
      (events ++ [.called handle pos ordinal, .replied handle pos ordinal' ending]) =
        Event.running events := by
    simp [Event.running, runningAfter, hon]
  refine ⟨h.append hrunning ?_, hrunning⟩
  simp [works_append, Event.works, work?]

/-- A call with a cache is entered below others, or nothing was committed for it. -/
theorem called (h : Accounted entries key events) {s : StoreId}
    (hactive : handle.caching = .active s) (pos : Position) {n : Nat}
    (hnone : Event.running events = [] → entries s key n = none) :
    Accounted entries key (events ++ [.called handle pos (some n)]) := by
  have hon : handle.caching.isActive = true := by
    rw [hactive]
    rfl
  constructor
  · intro outer houter
    rw [running_append, runningAfter, if_pos hon] at houter
    cases hrunning : Event.running events with
    | nil =>
      rw [hrunning] at houter
      cases houter
      refine ⟨s, n, pos, hactive, hnone hrunning, ?_⟩
      rw [outermost_snoc, hrunning]
      apply List.mem_append_right
      simp [outermost, Moment.seenAt]
    | cons inner rest =>
      rw [hrunning, List.getLast?_cons_cons] at houter
      rw [← hrunning] at houter
      exact (h.running outer houter).append _
  · intro x hx
    have hx : x ∈ Event.works [] events := by simpa [works_snoc, work?] using hx
    exact (h.works x hx).append _

/-- A call with a cache that is running runs its own logic. -/
theorem worked (h : Accounted entries key events) {rest : List Handle}
    (hrunning : Event.running events = handle :: rest) (pos : Position) :
    Accounted entries key (events ++ [.worked handle pos]) := by
  constructor
  · intro outer houter
    rw [running_append] at houter
    exact (h.running outer houter).append _
  · intro x hx
    rw [works_snoc] at hx
    rcases List.mem_append.1 hx with hold | hnew
    · exact (h.works x hold).append _
    · have hnew : (if handle.caching.isActive then
          some (handle, (Event.running events).getLastD handle) else none) = some x :=
        Option.mem_toList.1 hnew
      split at hnew
      · cases hnew
        apply Owed.append
        apply h.running
        rw [hrunning, List.getLastD_eq_getLast?, List.getLast?_cons]
        rfl
      · cases hnew

/-- A call with a cache is over. -/
theorem replied (h : Accounted entries key events) {rest : List Handle}
    (hrunning : Event.running events = handle :: rest) (pos : Position) (ordinal : Option Nat)
    (ending : Ending V α) :
    Accounted entries key (events ++ [.replied handle pos ordinal ending]) := by
  constructor
  · intro outer houter
    apply Owed.append
    apply h.running
    rw [running_append, runningAfter, hrunning] at houter
    rw [hrunning]
    split at houter
    · cases rest with
      | nil => cases houter
      | cons inner rest => rwa [List.getLast?_cons_cons]
    · exact houter
  · intro x hx
    have hx : x ∈ Event.works [] events := by simpa [works_snoc, work?] using hx
    exact (h.works x hx).append _

end Accounted

end Event

/-! ## Runs -/

section Parses

variable {bodies : Bodies V α} {base : Grammar V α} {P : Recognizer V α → Prop}
  {entries : Entries V α} {key : TraceKey}

/-- Whether a state of a parse is sound, with the same outcomes committed as at its start, its
session counts the calls with a cache that are running, and all calls that work are
accounted for. -/
structure Run.Reuses (base : Grammar V α) (entries : Entries V α) (key : TraceKey)
    (run : Run V α) : Prop where
  sound : Sound base (· = entries) run
  session : ∃ ses, run.session = some ses ∧ ses.key = key ∧
    ses.building = (Event.running run.log.reverse).length
  accounted : Event.Accounted entries key run.log.reverse

namespace Run.Reuses

variable {run mid : Run V α} {r : Recognizer V α} {s : StoreId} {ses : Session}

/-- An event that is not about a call with a cache is noted. -/
theorem noted (h : run.Reuses base entries key) {event : Event V α} (hquiet : event.IsQuiet) :
    (run.noted event).Reuses base entries key ∧
      Event.running (run.noted event).log.reverse = Event.running run.log.reverse := by
  have hlog : (run.noted event).log.reverse = run.log.reverse ++ [event] := by
    simp [Run.noted]
  have hnext := h.accounted.quiet (List.forall_mem_singleton.2 hquiet)
  rcases h.session with ⟨ses, hses, hkey, hbuilding⟩
  rw [hlog]
  refine ⟨⟨h.sound.noted event, ⟨ses, hses, hkey, ?_⟩, ?_⟩, hnext.2⟩
  · rw [hlog, hnext.2]
    exact hbuilding
  · rw [hlog]
    exact hnext.1

/-- A call is replayed. -/
theorem replayed (h : run.Reuses base entries key) (pos : Position) (hses : run.session = some ses)
    (hon : r.handle.caching.isActive = true) (outcome : Outcome V α) :
    (((run.entering r pos).withSession (some ses.reserve)).leaving r pos (.ok outcome)).Reuses
        base entries key ∧
      Event.running (((run.entering r pos).withSession (some ses.reserve)).leaving r pos
        (.ok outcome)).log.reverse = Event.running run.log.reverse := by
  rcases h.session with ⟨ses', hses', hkey, hbuilding⟩
  rw [hses] at hses'
  cases hses'
  let reserved := (run.entering r pos).withSession (some ses.reserve)
  have hlog : (reserved.leaving r pos (.ok outcome)).log.reverse =
      run.log.reverse ++ [.called r.handle pos run.ordinal?,
        .replied r.handle pos reserved.ordinal? (.ok outcome)] := by
    simp [reserved, Run.entering, Run.leaving, Run.noted, Run.withSession]
  have hnext := h.accounted.replayed hon pos run.ordinal? reserved.ordinal? (.ok outcome)
  change (reserved.leaving r pos (.ok outcome)).Reuses base entries key ∧ _
  rw [hlog]
  refine ⟨⟨?_, ⟨ses.reserve, rfl, hkey, ?_⟩, ?_⟩, hnext.2⟩
  · have hentering : Sound base (· = entries) (run.entering r pos) := h.sound.noted _
    have hreserved : Sound base (· = entries) reserved :=
      hentering.withSession (show (run.entering r pos).session = some ses from hses) rfl
    exact hreserved.noted _
  · rw [hlog, hnext.2]
    exact hbuilding
  · rw [hlog]
    exact hnext.1

/-- Nothing is committed for a call that works outside every other one with a cache. -/
theorem committed_eq_none (h : run.Reuses base entries key)
    (hway : run.way r.handle.caching = .builds s ses)
    (houter : Event.running run.log.reverse = []) : entries s key ses.ordinal = none := by
  rcases Run.way_eq_builds hway with ⟨-, hses, hreplay⟩
  rcases h.session with ⟨ses', hses', hkey, hbuilding⟩
  rw [hses] at hses'
  cases hses'
  rw [houter, List.length_nil] at hbuilding
  unfold Act.replay? at hreplay
  rw [if_pos hbuilding, hkey] at hreplay
  have hcommitted : run.grammar.stores.committed = entries := h.sound.allowed
  rw [← hcommitted]
  exact hreplay

/-- A call starts to build its outcome. -/
theorem building (h : run.Reuses base entries key) (pos : Position)
    (hway : run.way r.handle.caching = .builds s ses) :
    (((run.entering r pos).building ses).atWork r pos).Reuses base entries key ∧
      Event.running (((run.entering r pos).building ses).atWork r pos).log.reverse =
        r.handle :: Event.running run.log.reverse := by
  have hnone := h.committed_eq_none hway
  rcases Run.way_eq_builds hway with ⟨hactive, hses, -⟩
  have hon : r.handle.caching.isActive = true := by
    rw [hactive]
    rfl
  rcases h.session with ⟨ses', hses', hkey, hbuilding⟩
  rw [hses] at hses'
  cases hses'
  have hordinal : run.ordinal? = some ses.ordinal := by
    unfold Run.ordinal?
    rw [hses]
    rfl
  have hlog : (((run.entering r pos).building ses).atWork r pos).log.reverse =
      run.log.reverse ++ [.called r.handle pos (some ses.ordinal)] ++ [.worked r.handle pos] := by
    simp [Run.entering, Run.building, Run.atWork, Run.noted, Run.withSession, hordinal]
  have hcalled := h.accounted.called hactive pos hnone
  have hrunning : Event.running
      (run.log.reverse ++ [.called r.handle pos (some ses.ordinal)]) =
        r.handle :: Event.running run.log.reverse := by
    rw [Event.running_append, Event.runningAfter, if_pos hon]
  rw [hlog]
  refine ⟨⟨?_, ⟨ses.reserve.beginBuilding, rfl, hkey, ?_⟩, ?_⟩, ?_⟩
  · have hentering : Sound base (· = entries) (run.entering r pos) := h.sound.noted _
    have hstart : Sound base (· = entries) ((run.entering r pos).building ses) :=
      hentering.withSession (show (run.entering r pos).session = some ses from hses) rfl
    exact hstart.noted _
  · rw [hlog, Event.running_append, hrunning]
    exact congrArg (· + 1) hbuilding
  · rw [hlog]
    exact hcalled.worked hrunning pos
  · rw [Event.running_append, hrunning]
    rfl

/-- A call has built its outcome. -/
theorem built (h : mid.Reuses base entries key) (hs : s < base.stores.size)
    (hon : r.handle.caching.isActive = true) {rest : List Handle}
    (hrunning : Event.running mid.log.reverse = r.handle :: rest) (k : Nat) (pos : Position)
    (ending : Ending V α) :
    ((Act.built s k ending mid).leaving r pos ending).Reuses base entries key ∧
      Event.running ((Act.built s k ending mid).leaving r pos ending).log.reverse = rest := by
  rcases h.session with ⟨ses, hses, hkey, hbuilding⟩
  rcases Run.session_built hses s k ending with ⟨ses', hses', -, hkey', hbuilding'⟩
  let after := Act.built s k ending mid
  have hlog : (after.leaving r pos ending).log.reverse =
      mid.log.reverse ++ [.replied r.handle pos after.ordinal? ending] := by
    simp [after, Run.leaving, Run.noted, Act.built_log]
  have hrest : Event.running (mid.log.reverse ++ [.replied r.handle pos after.ordinal? ending]) =
      rest := by
    rw [Event.running_append, hrunning, Event.runningAfter, if_pos hon]
    rfl
  change (after.leaving r pos ending).Reuses base entries key ∧ _
  rw [hlog]
  refine ⟨⟨(h.sound.built hs k ending).noted _, ⟨ses', hses', hkey'.trans hkey, ?_⟩, ?_⟩, hrest⟩
  · rw [hlog, hrest, hbuilding', hbuilding, hrunning]
    rfl
  · rw [hlog]
    exact h.accounted.replied hrunning pos after.ordinal? ending

end Run.Reuses

/-- In a parse, calls with a cache work only where nothing was committed. -/
def reusing (hrealm : Realm bodies base P)
    (horderly : ∀ handle shape, P (.node handle shape) → shape.Orderly) (entries : Entries V α)
    (key : TraceKey) : Conduct V α where
  Ok _ run := run.Reuses base entries key
  Knows _ r := P r
  Sees ctx := ∀ h ∈ ctx.held, base.Keeps h
  Goes run _ run' := Event.running run'.log.reverse = Event.running run.log.reverse
  Fair _ := True
  refl _ := rfl
  trans h h' := h'.trans h
  knows_goes _ hr := hr
  knows_part hr hp := hrealm.closed.part hr hp
  entered _ _ _ := trivial
  working _ _ _ := trivial
  returned _ _ _ _ := trivial
  noted _ haside h := h.noted (Event.isQuiet_of_isAside haside)
  cleared _ hr := (horderly _ _ hr).elim
  followed := by
    intro nesting run run' ctx handle target found h hheld hr hfollow
    rcases hrealm.sound _ hr with ⟨hformed, hkeeps⟩
    rcases Act.follow_eq hrealm.formed hrealm.supplied hheld
      (fun k hk => hkeeps k ((hformed _ .refl).holdsParts k hk)) h.sound.later with
      ⟨found', deferrals, tallies, heq, hlater, htarget, hctx⟩
    rw [heq] at hfollow
    cases hfollow
    have hlog : (tallies.map Event.tallied ++ run.log).reverse =
        run.log.reverse ++ (tallies.map Event.tallied).reverse := List.reverse_append
    have hquiet : ∀ event ∈ (tallies.map Event.tallied).reverse, (event : Event V α).IsQuiet := by
      intro event hevent
      rw [List.mem_reverse] at hevent
      rcases List.mem_map.1 hevent with ⟨label, -, rfl⟩
      exact Event.isQuiet_of_isAside rfl
    have hnext := h.accounted.quiet hquiet
    rw [← hlog] at hnext
    rcases h.session with ⟨ses, hses, hkey, hbuilding⟩
    refine ⟨⟨?_, ⟨ses, hses, hkey, ?_⟩, hnext.1⟩, hnext.2, ?_⟩
    · exact ⟨hlater, h.sound.size_eq, h.sound.allowed, h.sound.fresh, h.sound.id_lt⟩
    · rw [hnext.2]
      exact hbuilding
    · intro x hx
      refine ⟨(hctx x hx).2, hrealm.closed.target hr ?_⟩
      rw [← htarget, hx]
      rfl
  straight := by
    intro nesting run r pos h _ hway
    have hoff : r.handle.caching.isActive = false := by
      rcases h.session with ⟨ses, hses, -⟩
      rcases Run.way_eq_straight hway with hoff | hnone
      · exact hoff
      · rw [hses] at hnone
        cases hnone
    have hcalled := h.noted (Event.isQuiet_called hoff pos run.ordinal?)
    have hworked := hcalled.1.noted (Event.isQuiet_worked hoff pos)
    refine ⟨hworked.1, fun l mid ending hmid hgoes => ?_⟩
    have hreplied := hmid.noted (Event.isQuiet_replied hoff pos mid.ordinal? ending)
    exact ⟨hreplied.1, hreplied.2.trans (hgoes.trans (hworked.2.trans hcalled.2))⟩
  replays := by
    intro nesting run r pos ses outcome h _ hway
    rcases Run.way_eq_replays hway with ⟨s, hactive, hses, -⟩
    exact h.replayed pos hses (by rw [hactive]; rfl) outcome
  builds := by
    intro nesting run r pos s ses h hr hway
    have hstart := h.building pos hway
    rcases Run.way_eq_builds hway with ⟨hactive, -, -⟩
    have hs : s < base.stores.size :=
      ((hrealm.sound r hr).1 r .refl).store_lt s (by rw [hactive]; rfl)
    refine ⟨hstart.1, fun l mid ending hmid hgoes => ?_⟩
    have hafter := hmid.built (r := r) hs (by rw [hactive]; rfl) (hgoes.trans hstart.2) ses.ordinal
      pos ending
    exact ⟨fun _ _ => trivial, hafter⟩
  nested _ _ hr := (horderly _ _ hr).elim

/-- In a parse with caching a call with a cache works only below an outermost one for which
nothing was committed. -/
theorem Query.accounted (hrealm : Realm bodies base P)
    (horderly : ∀ handle shape, P (.node handle shape) → shape.Orderly) {q : Query V α}
    {g : Grammar V α} (hsound : base.Sound (fun _ => True) g) (hroot : P q.root)
    (hcache : q.options.cache = true) {limit : Nat} {report : Report V α}
    (hreport : q.parse? g limit = some report) :
    Event.Accounted g.stores.committed q.key report.events := by
  rcases q.exec_of_parse? hreport with ⟨mid, hmid, -, hevents⟩
  have hstart : Sound base (· = g.stores.committed) { grammar := g } := hsound.of_allowed rfl
  have hlog : (q.opened g).log = [] := log_opened _ _ _
  have hopened : (q.opened g).Reuses base g.stores.committed q.key := by
    refine ⟨hstart.opened q.context q.root, ⟨_, session_opened hcache q.root _, rfl, ?_⟩, ?_⟩
    · rw [hlog]
      rfl
    · rw [hlog]
      exact .nil
  have hpasses := (reusing hrealm horderly g.stores.committed q.key).passes_exec limit
    ⟨{ root := q.root, input := q.input }, []⟩ q.context q.root .start (q.opened g) hopened
    (hrealm.keeps_root hroot rfl) hroot
  have hend : mid.Reuses base g.stores.committed q.key := (hpasses.goes report.ending mid hmid).1
  rw [hevents]
  exact hend.accounted

end Parses

end SlotGrammar
