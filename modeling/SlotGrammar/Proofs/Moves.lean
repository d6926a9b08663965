import SlotGrammar.Proofs.Following
import SlotGrammar.Proofs.Moments
import SlotGrammar.Proofs.Tracking

/-!
# Moves of a run

What may lie in the stores is a condition on committed outcomes that a run must keep.
A run moves from one sound state to another as the marks of a course say: the session
goes on by the slots of the marks and its books stay in order, other sessions are left
alone, and the log tells what the marks tell.

Main results:

- Theorem `Quiet.fits`: where nothing can be replayed, every course fits.
- Theorem `Moves.trans`: moves compose.
- Definition `replaying`: the runs that replay only what fits.
-/

namespace SlotGrammar

variable {V α : Type}

/-! ## What may be replayed -/

/-- Committed outcomes, by store, trace and ordinal. -/
abbrev Entries (V α : Type) := StoreId → TraceKey → Nat → Option (Outcome V α)

/-- The outcome that a session would replay from a store after so many more ordinals. -/
def playback (session : Option Session) (entries : Entries V α) (s : StoreId) (n : Nat) :
    Option (Outcome V α) :=
  session.bind fun ses =>
    if ses.building = 0 then entries s ses.key (ses.ordinal + n) else none

/-- Whether a slot agrees with what is found in the stores: it is the outcome that is
found, or its call sees the values of the parse. -/
def Slot.Meets (st : Setting V) (found : StoreId → Option (Outcome V α)) : Slot V α → Prop
  | .settled s o => (∀ o', found s = some o' → o' = o) ∧ (found s = none → st.frozen s = st.values)
  | .raised s => found s = none ∧ st.frozen s = st.values
  | .passed => True

/-- Whether the slots that come next agree with all that may lie in the stores. -/
def Fits (J : Entries V α → Prop) (st : Setting V) (session : Option Session)
    (tape : List (Slot V α)) : Prop :=
  ∀ entries, J entries → ∀ (n : Nat) (slot : Slot V α), tape[n]? = some slot →
    slot.Meets st fun s => playback session entries s n

/-- Whether a session finds nothing to replay. -/
def Quiet (J : Entries V α → Prop) (session : Option Session) : Prop :=
  ∀ entries, J entries → ∀ s n, playback session entries s n = none

/-- While a call builds its outcome nothing is replayed. -/
theorem recall_building {ses : Session} (h : ses.building ≠ 0) (entries : Entries V α) (s : StoreId)
    (n : Nat) : playback (some ses) entries s n = none :=
  if_neg h

/-- No call is replayed while another one is building its outcome. -/
theorem quiet_building {J : Entries V α → Prop} {ses : Session} (h : ses.building ≠ 0) :
    Quiet J (some ses) :=
  fun entries _ s n => recall_building h entries s n

/-- Without a session nothing is replayed. -/
theorem quiet_none {J : Entries V α → Prop} : Quiet J none := fun _ _ _ _ => rfl

/-- Everything fits where nothing is found and all calls see the values of the parse. -/
theorem Quiet.fits {J : Entries V α → Prop} {session : Option Session} (h : Quiet J session)
    {st : Setting V} (hplain : st.IsPlain) (tape : List (Slot V α)) : Fits J st session tape := by
  intro entries hentries n slot _
  have hnone := fun s => h entries hentries s n
  cases slot with
  | settled s o =>
    refine ⟨?_, fun _ => hplain s⟩
    intro o' ho'
    have hfound : playback session entries s n = some o' := ho'
    rw [hnone] at hfound
    cases hfound
  | raised s => exact ⟨hnone s, hplain s⟩
  | passed => trivial

/-- What is evidence that an outcome was replayed in a trace. -/
def Evident (J : Entries V α → Prop) (key : TraceKey) (s : StoreId) (n : Nat)
    (o : Outcome V α) : Prop :=
  ∃ entries, J entries ∧ entries s key n = some o

/-! ## States and moves -/

/-- Whether a state is one that a run of a grammar may be in. -/
structure Sound (base : Grammar V α) (J : Entries V α → Prop) (run : Run V α) : Prop where
  later : base.Later run.grammar
  size_eq : run.grammar.stores.size = base.stores.size
  allowed : J run.grammar.stores.committed
  fresh : ∀ s id n, run.grammar.nextSession ≤ id → run.grammar.stores.pending s id n = none
  id_lt : ∀ ses, run.session = some ses → ses.id < run.grammar.nextSession

/-- Whether a session goes on by some slots. -/
structure Session.Advances (J : Entries V α → Prop) (ses : Session) (stores : Stores V α)
    (ses' : Session) (stores' : Stores V α) (slots : List (Slot V α)) : Prop where
  id_eq : ses'.id = ses.id
  key_eq : ses'.key = ses.key
  building_eq : ses'.building = ses.building
  ordinal_eq : ses'.ordinal = ses.ordinal + slots.length
  books : ∀ tape, ses.Books (Evident J ses.key) stores tape →
    ses'.Books (Evident J ses.key) stores' (tape ++ slots)

/-- Whether a run moves from one state to another while its session goes on by some
slots.  Other sessions are left alone. -/
structure Shifts (J : Entries V α → Prop) (run run' : Run V α) (slots : List (Slot V α)) :
    Prop where
  nextSession_le : run.grammar.nextSession ≤ run'.grammar.nextSession
  others : ∀ s id n, id < run.grammar.nextSession → (∀ ses, run.session = some ses → ses.id ≠ id) →
    run'.grammar.stores.pending s id n = run.grammar.stores.pending s id n
  no_session : run.session = none → run'.session = none
  session : ∀ ses, run.session = some ses → ∃ ses', run'.session = some ses' ∧
    ses.Advances J run.grammar.stores ses' run'.grammar.stores slots

/-- Whether a run moves from one state to another as some marks say.  The log is looked
at if the run is `logged`. -/
structure Moves (J : Entries V α → Prop) (logged : Prop) (run run' : Run V α)
    (marks : List (Mark V α)) : Prop where
  shifts : Shifts J run run' (tapeOf marks)
  log : ∃ events, run'.log = events.reverse ++ run.log ∧
    (logged → Event.Tells events run.ordinal? marks)

namespace Session.Advances

variable {J : Entries V α → Prop} {ses ses' ses'' : Session} {stores stores' stores'' : Stores V α}
  {slots slots' : List (Slot V α)}

theorem refl (ses : Session) (stores : Stores V α) : ses.Advances J stores ses stores [] :=
  ⟨rfl, rfl, rfl, rfl, fun tape h => by rw [List.append_nil]; exact h⟩

/-- A session that goes on twice goes on by all the slots. -/
theorem trans (h : ses.Advances J stores ses' stores' slots)
    (h' : ses'.Advances J stores' ses'' stores'' slots') :
    ses.Advances J stores ses'' stores'' (slots ++ slots') := by
  refine ⟨h'.id_eq.trans h.id_eq, h'.key_eq.trans h.key_eq, h'.building_eq.trans h.building_eq,
    ?_, ?_⟩
  · rw [h'.ordinal_eq, h.ordinal_eq, List.length_append, Nat.add_assoc]
  · intro tape htape
    have hbooks := h'.books (tape ++ slots)
    rw [h.key_eq] at hbooks
    rw [← List.append_assoc]
    exact hbooks (h.books tape htape)

end Session.Advances

namespace Shifts

variable {J : Entries V α → Prop} {run run' run'' : Run V α} {slots slots' : List (Slot V α)}

theorem refl (run : Run V α) : Shifts J run run [] :=
  ⟨Nat.le_refl _, fun _ _ _ _ _ => rfl, id, fun ses h => ⟨ses, h, .refl ses _⟩⟩

/-- The counter moves by one for each slot. -/
theorem ordinal_eq (h : Shifts J run run' slots) :
    run'.ordinal? = Moment.later run.ordinal? slots.length := by
  unfold Run.ordinal?
  cases hses : run.session with
  | none =>
    rw [h.no_session hses]
    rfl
  | some ses =>
    obtain ⟨ses', hses', hadvances⟩ := h.session ses hses
    rw [hses']
    simp [Moment.later, hadvances.ordinal_eq]

/-- A run ends in the session that it started in. -/
theorem session_before (h : Shifts J run run' slots) {ses' : Session}
    (hses' : run'.session = some ses') : ∃ ses, run.session = some ses ∧ ses'.id = ses.id := by
  cases hses : run.session with
  | none =>
    rw [h.no_session hses] at hses'
    cases hses'
  | some ses =>
    obtain ⟨x, hx, hadvances⟩ := h.session ses hses
    rw [hx] at hses'
    cases hses'
    exact ⟨ses, rfl, hadvances.id_eq⟩

/-- Two shifts make one, by all the slots. -/
theorem trans (h : Shifts J run run' slots) (h' : Shifts J run' run'' slots') :
    Shifts J run run'' (slots ++ slots') := by
  refine ⟨Nat.le_trans h.nextSession_le h'.nextSession_le, ?_, fun hnone =>
    h'.no_session (h.no_session hnone), ?_⟩
  · intro s id n hid hother
    rw [h'.others s id n (Nat.lt_of_lt_of_le hid h.nextSession_le) ?_, h.others s id n hid hother]
    intro ses' hses'
    obtain ⟨ses, hses, hsame⟩ := h.session_before hses'
    rw [hsame]
    exact hother ses hses
  · intro ses hses
    obtain ⟨ses', hses', hadvances⟩ := h.session ses hses
    obtain ⟨ses'', hses'', hadvances'⟩ := h'.session ses' hses'
    exact ⟨ses'', hses'', hadvances.trans hadvances'⟩

/-- What a session recalls does not depend on where it stands. -/
theorem playback_eq (h : Shifts J run run' slots) (entries : Entries V α) (s : StoreId) (n : Nat) :
    playback run'.session entries s n = playback run.session entries s (slots.length + n) := by
  cases hses : run.session with
  | none =>
    rw [h.no_session hses]
    rfl
  | some ses =>
    obtain ⟨ses', hses', hadvances⟩ := h.session ses hses
    rw [hses']
    show (if ses'.building = 0 then _ else _) = if ses.building = 0 then _ else _
    rw [hadvances.building_eq, hadvances.key_eq, hadvances.ordinal_eq, Nat.add_assoc]

/-- Where nothing is replayed nothing is replayed later. -/
theorem quiet (h : Shifts J run run' slots) (hquiet : Quiet J run.session) :
    Quiet J run'.session := by
  intro entries hentries s n
  rw [h.playback_eq]
  exact hquiet entries hentries s _

/-- The log has no part in the shifts of a run. -/
theorem noted (h : Shifts J run run' slots) (event : Event V α) :
    Shifts J run (run'.noted event) slots :=
  ⟨h.nextSession_le, h.others, h.no_session, h.session⟩

/-- Without a session there are no slots to go on by. -/
theorem of_no_session (h : Shifts J run run' slots) (hnone : run.session = none) :
    Shifts J run run' slots' := by
  refine ⟨h.nextSession_le, h.others, h.no_session, ?_⟩
  intro ses hses
  rw [hnone] at hses
  cases hses

/-- A note in front has no part in the shifts of a run. -/
theorem of_noted {event : Event V α} (h : Shifts J (run.noted event) run' slots) :
    Shifts J run run' slots :=
  ⟨h.nextSession_le, h.others, h.no_session, h.session⟩

end Shifts

namespace Moves

variable {J : Entries V α → Prop} {logged : Prop} {run run' run'' : Run V α}
  {marks marks' : List (Mark V α)}

theorem refl (run : Run V α) : Moves J logged run run [] :=
  ⟨.refl run, [], rfl, fun _ => .nil _⟩

/-- Two moves make one, with all the marks. -/
theorem trans (h : Moves J logged run run' marks) (h' : Moves J logged run' run'' marks') :
    Moves J logged run run'' (marks ++ marks') := by
  refine ⟨?_, ?_⟩
  · rw [tapeOf_append]
    exact h.shifts.trans h'.shifts
  · obtain ⟨events, hlog, htells⟩ := h.log
    obtain ⟨events', hlog', htells'⟩ := h'.log
    refine ⟨events ++ events', ?_, ?_⟩
    · rw [hlog', hlog, List.reverse_append, List.append_assoc]
    · intro hlogged
      refine (htells hlogged).append ?_
      rw [← h.shifts.ordinal_eq]
      exact htells' hlogged

/-- A note in the log, which tells what the marks tell. -/
theorem noted (run : Run V α) {event : Event V α} {marks : List (Mark V α)}
    (hmarks : tapeOf marks = []) (htells : logged → Event.Tells [event] run.ordinal? marks) :
    Moves J logged run (run.noted event) marks := by
  refine ⟨?_, [event], rfl, htells⟩
  rw [hmarks]
  exact (Shifts.refl run).noted event

/-- A call of a recognizer with a cache, of which the log tells no more than that. -/
theorem around {mid : Run V α} {slots : List (Slot V α)} (h : Shifts J run mid slots)
    {handle : Handle} {s : StoreId} (hactive : handle.caching = .active s) (pos : Position)
    (hlog : ∃ events ordinal marks,
      mid.log = events.reverse ++ .called handle pos run.ordinal? :: run.log ∧
        (logged → Event.Tells events ordinal marks)) {ending : Ending V α}
    (hcall : slots.filterMap Slot.call? = [(s, Ending.outcome? ending)]) :
    Moves J logged run (mid.noted (.replied handle pos mid.ordinal? ending))
      [.entered handle pos, .left handle pos slots] := by
  obtain ⟨events, ordinal, marks, hlog, htells⟩ := hlog
  refine ⟨?_, .called handle pos run.ordinal? :: events ++
    [.replied handle pos mid.ordinal? ending], ?_, ?_⟩
  · have hslots : tapeOf [Mark.entered handle pos, .left handle pos slots] = slots := by
      simp [Mark.slots]
    rw [hslots]
    exact h.noted _
  · show _ :: mid.log = _
    rw [hlog]
    simp
  · intro hlogged
    rw [h.ordinal_eq]
    exact (htells hlogged).around hactive pos run.ordinal? hcall

end Moves

/-- What a session does on its own leaves a state sound. -/
theorem Sound.withSession {base : Grammar V α} {J : Entries V α → Prop} {run : Run V α}
    (h : Sound base J run) {ses ses' : Session} (hses : run.session = some ses)
    (hid : ses'.id = ses.id) : Sound base J (run.withSession (some ses')) := by
  refine ⟨h.later, h.size_eq, h.allowed, h.fresh, ?_⟩
  intro x hx
  cases hx
  rw [hid]
  exact h.id_lt ses hses

/-- A note leaves a state sound. -/
theorem Sound.noted {base : Grammar V α} {J : Entries V α → Prop} {run : Run V α}
    (h : Sound base J run) (event : Event V α) : Sound base J (run.noted event) :=
  ⟨h.later, h.size_eq, h.allowed, h.fresh, h.id_lt⟩

/-- What fits a list of slots fits its beginning. -/
theorem Fits.left {J : Entries V α → Prop} {st : Setting V} {session : Option Session}
    {tape tape' : List (Slot V α)} (h : Fits J st session (tape ++ tape')) :
    Fits J st session tape := by
  intro entries hentries n slot hslot
  obtain ⟨hlt, -⟩ := List.getElem?_eq_some_iff.1 hslot
  refine h entries hentries n slot ?_
  rw [List.getElem?_append_left hlt]
  exact hslot

/-- Behind a shift the rest of the slots fits. -/
theorem Fits.right {J : Entries V α → Prop} {st : Setting V} {run run' : Run V α}
    {slots tape : List (Slot V α)}
    (h : Fits J st run.session (slots ++ tape)) (hshifts : Shifts J run run' slots) :
    Fits J st run'.session tape := by
  intro entries hentries n slot hslot
  have hmeets := h entries hentries (slots.length + n) slot (by
    rw [List.getElem?_append_right (Nat.le_add_right _ _), Nat.add_sub_cancel_left]
    exact hslot)
  have hplayback : (fun s => playback run'.session entries s n) =
      fun s => playback run.session entries s (slots.length + n) :=
    funext fun s => hshifts.playback_eq entries s n
  rw [hplayback]
  exact hmeets

/-- Runs that replay only what fits. -/
def replaying (base : Grammar V α) (J : Entries V α → Prop) (logged : Prop) (st : Setting V) :
    Tracking V α where
  Ok := Sound base J
  Moves := Moves J logged
  Fits run marks := Fits J st run.session (tapeOf marks)
  refl := Moves.refl
  trans := Moves.trans
  fits_left h := by
    rw [tapeOf_append] at h
    exact h.left
  fits_right h hmoves := by
    rw [tapeOf_append] at h
    exact h.right hmoves.shifts

end SlotGrammar
