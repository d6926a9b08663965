import SlotGrammar.Proofs.Moves

/-!
# Calls and sessions

A call of a recognizer with a cache is replayed, or it builds its outcome.  Either way
the session goes on by the slots that the course of the call has, so a call follows its
course when what the recognizer does itself follows its own.  A parse does all this in a
session of its own and commits outcomes of its slots if it matches.

Main results:

- Theorem `follows_cached`: a call through a store follows its course.
- Theorem `gains_closed`: a match commits outcomes of its slots.
- Theorem `Regime.parse`: a parse inside a run follows its course.
-/

namespace SlotGrammar

variable {V α : Type}

variable {base : Grammar V α} {J : Entries V α → Prop} {logged : Prop} {run mid : Run V α}
  {ses : Session} {s : StoreId}

/-! ## Calls without a cache -/

/-- A node without a store leaves the setting as it is. -/
theorem Setting.below_of_inactive {caching : Caching} (h : caching.isActive = false)
    (st : Setting V) : st.below caching = st := by
  cases caching <;> first | rfl | cases h

/-- Without a store, the computation runs as it stands. -/
theorem Act.through_of_inactive {caching : Caching} (h : caching.isActive = false)
    (work : Act V α (Outcome V α)) : Act.through caching work = work := by
  cases caching <;> first | rfl | cases h

/-- A node without a store only marks its entry and its return. -/
theorem Course.around_of_inactive {handle : Handle} (h : handle.caching.isActive = false)
    (pos : Position) (w : Course V α) :
    w.around handle pos = ⟨w.ending, .entered handle pos :: w.track ++ [.left handle pos []]⟩ := by
  unfold around
  cases hcaching : handle.caching with
  | active s => simp [hcaching, Caching.isActive] at h
  | never => rfl
  | paused s => rfl

/-- A call without a cache follows what the recognizer does itself. -/
theorem follows_uncached {attempt : Attempt V α} {limit : Nat} {ctx : Context V α}
    {r : Recognizer V α} {pos : Position} {st : Setting V} {w : Course V α}
    (hinactive : r.handle.caching.isActive = false)
    (hwork : (replaying base J logged st).Follows (r.work attempt limit ctx pos) w) :
    (replaying base J logged st).Follows (r.attempt attempt limit ctx pos)
      (w.around r.handle pos) := by
  intro run hok hfits
  rw [Course.around_of_inactive hinactive] at hfits ⊢
  have hfits : Fits J st run.session (w.tape ++ []) := by
    simpa [replaying, Mark.slots, Course.tape] using hfits
  have hcalled : Moves J logged run (run.noted (.called r.handle pos run.ordinal?))
      [.entered r.handle pos] :=
    .noted run rfl fun _ => .called hinactive pos _
  have hworked : Moves J logged (run.noted (.called r.handle pos run.ordinal?))
      ((run.noted (.called r.handle pos run.ordinal?)).noted (.worked r.handle pos)) [] :=
    .noted _ rfl fun _ => .worked _ _ _
  obtain ⟨mid, hmid, hokmid, hmoves⟩ := hwork _ ((hok.noted _).noted _) hfits.left
  have hreplied : Moves J logged mid
      (mid.noted (.replied r.handle pos mid.ordinal? w.ending)) [.left r.handle pos []] :=
    .noted mid rfl fun _ => .replied hinactive pos _ _
  refine ⟨_, ?_, hokmid.noted _, ((hcalled.trans hworked).trans hmoves).trans hreplied⟩
  rw [Recognizer.attempt_eq, Act.through_of_inactive hinactive, Act.note_then, hmid]
  rfl

/-! ## Calls with a cache -/

/-- A call that is replayed reserves an ordinal. -/
theorem Shifts.replay (hses : run.session = some ses) {o : Outcome V α}
    (hevident : Evident J ses.key s ses.ordinal o) :
    Shifts J run (run.withSession (some ses.reserve)) [.settled s o] := by
  refine ⟨Nat.le_refl _, fun _ _ _ _ _ => rfl, ?_, ?_⟩
  · intro hnone
    rw [hses] at hnone
    cases hnone
  · intro x hx
    rw [hses] at hx
    cases hx
    refine ⟨ses.reserve, rfl, rfl, rfl, rfl, Session.ordinal_reserve ses, ?_⟩
    intro tape htape
    refine htape.reserve ?_
    intro s' o' heq
    cases heq
    exact hevident

/-- A call that builds its outcome goes on by its own slot, or by those below it too
when it raises an error. -/
theorem Shifts.build (hses : run.session = some ses) {w : Course V α}
    (h : Shifts J (run.withSession (some ses.reserve.beginBuilding)) mid w.tape)
    (hs : s < mid.grammar.stores.size) :
    Shifts J run (Act.built s ses.ordinal w.ending mid) (w.slotsThrough s) := by
  obtain ⟨ses', hses', hid, hkey, hbuilding, hordinal, hbooks⟩ := h.session _ rfl
  -- what the books of the session say once the call has reserved its ordinal
  have hbooks : ∀ tape, ses.Books (Evident J ses.key) run.grammar.stores tape →
      ses'.endBuilding.Books (Evident J ses.key) mid.grammar.stores
        (tape ++ .raised s :: w.tape) := by
    intro tape htape
    have hreserved : ses.reserve.beginBuilding.Books (Evident J ses.key) run.grammar.stores
        (tape ++ [.raised s]) := by
      have hreserve : ses.reserve.Books (Evident J ses.key) run.grammar.stores
          (tape ++ [.raised s]) := htape.reserve fun _ _ heq => by cases heq
      exact hreserve.congr rfl rfl fun _ _ => rfl
    have hinside := hbooks _ hreserved
    rw [List.append_assoc] at hinside
    exact hinside.congr rfl rfl fun _ _ => rfl
  have hothers : ∀ t id n, id < run.grammar.nextSession →
      (∀ x, run.session = some x → x.id ≠ id) →
      mid.grammar.stores.pending t id n = run.grammar.stores.pending t id n := by
    intro t id n hlt hne
    refine h.others t id n hlt ?_
    intro x hx
    cases hx
    exact hne ses hses
  have hnone : ∀ run' : Run V α, run.session = none → run'.session = none := by
    intro run' hnone
    rw [hses] at hnone
    cases hnone
  have hsession : ∀ x, run.session = some x → x = ses := by
    intro x hx
    rw [hses] at hx
    cases hx
    rfl
  have hcount : ses'.building - 1 = ses.building := by
    rw [hbuilding]
    rfl
  have hlength : ses'.journal.length = ses.ordinal + 1 + w.tape.length := by
    have hreserved : ses.reserve.beginBuilding.ordinal = ses.ordinal + 1 :=
      Session.ordinal_reserve ses
    rw [hreserved] at hordinal
    exact hordinal
  unfold Act.built Course.slotsThrough
  rw [hses']
  cases w.ending with
  | error e =>
    refine ⟨h.nextSession_le, hothers, hnone _, ?_⟩
    intro x hx
    cases hsession x hx
    refine ⟨ses'.endBuilding, rfl, hid, hkey, hcount, ?_, ?_⟩
    · show ses'.journal.length = _
      rw [hlength, List.length_cons, List.length_map]
      omega
    · intro tape htape
      exact (hbooks tape htape).pass
  | ok o =>
    refine ⟨h.nextSession_le, ?_, hnone _, ?_⟩
    · intro t id n hlt hne
      rw [← hothers t id n hlt hne]
      refine ses'.pending_settleIn_of_ne hs ses.ordinal o t ?_ n
      rw [hid]
      exact (hne ses hses).symm
    · intro x hx
      cases hsession x hx
      refine ⟨_, rfl, hid, hkey, hcount, ?_, ?_⟩
      · show ((ses'.endBuilding.rollBack (ses.ordinal + 1)).mark ses.ordinal s).ordinal = _
        rw [Session.ordinal_mark, Session.ordinal_rollBack]
        show min (ses.ordinal + 1) ses'.journal.length = ses.ordinal + 1
        omega
      · intro tape htape
        have hlen : ses.ordinal = tape.length := htape.length_eq
        rw [hlen]
        exact (hbooks tape htape).settle hs o

/-- A call that has built its outcome leaves a sound state. -/
theorem Sound.built (h : Sound base J mid) (hs : s < base.stores.size) (k : Nat)
    (ending : Ending V α) : Sound base J (Act.built s k ending mid) := by
  unfold Act.built
  rw [← h.size_eq] at hs
  cases hses : mid.session with
  | none =>
    cases ending <;>
      exact ⟨h.later, h.size_eq, h.allowed, h.fresh, fun x hx => by cases hx⟩
  | some ses =>
    have hid := h.id_lt ses hses
    cases ending with
    | error e =>
      refine ⟨h.later, h.size_eq, h.allowed, h.fresh, ?_⟩
      intro x hx
      cases hx
      exact hid
    | ok o =>
      refine ⟨h.later.onStores _ _, ?_, ?_, ?_, ?_⟩
      · exact (ses.size_settleIn s k o mid.grammar.stores).trans h.size_eq
      · show J (ses.settleIn s k o mid.grammar.stores).committed
        rw [ses.committed_settleIn]
        exact h.allowed
      · intro t id n hle
        have hne : id ≠ ses.id := Nat.ne_of_gt (Nat.lt_of_lt_of_le hid hle)
        rw [← h.fresh t id n hle]
        exact ses.pending_settleIn_of_ne hs k o t hne n
      · intro x hx
        cases hx
        exact hid

/-- What is found at the next ordinal decides whether a call is replayed or sees the
values of the parse. -/
theorem Fits.head {st : Setting V} {session : Option Session} {w : Course V α}
    (h : Fits J st session (w.slotsThrough s)) {entries : Entries V α} (hentries : J entries) :
    (playback session entries s 0 = none → st.frozen s = st.values) ∧
      ∀ o, playback session entries s 0 = some o → w.ending = .ok o := by
  unfold Course.slotsThrough at h
  cases hending : w.ending with
  | ok outcome =>
    rw [hending] at h
    have hmeets := h entries hentries 0 (.settled s outcome) rfl
    refine ⟨hmeets.2, ?_⟩
    intro o ho
    rw [hmeets.1 o ho]
  | error e =>
    rw [hending] at h
    have hmeets := h entries hentries 0 (.raised s) rfl
    refine ⟨fun _ => hmeets.2, ?_⟩
    intro o ho
    have hnone : playback session entries s 0 = none := hmeets.1
    rw [hnone] at ho
    cases ho

theorem Act.built_log (s : StoreId) (k : Nat) (ending : Ending V α) (run : Run V α) :
    (Act.built s k ending run).log = run.log := by
  unfold Act.built
  cases run.session <;> cases ending <;> rfl

/-- What the log tells below a call. -/
theorem Moves.log_below {handle : Handle} {pos : Position} {ordinal : Option Nat}
    {start : Run V α} {marks : List (Mark V α)} (h : Moves J logged start mid marks)
    (hstart : start.log = .worked handle pos :: .called handle pos ordinal :: run.log) :
    ∃ (events : List (Event V α)) (below : Option Nat) (marks : List (Mark V α)),
      mid.log = events.reverse ++ .called handle pos ordinal :: run.log ∧
        (logged → Event.Tells events below marks) := by
  obtain ⟨events, hlog, htells⟩ := h.log
  refine ⟨.worked handle pos :: events, start.ordinal?, marks, ?_, ?_⟩
  · rw [hlog, hstart, List.reverse_cons, List.append_assoc]
    rfl
  · intro hlogged
    have hworked : Event.Tells [(.worked handle pos : Event V α)] start.ordinal? [] :=
      .worked handle pos _
    exact hworked.append (by simpa using htells hlogged)

section Cached

variable {attempt : Attempt V α} {limit : Nat} {ctx : Context V α} {r : Recognizer V α}
  {pos : Position} {st : Setting V} {w : Course V α}

/-- With a store, the computation runs through it. -/
theorem Act.through_of_active {caching : Caching} (h : caching = .active s)
    (work : Act V α (Outcome V α)) : Act.through caching work = Act.throughStore s work := by
  rw [h]
  rfl

/-- Outside a session a call through a store is the work of its recognizer. -/
theorem follows_outside (hactive : r.handle.caching = .active s) (hok : Sound base J run)
    (hses : run.session = none)
    (hwork : (replaying base J logged (st.within s)).Follows (r.work attempt limit ctx pos) w) :
    ∃ mid, r.attempt attempt limit ctx pos run = some (w.ending, mid) ∧ Sound base J mid ∧
      Moves J logged run mid [.entered r.handle pos, .left r.handle pos (w.slotsThrough s)] := by
  have hses₀ : (run.noted (.called r.handle pos run.ordinal?)).session = none := hses
  have hfits : Fits J (st.within s) run.session w.tape := by
    rw [hses]
    exact quiet_none.fits (st.isPlain_within s) _
  obtain ⟨mid, hmid, hokmid, hmoves⟩ :=
    hwork ((run.noted (.called r.handle pos run.ordinal?)).noted (.worked r.handle pos))
      ((hok.noted _).noted _) hfits
  have hshifts : Shifts J run mid (w.slotsThrough s) :=
    hmoves.shifts.of_noted.of_noted.of_no_session hses
  refine ⟨_, ?_, hokmid.noted _,
    .around hshifts hactive pos (hmoves.log_below rfl) (w.filterMap_slotsThrough s)⟩
  rw [Recognizer.attempt_eq, Act.through_of_active hactive, Act.throughStore_no_session _ _ hses₀,
    Act.note_then, hmid]
  rfl

/-- In a session a call through a store is replayed when an outcome is found. -/
theorem follows_replayed (hactive : r.handle.caching = .active s) (hok : Sound base J run)
    (hses : run.session = some ses) {o : Outcome V α}
    (hreplay : playback run.session run.grammar.stores.committed s 0 = some o)
    (hending : w.ending = .ok o) :
    ∃ mid, r.attempt attempt limit ctx pos run = some (w.ending, mid) ∧ Sound base J mid ∧
      Moves J logged run mid [.entered r.handle pos, .left r.handle pos (w.slotsThrough s)] := by
  have hses₀ : (run.noted (.called r.handle pos run.ordinal?)).session = some ses := hses
  have hfound : Act.replay? (run.noted (.called r.handle pos run.ordinal?)) s ses = some o := by
    rw [← hreplay, hses]
    rfl
  have hevident : Evident J ses.key s ses.ordinal o := by
    refine ⟨_, hok.allowed, ?_⟩
    rw [hses, playback, Option.bind_some] at hreplay
    split at hreplay
    · exact hreplay
    · cases hreplay
  have hshifts : Shifts J run ((run.noted (.called r.handle pos run.ordinal?)).withSession
      (some ses.reserve)) (w.slotsThrough s) := by
    rw [Course.slotsThrough, hending]
    exact (Shifts.replay hses hevident).noted (.called r.handle pos run.ordinal?)
  have hok₁ : Sound base J ((run.noted (.called r.handle pos run.ordinal?)).withSession
      (some ses.reserve)) := (hok.noted _).withSession hses₀ rfl
  refine ⟨_, ?_, hok₁.noted _,
    .around hshifts hactive pos ⟨[], none, [], rfl, fun _ => .nil _⟩ (w.filterMap_slotsThrough s)⟩
  rw [Recognizer.attempt_eq, Act.through_of_active hactive,
    Act.throughStore_of_replay hses₀ hfound, hending]
  rfl

/-- In a session a call through a store builds its outcome when none is found. -/
theorem follows_built (hactive : r.handle.caching = .active s) (hs : s < base.stores.size)
    (hok : Sound base J run) (hses : run.session = some ses)
    (hreplay : playback run.session run.grammar.stores.committed s 0 = none)
    (hwork : (replaying base J logged (st.within s)).Follows (r.work attempt limit ctx pos) w) :
    ∃ mid, r.attempt attempt limit ctx pos run = some (w.ending, mid) ∧ Sound base J mid ∧
      Moves J logged run mid [.entered r.handle pos, .left r.handle pos (w.slotsThrough s)] := by
  have hses₀ : (run.noted (.called r.handle pos run.ordinal?)).session = some ses := hses
  have hnone : Act.replay? (run.noted (.called r.handle pos run.ordinal?)) s ses = none := by
    rw [← hreplay, hses]
    rfl
  have hbusy : ses.reserve.beginBuilding.building ≠ 0 := Nat.succ_ne_zero _
  have hok₁ : Sound base J ((run.noted (.called r.handle pos run.ordinal?)).withSession
      (some ses.reserve.beginBuilding)) := (hok.noted _).withSession hses₀ rfl
  obtain ⟨mid, hmid, hokmid, hmoves⟩ :=
    hwork _ (hok₁.noted (.worked r.handle pos))
      ((quiet_building hbusy).fits (st.isPlain_within s) _)
  have hinside : Shifts J (run.withSession (some ses.reserve.beginBuilding)) mid w.tape :=
    ⟨hmoves.shifts.nextSession_le, hmoves.shifts.others, hmoves.shifts.no_session,
      hmoves.shifts.session⟩
  have hshifts := Shifts.build hses hinside (by rw [hokmid.size_eq]; exact hs)
  refine ⟨_, ?_, (hokmid.built hs ses.ordinal w.ending).noted _,
    .around hshifts hactive pos ?_ (w.filterMap_slotsThrough s)⟩
  · rw [Recognizer.attempt_eq, Act.through_of_active hactive,
      Act.throughStore_of_build hses₀ hnone, Act.note_then, hmid]
    rfl
  · rw [Act.built_log]
    exact hmoves.log_below rfl

/-- A call through a store follows what the recognizer does itself, unless it is
replayed. -/
theorem follows_cached (hactive : r.handle.caching = .active s) (hs : s < base.stores.size)
    (hview : ctx.view = st.toView)
    (hwork : ctx.view = (st.within s).toView →
      (replaying base J logged (st.within s)).Follows (r.work attempt limit ctx pos) w) :
    (replaying base J logged st).Follows (r.attempt attempt limit ctx pos)
      (w.around r.handle pos) := by
  intro run hok hfits
  have haround : w.around r.handle pos =
      ⟨w.ending, [.entered r.handle pos, .left r.handle pos (w.slotsThrough s)]⟩ := by
    rw [Course.around, hactive]
  rw [haround] at hfits ⊢
  have hfits : Fits J st run.session (w.slotsThrough s) := by
    simpa [replaying, Mark.slots] using hfits
  obtain ⟨hvalues, hfound⟩ := hfits.head hok.allowed
  -- where nothing is found, the work sees the values of the parse
  have hworks (hnone : playback run.session run.grammar.stores.committed s 0 = none) :
      (replaying base J logged (st.within s)).Follows (r.work attempt limit ctx pos) w := by
    refine hwork ?_
    rw [hview, Setting.within_toView (hvalues hnone)]
  cases hses : run.session with
  | none =>
    refine follows_outside hactive hok hses (hworks ?_)
    rw [hses]
    rfl
  | some ses =>
    cases hreplay : playback run.session run.grammar.stores.committed s 0 with
    | some o => exact follows_replayed hactive hok hses hreplay (hfound o hreplay)
    | none => exact follows_built hactive hs hok hses hreplay (hworks hreplay)

end Cached

/-! ## Sessions -/

/-- The trace of a parse. -/
def traceKey (root : Recognizer V α) (input : Fragments) : TraceKey :=
  ⟨root.handle.id, input.fingerprint⟩

/-- Whether committed outcomes are old, or come from the slots of a parse. -/
def Gains (entries entries' : Entries V α) (key : TraceKey) (tape : List (Slot V α)) : Prop :=
  ∀ (s : StoreId) (key' : TraceKey) (n : Nat) (o : Outcome V α), entries' s key' n = some o →
    entries s key' n = some o ∨
      key' = key ∧ (tape[n]? = some (.settled s o) ∨ tape[n]? = some .passed)

/-- Opening a session leaves the journals sound. -/
theorem Sound.opened (h : Sound base J run) (ctx : Context V α) (root : Recognizer V α) :
    Sound base J (run.opened ctx root) := by
  unfold Run.opened
  split
  · refine ⟨h.later.onStores run.grammar.stores _, h.size_eq, h.allowed, ?_, ?_⟩
    · intro t id n hle
      exact h.fresh t id n (Nat.le_of_succ_le hle)
    · intro ses hses
      cases hses
      exact Nat.lt_succ_self _
  · refine ⟨h.later, h.size_eq, h.allowed, h.fresh, ?_⟩
    intro ses hses
    cases hses

/-- A parse follows its course when the attempt of its root does. -/
theorem inSession_follows (h : Sound base J run) {ctx : Context V α} {root : Recognizer V α}
    {st : Setting V} {act : Act V α (Outcome V α)} {c : Course V α}
    (hact : (replaying base J logged st).Follows act c)
    (hfits : Fits J st (run.opened ctx root).session c.tape) :
    ∃ mid, Act.inSession ctx root act run = some (c.ending, mid.closed run.session c.ending) ∧
      Sound base J mid ∧ Moves J logged (run.opened ctx root) mid c.track := by
  obtain ⟨mid, hmid, hok, hmoves⟩ := hact _ (h.opened ctx root) hfits
  refine ⟨mid, ?_, hok, hmoves⟩
  rw [Act.inSession_eq, hmid]
  rfl

/-- A parse with caching starts in a session of its own. -/
theorem session_opened {ctx : Context V α} (hcache : ctx.options.cache = true)
    (root : Recognizer V α) (run : Run V α) :
    (run.opened ctx root).session =
      some { id := run.grammar.nextSession, key := traceKey root ctx.input } := by
  unfold Run.opened
  rw [if_pos hcache]
  rfl

/-- A parse without caching starts without a session. -/
theorem session_opened_uncached {ctx : Context V α} (hcache : ctx.options.cache = false)
    (root : Recognizer V α) (run : Run V α) : (run.opened ctx root).session = none := by
  unfold Run.opened
  rw [hcache]
  rfl

/-- A parse starts in the next session, for its own trace, if it starts in one. -/
theorem Run.session_of_opened {ctx : Context V α} {root : Recognizer V α} {ses : Session}
    (h : (run.opened ctx root).session = some ses) :
    ses.id = run.grammar.nextSession ∧ ses.key = traceKey root ctx.input := by
  unfold opened at h
  split at h
  · cases h
    exact ⟨rfl, rfl⟩
  · cases h

/-- Opening a session leaves the stores. -/
theorem stores_opened (ctx : Context V α) (root : Recognizer V α) (run : Run V α) :
    (run.opened ctx root).grammar.stores = run.grammar.stores := by
  unfold Run.opened
  split <;> rfl

/-- A parse starts with what lies in the stores at its own trace. -/
theorem fits_opened {ctx : Context V α} (hcache : ctx.options.cache = true) {root : Recognizer V α}
    {st : Setting V} {tape : List (Slot V α)}
    (h : ∀ entries, J entries → ∀ (n : Nat) (slot : Slot V α), tape[n]? = some slot →
      slot.Meets st fun s => entries s (traceKey root ctx.input) n) (run : Run V α) :
    Fits J st (run.opened ctx root).session tape := by
  intro entries hentries n slot hslot
  have hmeets := h entries hentries n slot hslot
  have hplayback : (fun s => playback (run.opened ctx root).session entries s n) =
      fun s => entries s (traceKey root ctx.input) n := by
    funext s
    rw [session_opened hcache]
    show entries s (traceKey root ctx.input) (0 + n) = _
    rw [Nat.zero_add]
  rw [hplayback]
  exact hmeets

/-- Opening a session leaves the log. -/
theorem log_opened (ctx : Context V α) (root : Recognizer V α) (run : Run V α) :
    (run.opened ctx root).log = run.log := by
  unfold Run.opened
  split <;> rfl

/-- Closing a session leaves the log. -/
theorem log_closed (outer : Option Session) (ending : Ending V α) (run : Run V α) :
    (run.closed outer ending).log = run.log := by
  unfold Run.closed
  split <;> rfl

/-- The books of a parse at its end. -/
theorem books_at_end (h : Sound base J run) {ctx : Context V α} {root : Recognizer V α}
    (hcache : ctx.options.cache = true) {marks : List (Mark V α)}
    (hmoves : Moves J logged (run.opened ctx root) mid marks) :
    ∃ ses', mid.session = some ses' ∧ ses'.id = run.grammar.nextSession ∧
      ses'.key = traceKey root ctx.input ∧
      ses'.Books (Evident J (traceKey root ctx.input)) mid.grammar.stores (tapeOf marks) := by
  unfold Run.opened at hmoves
  rw [if_pos hcache] at hmoves
  obtain ⟨ses', hses', hid, hkey, -, -, hbooks⟩ := hmoves.shifts.session _ rfl
  exact ⟨ses', hses', hid, hkey, hbooks [] (.start rfl fun t n => h.fresh t _ n (Nat.le_refl _))⟩

/-- The stores after a parse that ended as given. -/
theorem stores_closed {outer : Option Session} {ses' : Session} (hses : mid.session = some ses')
    (ending : Ending V α) :
    (mid.closed outer ending).grammar.stores =
      ses'.finish ending.isMatch mid.grammar.stores := by
  unfold Run.closed
  rw [hses]

/-- A parse without a match commits nothing. -/
theorem committed_closed_of_not_match {outer : Option Session} {ending : Ending V α}
    (hmatch : ending.isMatch = false) :
    (mid.closed outer ending).grammar.stores.committed = mid.grammar.stores.committed := by
  funext t key n
  cases hses : mid.session with
  | none =>
    unfold Run.closed
    rw [hses]
  | some ses' => rw [stores_closed hses, hmatch, Session.committed_finish_false]

/-- A match commits what is pending, under the trace of the parse. -/
theorem committed_closed {outer : Option Session} {ses' : Session} (hses : mid.session = some ses')
    {tape : List (Slot V α)} {key : TraceKey} (hkey : ses'.key = key)
    (hbooks : ses'.Books (Evident J key) mid.grammar.stores tape) {ending : Ending V α}
    (hmatch : ending.isMatch = true) (t : StoreId) (key' : TraceKey) (n : Nat) :
    (mid.closed outer ending).grammar.stores.committed t key' n =
      if key' = key then
        (mid.grammar.stores.pending t ses'.id n).or (mid.grammar.stores.committed t key' n)
      else mid.grammar.stores.committed t key' n := by
  rw [stores_closed hses, hmatch, hbooks.committed_finish, hkey]

/-- A match commits outcomes of its slots. -/
theorem gains_closed {outer : Option Session} {ses' : Session} (hses : mid.session = some ses')
    {tape : List (Slot V α)} {key : TraceKey} (hkey : ses'.key = key)
    (hbooks : ses'.Books (Evident J key) mid.grammar.stores tape) {ending : Ending V α}
    (hmatch : ending.isMatch = true) :
    Gains mid.grammar.stores.committed (mid.closed outer ending).grammar.stores.committed key
      tape := by
  intro t key' n o ho
  rw [committed_closed hses hkey hbooks hmatch] at ho
  split at ho
  next heq =>
    cases hpending : mid.grammar.stores.pending t ses'.id n with
    | none =>
      rw [hpending] at ho
      exact .inl ho
    | some o' =>
      rw [hpending] at ho
      cases ho
      exact .inr ⟨heq, hbooks.slot_of_pending hpending⟩
  · exact .inl ho

/-- After a parse the run is in a sound state again, if what was committed may lie in
the stores. -/
theorem Sound.closed {J' : Entries V α → Prop} (h : Sound base J mid) {outer : Option Session}
    {ending : Ending V α} (hallowed : J' (mid.closed outer ending).grammar.stores.committed)
    (houter : ∀ ses, outer = some ses → ses.id < mid.grammar.nextSession) :
    Sound base J' (mid.closed outer ending) := by
  unfold Run.closed at hallowed ⊢
  cases hses : mid.session with
  | none =>
    rw [hses] at hallowed
    exact ⟨h.later, h.size_eq, hallowed, h.fresh, houter⟩
  | some ses =>
    rw [hses] at hallowed
    refine ⟨h.later.onStores _ mid.grammar.nextSession, ?_, hallowed, ?_, houter⟩
    · exact (ses.size_finish ending.isMatch mid.grammar.stores).trans h.size_eq
    · intro t id n hle
      have hne : id ≠ ses.id := Nat.ne_of_gt (Nat.lt_of_lt_of_le (h.id_lt ses hses) hle)
      exact (ses.pending_finish ending.isMatch mid.grammar.stores t hne n).trans
        (h.fresh t id n hle)

/-- What is pending for the sessions that were started before a parse is not touched by it. -/
theorem Shifts.pending_closed {ctx : Context V α} {root : Recognizer V α} {slots : List (Slot V α)}
    (h : Shifts J (run.opened ctx root) mid slots) (outer : Option Session) (ending : Ending V α)
    (t : StoreId) {id : SessionId} (n : Nat) (hlt : id < run.grammar.nextSession) :
    (mid.closed outer ending).grammar.stores.pending t id n =
      run.grammar.stores.pending t id n := by
  have hne : ∀ ses, (run.opened ctx root).session = some ses → ses.id ≠ id := by
    intro ses hses
    rw [(Run.session_of_opened hses).1]
    exact Nat.ne_of_gt hlt
  have hmid : mid.grammar.stores.pending t id n = run.grammar.stores.pending t id n := by
    rw [← stores_opened ctx root run]
    exact h.others t id n (Nat.lt_of_lt_of_le hlt (run.nextSession_le_opened ctx root)) hne
  rw [← hmid]
  cases hses : mid.session with
  | none =>
    rw [Run.closed_of_no_session hses]
    rfl
  | some ses' =>
    obtain ⟨ses, hopened, hid⟩ := h.session_before hses
    rw [Run.closed_of_session hses]
    refine ses'.pending_finish _ _ t ?_ n
    rw [hid]
    exact (hne ses hopened).symm

/-- A parse leaves the sessions around it alone. -/
theorem Shifts.closed (h : Sound base J run) {ctx : Context V α} {root : Recognizer V α}
    {slots : List (Slot V α)} (hshifts : Shifts J (run.opened ctx root) mid slots)
    (ending : Ending V α) : Shifts J run (mid.closed run.session ending) [] where
  nextSession_le := by
    rw [Run.nextSession_closed]
    exact (run.nextSession_le_opened ctx root).trans hshifts.nextSession_le
  others t id n hlt _ := hshifts.pending_closed run.session ending t n hlt
  no_session hnone := by rw [Run.session_closed, hnone]
  session ses hses := by
    refine ⟨ses, by rw [Run.session_closed, hses], rfl, rfl, rfl, rfl, ?_⟩
    intro tape htape
    rw [List.append_nil]
    exact htape.congr rfl rfl fun t n =>
      hshifts.pending_closed run.session ending t n (h.id_lt ses hses)

/-- Parses from some recognizers, over some set of recognizers, keep a condition on
committed outcomes: what their courses need fits, and what they commit is allowed. -/
structure Regime (ρ : Targets V α) (P starts : Recognizer V α → Prop)
    (J : Entries V α → Prop) : Prop where
  clear : ∀ {handle : Handle} {t p : Recognizer V α} {s : StoreId} {entries : Entries V α},
    P (.node handle (.clearing t p)) → t.handle.caching.store? = some s → J entries →
    J fun s' key n => if s' = s then none else entries s' key n
  fits : ∀ {root : Recognizer V α} {st : Setting V} {limit : Nat} {c : Course V α}
    {entries : Entries V α}, starts root → st.IsPlain → course ρ limit st root .start = some c →
    J entries → ∀ (n : Nat) (slot : Slot V α), c.tape[n]? = some slot →
    slot.Meets st fun s => entries s (traceKey root st.input) n
  commit : ∀ {root : Recognizer V α} {st : Setting V} {limit : Nat} {c : Course V α}
    {entries entries' : Entries V α}, starts root → st.IsPlain →
    course ρ limit st root .start = some c → c.ending.isMatch = true → J entries →
    Gains entries entries' (traceKey root st.input) c.tape → J entries'
  known : ∀ {root : Recognizer V α} {st : Setting V} {entries : Entries V α} {s : StoreId}
    {n : Nat} {o : Outcome V α}, starts root → st.IsPlain → J entries →
    entries s (traceKey root st.input) n = some o →
    ∃ limit c, course ρ limit st root .start = some c

/-- Where no parse is inside another one, any outcomes may lie in the stores, as long as
clearing leaves them so. -/
theorem Regime.of_no_start {ρ : Targets V α} {P : Recognizer V α → Prop}
    (hclear : ∀ {handle : Handle} {t p : Recognizer V α} {s : StoreId} {entries : Entries V α},
      P (.node handle (.clearing t p)) → t.handle.caching.store? = some s → J entries →
      J fun s' key n => if s' = s then none else entries s' key n) :
    Regime ρ P (fun _ => False) J where
  clear := hclear
  fits h := h.elim
  commit h := h.elim
  known h := h.elim

/-- A parse follows the course of its root.  With caching it has to start from a recognizer
that parses may start from. -/
theorem Regime.parse {ρ : Targets V α} {P starts : Recognizer V α → Prop}
    (hregime : Regime ρ P starts J) (h : Sound base J run) {ctx : Context V α}
    {root : Recognizer V α} (hstart : ctx.options.cache = true → starts root)
    {st : Setting V} (hplain : st.IsPlain) (hinput : st.input = ctx.input)
    {act : Act V α (Outcome V α)} {c : Course V α} {limit : Nat}
    (hc : course ρ limit st root .start = some c)
    (hact : (replaying base J logged st).Follows act c) :
    ∃ run', Act.inSession ctx root act run = some (c.ending, run') ∧ Sound base J run' ∧
      Shifts J run run' [] ∧ ∃ events : List (Event V α), run'.log = events ++ run.log := by
  have hfits : Fits J st (run.opened ctx root).session c.tape := by
    cases hcache : ctx.options.cache with
    | false =>
      rw [session_opened_uncached hcache]
      exact quiet_none.fits hplain _
    | true =>
      refine fits_opened hcache ?_ run
      intro entries hentries n slot hslot
      rw [← hinput]
      exact hregime.fits (hstart hcache) hplain hc hentries n slot hslot
  obtain ⟨mid, hmid, hok, hmoves⟩ := inSession_follows h hact hfits
  have hallowed : J (mid.closed run.session c.ending).grammar.stores.committed := by
    cases hcache : ctx.options.cache with
    | false =>
      rw [Run.closed_of_no_session (hmoves.shifts.no_session (session_opened_uncached hcache _ _))]
      exact hok.allowed
    | true =>
      cases hmatch : c.ending.isMatch with
      | false =>
        rw [committed_closed_of_not_match hmatch]
        exact hok.allowed
      | true =>
        obtain ⟨ses', hses', -, hkey, hbooks⟩ := books_at_end h hcache hmoves
        refine hregime.commit (hstart hcache) hplain hc hmatch hok.allowed ?_
        rw [hinput]
        exact gains_closed hses' hkey hbooks hmatch
  have hshifts : Shifts J run (mid.closed run.session c.ending) [] :=
    .closed h hmoves.shifts c.ending
  refine ⟨_, hmid, hok.closed hallowed ?_, hshifts, ?_⟩
  · intro ses hses
    have hle := hshifts.nextSession_le
    rw [Run.nextSession_closed] at hle
    exact Nat.lt_of_lt_of_le (h.id_lt ses hses) hle
  · obtain ⟨events, hlog, -⟩ := hmoves.log
    refine ⟨events.reverse, ?_⟩
    rw [log_closed, hlog, log_opened]

end SlotGrammar
