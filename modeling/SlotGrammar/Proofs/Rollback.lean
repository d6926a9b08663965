import SlotGrammar.Proofs.FatalErrors
import SlotGrammar.Proofs.Isolation

/-!
# Rollback

A call through a store that ends with an outcome takes back the ordinals below its own, with
everything that was recorded there: after it the counter is one past its ordinal, and nothing is
pending that was not pending before, but for its own outcome.  A call that ends with an error
takes nothing back.  So it leaves what was recorded below it pending, and when the error is
caught and the parse goes on to match, this is committed.

Main results:

- Definition `Run.Ascends`: a run that leaves everything below its ordinal alone.
- Theorem `Snapshot.Whole.snapshots`: the snapshots of each attempt in a parse are in a row.
- Theorem `CachedCall.rolledBack_of_ordinal`: what is left to show when the counter is right.
- Theorem `Grammar.InUse.rolledBack`: the calls that are rolled back.
- Theorem `Grammar.abortedLetter_keeps`: one that is not.
-/

namespace SlotGrammar

variable {V α : Type}

/-! ## Runs above an ordinal -/

/-- Whether a run has gone on in its session above what was there: its journal goes on, and what
was pending at the ordinals in it is as before. -/
def Run.Ascends (run run' : Run V α) : Prop :=
  ∀ ses, run.session = some ses → ∃ ses', run'.session = some ses' ∧ ses'.id = ses.id ∧
    ses.journal <+: ses'.journal ∧ ∀ t n, n < ses.ordinal →
      run'.grammar.stores.pending t ses.id n = run.grammar.stores.pending t ses.id n

namespace Run.Ascends

variable {run mid run' : Run V α}

/-- A step that touches neither the session nor what is pending. -/
theorem silent (hsession : run'.session = run.session)
    (hpending : run'.grammar.stores.pending = run.grammar.stores.pending) : run.Ascends run' := by
  intro ses hses
  refine ⟨ses, hsession.trans hses, rfl, List.prefix_rfl, fun t n _ => ?_⟩
  rw [hpending]

/-- Ascents on each other are an ascent. -/
theorem trans (h : run.Ascends mid) (h' : mid.Ascends run') : run.Ascends run' := by
  intro ses hses
  obtain ⟨ses', hses', hid, hjournal, hpending⟩ := h ses hses
  obtain ⟨ses'', hses'', hid', hjournal', hpending'⟩ := h' ses' hses'
  refine ⟨ses'', hses'', hid'.trans hid, hjournal.trans hjournal', fun t n hn => ?_⟩
  have hlt : n < ses'.ordinal := Nat.lt_of_lt_of_le hn hjournal.length_le
  rw [← hpending t n hn, ← hid]
  exact hpending' t n hlt

end Run.Ascends

/-- A record at an ordinal leaves what is pending at lower ones alone. -/
theorem Session.pending_settleIn_below (ses : Session) (s : StoreId) (k : Nat) (o : Outcome V α)
    (stores : Stores V α) (t : StoreId) {m : Nat} (hm : m < k) :
    (ses.settleIn s k o stores).pending t ses.id m = stores.pending t ses.id m := by
  have hrecord : (ses.settleIn s k o stores).pending t ses.id m =
      (ses.dropFrom (k + 1) stores).pending t ses.id m := by
    apply Stores.bind_modify_of_eq
    intro store _ _
    rw [Store.pending?_record, if_neg]
    exact fun heq => Nat.ne_of_gt hm (Prod.mk.inj heq).2
  rw [hrecord, dropFrom, pending_dropSlots, if_neg (by omega)]

namespace Run.Ascends

variable {run mid : Run V α}

/-- A call that builds its outcome records it above the ordinals that are there, and takes back
none of these. -/
theorem built {start : Run V α} {ses : Session} (h : start.Ascends mid)
    (hses : run.session = some ses) (hstart : start.session = some ses.reserve.beginBuilding)
    (hpending : start.grammar.stores.pending = run.grammar.stores.pending) (s : StoreId)
    (ending : Ending V α) : run.Ascends (Act.built s ses.ordinal ending mid) := by
  obtain ⟨ses', hses', hid, hjournal, hmid⟩ := h _ hstart
  have hid : ses'.id = ses.id := hid
  have hbelow : ∀ t n, n < ses.ordinal → mid.grammar.stores.pending t ses.id n =
      run.grammar.stores.pending t ses.id n := by
    intro t n hn
    rw [← hpending]
    exact hmid t n (Nat.lt_of_lt_of_le hn (by simp))
  intro ses₁ hses₁
  cases hses.symm.trans hses₁
  cases ending with
  | error e =>
    rw [Run.built_error hses']
    exact ⟨ses'.endBuilding, rfl, hid, (List.prefix_append _ _).trans hjournal, hbelow⟩
  | ok outcome =>
    unfold Act.built
    rw [hses']
    refine ⟨(ses'.endBuilding.rollBack (ses.ordinal + 1)).mark ses.ordinal s, rfl, hid, ?_, ?_⟩
    · obtain ⟨rest, hrest⟩ := hjournal
      refine ⟨[some s], ?_⟩
      show _ = (ses'.journal.take (ses.journal.length + 1)).set ses.journal.length (some s)
      rw [← hrest]
      simp [Session.reserve, Session.beginBuilding, List.take_append]
    · intro t n hn
      rw [← hbelow t n hn, ← hid]
      exact ses'.pending_settleIn_below s ses.ordinal outcome mid.grammar.stores t hn

/-- A parse inside a run gives its session back, with what was pending for it. -/
theorem nested {ctx : Context V α} {root : Recognizer V α} {l : List (Snapshot V α)}
    (h : Isolates (run.opened ctx root) l mid) (htimely : run.Timely) (ending : Ending V α) :
    run.Ascends (mid.closed run.session ending) := by
  intro ses hses
  refine ⟨ses, (mid.session_closed _ ending).trans hses, rfl, List.prefix_rfl, fun t n _ => ?_⟩
  exact h.pending_closed t n (htimely.started ses hses)

end Run.Ascends

/-- What happens in a run leaves everything below its ordinal alone. -/
def ascending : Conduct V α where
  Ok := isolating.Ok
  Knows _ _ := True
  Sees _ := True
  Goes run l run' := Isolates run l run' ∧ run.Ascends run'
  Fair _ := True
  refl run := ⟨isolating.refl run, .silent rfl rfl⟩
  trans h h' := ⟨h.1.trans h'.1, h.2.trans h'.2⟩
  knows_goes _ _ := trivial
  knows_part _ _ := trivial
  entered _ _ _ := trivial
  working _ _ _ := trivial
  returned _ _ _ _ := trivial
  noted event haside h :=
    ⟨(isolating.noted event haside h).1, (isolating.noted event haside h).2, .silent rfl rfl⟩
  cleared := by
    intro nesting run handle t p h _
    have hknows : isolating.Knows run.grammar (.node handle (.clearing t p)) := trivial
    rcases isolating.cleared h hknows with ⟨hok, hgoes⟩
    rcases run.grammar.dropTraces_eq t with ⟨stores, heq, -, hpending, -⟩
    refine ⟨hok, hgoes, .silent rfl ?_⟩
    rw [heq]
    exact hpending
  followed := by
    intro nesting run run' ctx handle target found h _ _ hfollow
    have hknows : isolating.Knows run.grammar (.link handle target) := trivial
    rcases isolating.followed h trivial hknows hfollow with ⟨hok, hgoes, -⟩
    rcases Grammar.Enlarges.followed hfollow with ⟨hgrow, hsession⟩
    exact ⟨hok, ⟨hgoes, .silent hsession hgrow.pending_eq⟩, fun _ _ => ⟨trivial, trivial⟩⟩
  straight := by
    intro nesting run r pos h _ hway
    rcases isolating.straight pos h trivial hway with ⟨hok, hend⟩
    refine ⟨hok, fun l mid ending hmid hgoes => ?_⟩
    rcases hend l mid ending hmid hgoes.1 with ⟨hafter, hisolates⟩
    exact ⟨hafter, hisolates, ((Run.Ascends.silent rfl rfl).trans hgoes.2).trans (.silent rfl rfl)⟩
  replays := by
    intro nesting run r pos ses outcome h _ hway
    rcases isolating.replays pos h trivial hway with ⟨hok, hgoes⟩
    rcases Run.way_eq_replays hway with ⟨s, -, hses, -⟩
    refine ⟨hok, hgoes, fun ses' hses' => ?_⟩
    cases hses.symm.trans hses'
    exact ⟨ses.reserve, rfl, rfl, List.prefix_append _ _, fun _ _ _ => rfl⟩
  builds := by
    intro nesting run r pos s ses h _ hway
    rcases isolating.builds pos h trivial hway with ⟨hok, hend⟩
    rcases Run.way_eq_builds hway with ⟨-, hses, -⟩
    refine ⟨hok, fun l mid ending hmid hgoes => ?_⟩
    rcases hend l mid ending hmid hgoes.1 with ⟨-, hafter, hisolates⟩
    have hbuilt : run.Ascends (Act.built s ses.ordinal ending mid) :=
      hgoes.2.built hses rfl rfl s ending
    exact ⟨fun _ _ => trivial, hafter, hisolates, hbuilt.trans (.silent rfl rfl)⟩
  nested := by
    intro nesting run ctx handle sub p h _ _
    have hknows : isolating.Knows run.grammar (.node handle (.nested sub p)) := trivial
    have hsees : isolating.Sees ctx := trivial
    rcases isolating.nested h hsees hknows with ⟨hok, -, -, hend⟩
    refine ⟨hok, trivial, trivial, fun l mid ending hmid hgoes => ?_⟩
    rcases hend l mid ending hmid hgoes.1 with ⟨-, hafter, hisolates⟩
    exact ⟨trivial, hafter, hisolates, .nested hgoes.1 h.timely ending⟩

/-- In a snapshot that is in order a run may go on. -/
theorem Snapshot.InOrder.placed {snap : Snapshot V α} (h : snap.InOrder) :
    snap.run.Placed snap.nesting :=
  ⟨h.flight.timely, fun ses hses => (h.flight.sessions _ List.mem_cons_self ses hses).key_eq⟩

section Attempts

variable {limit : Nat} {nesting : Nesting V α} {ctx : Context V α} {r : Recognizer V α}
  {pos : Position} {run after : Run V α} {ending : Ending V α}

/-- A call that ends was snapshotted as it was entered. -/
theorem entered_mem_of_exec (h : exec limit ctx r pos run = some (ending, after)) :
    ⟨.entered r.handle pos, nesting, run⟩ ∈ snapshots limit nesting ctx r pos run := by
  cases limit with
  | zero => cases h
  | succ limit => exact List.mem_cons_self

/-- An attempt goes on in its session, above what was there. -/
theorem goes_of_exec (horder : ∀ snap ∈ snapshots limit nesting ctx r pos run, snap.InOrder)
    (h : exec limit ctx r pos run = some (ending, after)) :
    Isolates run (snapshots limit nesting ctx r pos run) after ∧ run.Ascends after := by
  have hplaced : run.Placed nesting := (horder _ (entered_mem_of_exec h)).placed
  have hpasses := ascending.passes_exec limit nesting ctx r pos run hplaced trivial trivial
  exact (hpasses.goes ending after h).2

end Attempts

/-! ## Attempts in a list of snapshots -/

/-- Whether a snapshot is the last one of an attempt whose snapshots are in a row in a list. -/
def Snapshot.Ends (snap : Snapshot V α) (l : List (Snapshot V α)) : Prop :=
  ∃ limit ctx r pos ending run, snap.occasion = .returned r.handle pos ending ∧
    exec limit ctx r pos run = some (ending, snap.run) ∧
    SlotGrammar.snapshots limit snap.nesting ctx r pos run <:+: l

/-- Whether a list of snapshots has whole attempts only, up to those that never end. -/
def Snapshot.Whole (l : List (Snapshot V α)) : Prop :=
  ∀ snap ∈ l, ∀ handle pos ending, snap.occasion = .returned handle pos ending → snap.Ends l

namespace Snapshot.Whole

variable {snap : Snapshot V α} {l l' : List (Snapshot V α)}

/-- No snapshots at all are whole. -/
theorem nil : Whole ([] : List (Snapshot V α)) := by
  intro snap hsnap
  cases hsnap

/-- What is part of a longer list stays whole in it. -/
theorem ends_of_infix (h : Whole l) (hpart : l <:+: l') (hsnap : snap ∈ l) {handle : Handle}
    {pos : Position} {ending : Ending V α}
    (hreturned : snap.occasion = .returned handle pos ending) : snap.Ends l' := by
  rcases h snap hsnap handle pos ending hreturned with
    ⟨limit, ctx, r, pos', ending', run, hoccasion, hexec, hrow⟩
  exact ⟨limit, ctx, r, pos', ending', run, hoccasion, hexec, hrow.trans hpart⟩

/-- Whole parts make a whole. -/
theorem append (h : Whole l) (h' : Whole l') : Whole (l ++ l') := by
  intro snap hsnap handle pos ending hreturned
  rcases List.mem_append.1 hsnap with hold | hnew
  · exact h.ends_of_infix (List.prefix_append l l').isInfix hold hreturned
  · exact h'.ends_of_infix (List.suffix_append l l').isInfix hnew hreturned

/-- Snapshots in which no attempt ends do not matter. -/
theorem of_busy (h : ∀ snap ∈ l, ∀ handle pos ending, snap.occasion ≠ .returned handle pos ending) :
    Whole l :=
  fun snap hsnap handle pos ending hreturned => absurd hreturned (h snap hsnap handle pos ending)

/-- A snapshot of no return may be put in front. -/
theorem cons (h : Whole l)
    (hbusy : ∀ handle pos ending, snap.occasion ≠ .returned handle pos ending) :
    Whole (snap :: l) := by
  have hfirst : Whole [snap] := of_busy (by simpa using hbusy)
  exact hfirst.append h

/-- What follows an action is whole. -/
theorem afterwards {result : Option (Ending V α × Run V α)}
    {see : Ending V α → Run V α → List (Snapshot V α)} (h : ∀ ending run, Whole (see ending run)) :
    Whole (Snapshot.afterwards result see) := by
  cases result with
  | none => exact nil
  | some x => exact h x.1 x.2

/-- A script is watched as a whole when the attempts it asks for are. -/
theorem script {attempt : Attempt V α} {watch : Watch V α}
    (h : ∀ nesting ctx r pos run, Whole (watch nesting ctx r pos run)) (nesting : Nesting V α)
    (ctx : Context V α) (script : Script V α) (run : Run V α) :
    Whole (script.snapshots attempt watch nesting ctx run) := by
  induction script generalizing run with
  | ended ending => exact nil
  | exhausted => exact nil
  | call p pos next ih => exact (h nesting ctx p pos run).append (afterwards ih)
  | nest input p next ih =>
    refine (h _ _ p .start _).append (afterwards fun ending after => ?_)
    exact (ih ending after).cons (by simp)
  | clear t next ih => exact ih _
  | note event next ih => exact ih _
  | probe label p pos => exact h nesting ctx p pos run

/-- The snapshots of a call between its start and its end are whole when those of the attempts in
it are. -/
theorem callSnapshots {attempt : Attempt V α} {watch : Watch V α}
    (h : ∀ nesting ctx r pos run, Whole (watch nesting ctx r pos run)) (limit : Nat)
    (nesting : Nesting V α) (ctx : Context V α) (r : Recognizer V α) (pos : Position)
    (run : Run V α) : Whole (r.callSnapshots attempt watch limit nesting ctx pos run) := by
  have hwork : ∀ nesting start,
      Whole (r.workSnapshots attempt watch limit nesting ctx pos start) := by
    intro nesting start
    cases r with
    | node handle shape => exact script h nesting ctx _ start
    | link handle target =>
      rcases Act.exists_follow ctx target start with ⟨found, mid, hfollow⟩
      rw [Recognizer.workSnapshots, hfollow]
      cases found with
      | none => exact nil
      | some x => exact h nesting x.1 x.2 pos mid
  have hafter : ∀ s k ending mid, Whole (Snapshot.afterWork nesting s k ending mid) := by
    intro s k ending mid
    apply of_busy
    exact Snapshot.forall_afterWork (by simp) (by simp)
  unfold Recognizer.callSnapshots
  cases run.way r.handle.caching with
  | straight => exact (hwork _ _).cons (by simp)
  | replays ses o => exact nil
  | builds s ses =>
    exact ((hwork _ _).append (afterwards (hafter s ses.ordinal))).cons (by simp)

/-- The snapshots of an attempt are whole. -/
theorem snapshots (limit : Nat) (nesting : Nesting V α) (ctx : Context V α) (r : Recognizer V α)
    (pos : Position) (run : Run V α) :
    Whole (SlotGrammar.snapshots limit nesting ctx r pos run) := by
  induction limit generalizing nesting ctx r pos run with
  | zero => exact nil
  | succ limit ih =>
    have hcall : Whole (r.callSnapshots (exec limit) (SlotGrammar.snapshots limit) limit nesting
        ctx pos run) := callSnapshots ih limit nesting ctx r pos run
    have hbegun : Whole (⟨.entered r.handle pos, nesting, run⟩ :: _) := hcall.cons (by simp)
    intro snap hsnap handle pos' ending hreturned
    have hall : SlotGrammar.snapshots (limit + 1) nesting ctx r pos run =
        (⟨.entered r.handle pos, nesting, run⟩ :: _) ++ Snapshot.afterwards _ _ := rfl
    rw [hall] at hsnap
    rcases List.mem_append.1 hsnap with hold | hlast
    · exact hbegun.ends_of_infix (List.prefix_append _ _).isInfix hold hreturned
    · cases hattempt : r.attempt (exec limit) limit ctx pos run with
      | none =>
        rw [hattempt] at hlast
        cases hlast
      | some x =>
        rw [hattempt] at hlast
        cases List.mem_singleton.1 hlast
        exact ⟨limit + 1, ctx, r, pos, x.1, run, rfl, hattempt, List.infix_rfl⟩

end Snapshot.Whole

/-! ## Calls through a store -/

/-- A call through a store of a session that comes to an end. -/
structure CachedCall (V α : Type) where
  limit : Nat
  nesting : Nesting V α
  ctx : Context V α
  recognizer : Recognizer V α
  pos : Position
  run : Run V α
  session : Session
  ending : Ending V α
  after : Run V α
  cached : recognizer.isCached = true
  starts : run.session = some session
  ends : exec limit ctx recognizer pos run = some (ending, after)

namespace CachedCall

variable (c : CachedCall V α)

/-- The ordinal that the call reserves. -/
def ordinal : Nat := c.session.ordinal

/-- The snapshots of the call. -/
def snapshots : List (Snapshot V α) :=
  SlotGrammar.snapshots c.limit c.nesting c.ctx c.recognizer c.pos c.run

/-- Whether the ordinals below the call have been taken back when it returns: the counter is
one past its own ordinal, nothing is pending at a later one, its own outcome is all that may
be pending at its own, and everything else is as before. -/
structure RolledBack : Prop where
  counted : ∃ ses', c.after.session = some ses' ∧ ses'.id = c.session.id ∧
    ses'.ordinal = c.ordinal + 1
  dropped : ∀ t n, c.ordinal < n → c.after.grammar.stores.pending t c.session.id n = none
  own : ∀ t o, c.after.grammar.stores.pending t c.session.id c.ordinal = some o → c.ending = .ok o
  unchanged : ∀ t id n, ¬ (id = c.session.id ∧ c.ordinal ≤ n) →
    c.after.grammar.stores.pending t id n = c.run.grammar.stores.pending t id n

/-- A call is snapshotted as it returns. -/
theorem returned_mem_snapshots :
    ⟨.returned c.recognizer.handle c.pos c.ending, c.nesting, c.after⟩ ∈ c.snapshots := by
  have hlast : ∃ l, c.snapshots =
      l ++ [⟨.returned c.recognizer.handle c.pos c.ending, c.nesting, c.after⟩] :=
    exists_snapshots_eq_of_exec c.ends
  rcases hlast with ⟨l, hl⟩
  simp [hl]

/-- The call replays its outcome, or it works and comes back from there. -/
theorem replays_or_builds :
    (∃ o, c.ending = .ok o ∧ c.after.session = some c.session.reserve ∧
      c.after.grammar = c.run.grammar) ∨
    ∃ s mid, ⟨.worked c.ordinal c.ending, c.nesting.work c.ordinal, mid⟩ ∈ c.snapshots ∧
      c.after = (Act.built s c.ordinal c.ending mid).leaving c.recognizer c.pos c.ending := by
  rcases c with ⟨limit, nesting, ctx, r, pos, run, ses, ending, after, hcached, hses, hends⟩
  cases limit with
  | zero => cases hends
  | succ limit =>
    have hattempt : r.attempt (exec limit) limit ctx pos run = some (ending, after) := hends
    cases hway : run.way r.handle.caching with
    | straight =>
      rcases Run.way_eq_straight hway with hoff | hnone
      · rw [Recognizer.isCached, hoff] at hcached
        cases hcached
      · rw [hses] at hnone
        cases hnone
    | replays ses' o =>
      rcases Run.way_eq_replays hway with ⟨s, -, hses', -⟩
      cases hses.symm.trans hses'
      rw [Recognizer.attempt_eq_of_replays hway] at hattempt
      cases hattempt
      exact .inl ⟨o, rfl, rfl, rfl⟩
    | builds s ses' =>
      rcases Run.way_eq_builds hway with ⟨-, hses', -⟩
      cases hses.symm.trans hses'
      rw [Recognizer.attempt_eq_of_builds hway] at hattempt
      rcases Option.map_eq_some_iff.1 hattempt with ⟨⟨ending', mid⟩, hwork, heq⟩
      cases heq
      have hworked : ⟨.worked ses.ordinal ending', nesting.work ses.ordinal, mid⟩ ∈
          Snapshot.afterWork nesting s ses.ordinal ending' mid := by
        cases ending' <;> exact List.mem_cons_self
      refine .inr ⟨s, mid, ?_, rfl⟩
      show _ ∈ Recognizer.snapshots (exec limit) (SlotGrammar.snapshots limit) limit nesting
        ctx r pos run
      rw [Recognizer.snapshots, Recognizer.callSnapshots, hway]
      simp only [hwork, Snapshot.afterwards]
      exact List.mem_cons_of_mem _ (List.mem_append_left _
        (List.mem_cons_of_mem _ (List.mem_append_right _ hworked)))

section Orderly

variable {c} (horder : ∀ snap ∈ c.snapshots, snap.InOrder)

include horder

/-- Journals and stores agree when the call starts. -/
theorem inOrder_run :
    c.run.grammar.InOrder ((c.nesting.frame, some c.session) :: c.nesting.outer) := by
  rw [← c.starts]
  exact (horder _ (entered_mem_of_exec c.ends)).flight

/-- Journals and stores agree when the call is over. -/
theorem inOrder_after {ses' : Session} (hses' : c.after.session = some ses') :
    c.after.grammar.InOrder ((c.nesting.frame, some ses') :: c.nesting.outer) := by
  rw [← hses']
  exact (horder _ c.returned_mem_snapshots).flight

/-- The call goes on in its session, above what was there. -/
theorem goes : Isolates c.run c.snapshots c.after ∧ c.run.Ascends c.after :=
  goes_of_exec horder c.ends

/-- What the other sessions have pending is as before. -/
theorem pending_after_of_ne (t : StoreId) {id : SessionId} (hid : id ≠ c.session.id) (n : Nat) :
    c.after.grammar.stores.pending t id n = c.run.grammar.stores.pending t id n := by
  have hisolates := (goes horder).1
  have hrun := inOrder_run horder
  rcases hisolates.session c.starts with ⟨ses', hses', hsame, -⟩
  have hafter := inOrder_after horder hses'
  by_cases hmem : id ∈ Flight.ids c.nesting.outer
  · apply hisolates.others t id n (hrun.fresh id (List.mem_cons_of_mem _ hmem))
    intro ses hses
    cases c.starts.symm.trans hses
    exact Ne.symm hid
  · -- nothing is pending for a session that is not in flight
    have hunknown : id ∉ Flight.ids ((c.nesting.frame, some c.session) :: c.nesting.outer) := by
      simp [hid, hmem]
    have hunknown' : id ∉ Flight.ids ((c.nesting.frame, some ses') :: c.nesting.outer) := by
      simp [hsame, hid, hmem]
    have hnone : c.run.grammar.stores.pending t id n = none :=
      Option.not_isSome_iff_eq_none.1 fun hsome => hunknown (hrun.known t id n hsome)
    rw [hnone]
    exact Option.not_isSome_iff_eq_none.1 fun hsome => hunknown' (hafter.known t id n hsome)

/-- When the counter is right, only what is pending at the ordinal of the call counts. -/
theorem rolledBack_of_ordinal {ses' : Session} (hses' : c.after.session = some ses')
    (hordinal : ses'.ordinal = c.ordinal + 1)
    (hown : ∀ t o, c.after.grammar.stores.pending t c.session.id c.ordinal = some o →
      c.ending = .ok o) : c.RolledBack := by
  rcases goes horder with ⟨hisolates, hascends⟩
  rcases hascends c.session c.starts with ⟨ses, hses, hid, -, hbelow⟩
  cases hses'.symm.trans hses
  have hafter : ses'.InOrder c.after.grammar.stores c.nesting.frame :=
    (inOrder_after horder hses').sessions _ List.mem_cons_self _ rfl
  refine ⟨⟨ses', hses', hid, hordinal⟩, ?_, hown, ?_⟩
  · intro t n hn
    rw [← hid, ← Option.not_isSome_iff_eq_none, hafter.pending_iff]
    intro hslot
    have hlt : n < ses'.ordinal := (List.getElem?_eq_some_iff.1 hslot).1
    omega
  · intro t id n hother
    by_cases hself : id = c.session.id
    · subst hself
      exact hbelow t n (Nat.lt_of_not_le fun hle => hother ⟨rfl, hle⟩)
    · exact pending_after_of_ne horder t hself n

/-- When the own logic of the call is over, the session is the one in which it started, and
nothing is recorded for the call. -/
theorem worked {s : StoreId} {mid : Run V α}
    (hworked : ⟨.worked c.ordinal c.ending, c.nesting.work c.ordinal, mid⟩ ∈ c.snapshots)
    (hafter : c.after =
      (Act.built s c.ordinal c.ending mid).leaving c.recognizer c.pos c.ending) :
    ∃ ses, mid.session = some ses ∧
      (ses.endBuilding.rollBack (c.ordinal + 1)).ordinal = c.ordinal + 1 ∧
      ∀ t, mid.grammar.stores.pending t c.session.id c.ordinal = none := by
  have hsnap : Snapshot.InOrder ⟨.worked c.ordinal c.ending, c.nesting.work c.ordinal, mid⟩ :=
    horder _ hworked
  rcases hsnap.worked c.ordinal c.ending rfl with ⟨ses, hses, -, hslot⟩
  have hmid : ses.InOrder mid.grammar.stores (c.nesting.frame.work c.ordinal) :=
    hsnap.flight.sessions _ List.mem_cons_self ses hses
  have hid : ses.id = c.session.id := by
    have hisolates := (goes horder).1
    rcases hisolates.session c.starts with ⟨ses', hses', hid, -⟩
    rcases Run.session_built hses s c.ordinal c.ending with ⟨built, hbuilt, hsame, -⟩
    rw [hafter] at hses'
    cases hbuilt.symm.trans hses'
    exact hsame.symm.trans hid
  refine ⟨ses, hses, hmid.slot_restored.1, fun t => ?_⟩
  rw [← hid, ← Option.not_isSome_iff_eq_none, hmid.pending_iff, hslot]
  simp

/-- What is pending past the ordinal of the call when it returns was recorded in it. -/
theorem records_of_pending {t : StoreId} {n : Nat} {o : Outcome V α} (hn : c.ordinal < n)
    (ho : c.after.grammar.stores.pending t c.session.id n = some o) :
    ∃ snap ∈ c.snapshots, snap.Records t c.session.id c.session.key n o := by
  have hrun : c.session.InOrder c.run.grammar.stores c.nesting.frame :=
    (inOrder_run horder).sessions _ List.mem_cons_self _ rfl
  refine ((goes horder).1.own c.session c.starts t n o ho).resolve_left fun hold => ?_
  have hslot := (hrun.pending_iff t n).1 (by simp [hold])
  exact absurd (List.getElem?_eq_some_iff.1 hslot).1 (Nat.not_lt.2 (Nat.le_of_lt hn))

/-- A call that ends with an outcome is rolled back. -/
theorem rolledBack_of_ok {outcome : Outcome V α} (hok : c.ending = .ok outcome) :
    c.RolledBack := by
  rcases c.replays_or_builds with ⟨o, -, hsession, hgrammar⟩ | ⟨s, mid, hworked, hafter⟩
  · -- a replayed outcome stays where it is
    apply rolledBack_of_ordinal horder hsession c.session.ordinal_reserve
    intro t o ho
    have hrun : c.session.InOrder c.run.grammar.stores c.nesting.frame :=
      (inOrder_run horder).sessions _ List.mem_cons_self _ rfl
    rw [hgrammar] at ho
    have hslot := (hrun.pending_iff t c.ordinal).1 (by simp [ho])
    exact absurd (List.getElem?_eq_some_iff.1 hslot).1 (Nat.lt_irrefl _)
  · rcases worked horder hworked hafter with ⟨ses, hses, hordinal, hnone⟩
    have hbuilt : c.after.session =
          some ((ses.endBuilding.rollBack (c.ordinal + 1)).mark c.ordinal s) ∧
        c.after.grammar.stores = ses.settleIn s c.ordinal outcome mid.grammar.stores := by
      rw [hafter, hok]
      unfold Act.built
      rw [hses]
      exact ⟨rfl, rfl⟩
    apply rolledBack_of_ordinal horder hbuilt.1 ((Session.ordinal_mark _ _ _).trans hordinal)
    intro t o ho
    rw [hbuilt.2] at ho
    rcases ses.pending_settleIn_cases ho with ⟨-, -, -, rfl⟩ | hold
    · exact hok
    · rw [hnone t] at hold
      cases hold

/-- A call that ends with an error takes nothing back: only its count goes.  So it is rolled
back only if the counter is right already. -/
theorem aborted {e : ParseError} (herror : c.ending = .error e) :
    ∃ mid ses', ⟨.worked c.ordinal (.error e), c.nesting.work c.ordinal, mid⟩ ∈ c.snapshots ∧
      mid.session = some ses' ∧ c.after.session = some ses'.endBuilding ∧
      c.after.grammar = mid.grammar ∧ (c.RolledBack ↔ ses'.ordinal = c.ordinal + 1) := by
  rcases c.replays_or_builds with ⟨o, hok, -, -⟩ | ⟨s, mid, hworked, hafter⟩
  · rw [herror] at hok
    cases hok
  · rcases worked horder hworked hafter with ⟨ses, hses, -, hnone⟩
    have hbuilt : c.after.session = some ses.endBuilding ∧ c.after.grammar = mid.grammar := by
      rw [hafter, herror, Run.built_error hses]
      exact ⟨rfl, rfl⟩
    rw [herror] at hworked
    refine ⟨mid, ses, hworked, hses, hbuilt.1, hbuilt.2, ?_, ?_⟩
    · intro hrolled
      rcases hrolled.counted with ⟨ses', hses', -, hordinal⟩
      cases hbuilt.1.symm.trans hses'
      exact hordinal
    · intro hordinal
      apply rolledBack_of_ordinal horder hbuilt.1 hordinal
      intro t o ho
      rw [hbuilt.2, hnone t] at ho
      cases ho

end Orderly

end CachedCall

/-! ## Parses -/

/-- A parse with caching starts in the next session of its grammar, with nothing reserved. -/
theorem Query.exists_session_opened {q : Query V α} (hcache : q.options.cache = true)
    (g : Grammar V α) :
    ∃ ses, (q.opened g).session = some ses ∧ ses.id = g.nextSession ∧ ses.ordinal = 0 :=
  ⟨_, session_opened hcache q.root { grammar := g }, rfl, rfl⟩

namespace Grammar

section InUse

variable {T : Shape V α Unit → Prop} {g : Grammar V α} {hand : List (Recognizer V α)}
  {q : Query V α}

/-- Wherever a call through a store returns in a session, there are the snapshots of this call. -/
theorem InUse.exists_call (h : g.InUse T hand) (hroot : q.root ∈ hand) {limit : Nat}
    {snap : Snapshot V α} (hsnap : snap ∈ q.snapshots g limit) {handle : Handle} {pos : Position}
    {ending : Ending V α} (hreturned : snap.occasion = .returned handle pos ending)
    (hactive : handle.caching.isActive = true) {ses' : Session}
    (hses' : snap.run.session = some ses') :
    ∃ c : CachedCall V α, c.snapshots <:+: q.snapshots g limit ∧ c.recognizer.handle = handle ∧
      c.ending = ending ∧ c.after = snap.run := by
  rcases Snapshot.Whole.snapshots limit _ q.context q.root .start (q.opened g) snap hsnap handle
    pos ending hreturned with ⟨limit', ctx, r, pos', ending', run, hoccasion, hexec, hrow⟩
  rw [hreturned] at hoccasion
  cases hoccasion
  have horder : ∀ x ∈ SlotGrammar.snapshots limit' snap.nesting ctx r pos run, x.InOrder :=
    fun x hx => (h.ready.passes hroot limit).fair x (hrow.subset hx)
  rcases (goes_of_exec horder hexec).1.session_before hses' with ⟨ses, hses, -, -⟩
  exact ⟨⟨limit', snap.nesting, ctx, r, pos, run, ses, ending, snap.run, hactive, hses, hexec⟩,
    hrow, rfl, rfl, rfl⟩

/-- However a grammar has been used, each call through a store in a parse, and in the parses
inside it, is rolled back when it ends with an outcome.  A call that ends with an error leaves
the state as its own logic did: it is rolled back only if no ordinal below it is left.  With
recognizers that let errors through, this never comes to matter: a parse that ends with an
outcome has no call that ends with an error. -/
theorem InUse.rolledBack (h : g.InUse T hand) (hroot : q.root ∈ hand) (limit : Nat) :
    (∀ snap ∈ q.snapshots g limit, ∀ handle pos ending ses',
      snap.occasion = .returned handle pos ending → handle.caching.isActive = true →
      snap.run.session = some ses' → ∃ c : CachedCall V α, c.snapshots <:+: q.snapshots g limit ∧
        c.recognizer.handle = handle ∧ c.ending = ending ∧ c.after = snap.run) ∧
    (∀ c : CachedCall V α, c.snapshots <:+: q.snapshots g limit →
      (∀ outcome, c.ending = .ok outcome → c.RolledBack) ∧
      ∀ e, c.ending = .error e → ∃ mid ses',
        ⟨.worked c.ordinal (.error e), c.nesting.work c.ordinal, mid⟩ ∈ c.snapshots ∧
        mid.session = some ses' ∧ c.after.session = some ses'.endBuilding ∧
        c.after.grammar = mid.grammar ∧ (c.RolledBack ↔ ses'.ordinal = c.ordinal + 1)) ∧
    ((∀ shape, T shape → shape.LetsThrough) → ∀ report outcome,
      q.parse? g limit = some report → report.ending = .ok outcome →
        ∀ snap ∈ q.snapshots g limit, snap.error? = none) := by
  have hready := h.ready
  refine ⟨?_, ?_, ?_⟩
  · intro snap hsnap handle pos ending ses' hreturned hactive hses'
    exact h.exists_call hroot hsnap hreturned hactive hses'
  · intro c hpart
    have horder : ∀ snap ∈ c.snapshots, snap.InOrder := fun snap hsnap =>
      (hready.passes hroot limit).fair snap (hpart.subset hsnap)
    exact ⟨fun _ hok => CachedCall.rolledBack_of_ok horder hok,
      fun _ herror => CachedCall.aborted horder herror⟩
  · intro hT report outcome hreport hending
    have hhalts : Halts q.context.view (q.snapshots g limit)
        (SlotGrammar.exec limit q.context q.root .start (q.opened g)) :=
      halts_exec hT limit q.context q.root .start (hready.opened q) (hready.belongs_opened hroot)
    rcases q.exec_of_parse? hreport with ⟨mid, hmid, -⟩
    rw [hmid, hending] at hhalts
    exact hhalts.quiet_of_ok

end InUse

/-! ## An example -/

/-- A letter through a store in a word through a store. -/
def letterInWord : Recognizer Nat Nat × Grammar Nat Nat :=
  Grammar.build [] (.cached true (.sequence [.cached true (.literal ['a']), .literal ['b']])) {}

/-- The word alone. -/
def wordAlone : Query Nat Nat := ⟨letterInWord.1, ⟨[['a', 'b']]⟩, [], .standard⟩

/-- The letter in a word is in use, and lets errors through. -/
theorem letterInWord_inUse : letterInWord.2.InUse Shape.LetsThrough [letterInWord.1] := by
  apply InUse.empty.build
  simp [Expr.sequence, Expr.literal, Shape.outline, Shape.parts, Shape.withParts, Shape.LetsThrough]

/-- The letter is recorded inside the word, and taken back when the word matches. -/
theorem letterInWord_rolledBack : ∃ c : CachedCall Nat Nat,
    c.snapshots = wordAlone.snapshots letterInWord.2 10 ∧
    (∃ snap ∈ c.snapshots, ∃ s o, snap.occasion = .settling s (c.ordinal + 1) o) ∧
    c.ending.isMatch = true ∧ c.RolledBack ∧ ∀ snap ∈ c.snapshots, snap.error? = none := by
  have hseen : (wordAlone.snapshots letterInWord.2 10).any (fun snap =>
      match snap.occasion with
      | .settling _ 1 _ => true
      | _ => false) = true := by decide +kernel
  have hends : (wordAlone.parse? letterInWord.2 10).any (fun report =>
      report.ending.isMatch) = true := by decide +kernel
  rcases (Option.any_eq_true _ _).1 hends with ⟨report, hreport, hmatch⟩
  rcases wordAlone.exec_of_parse? hreport with ⟨mid, hmid, -⟩
  rcases List.any_eq_true.1 hseen with ⟨snap, hsnap, hsettling⟩
  have hroot : wordAlone.root ∈ [letterInWord.1] := by simp [wordAlone]
  have hcache : wordAlone.options.cache = true := rfl
  rcases Query.exists_session_opened hcache letterInWord.2 with ⟨ses, hses, -, hzero⟩
  let c : CachedCall Nat Nat := ⟨10, ⟨{ root := wordAlone.root, input := wordAlone.input }, []⟩,
    wordAlone.context, wordAlone.root, .start, wordAlone.opened letterInWord.2, ses, report.ending,
    mid, build_cached_isCached _ _ true _, hses, hmid⟩
  have hzero : c.ordinal = 0 := hzero
  rcases Ending.exists_of_isMatch hmatch with ⟨m, hok⟩
  have hall := letterInWord_inUse.rolledBack hroot 10
  refine ⟨c, rfl, ⟨snap, hsnap, ?_⟩, hmatch, (hall.2.1 c List.infix_rfl).1 _ hok,
    hall.2.2 (fun _ h => h) report _ hreport hok⟩
  split at hsettling
  next s o heq =>
    rw [hzero]
    exact ⟨s, o, heq⟩
  next => cases hsettling

/-! ## A call that is not rolled back -/

/-- A letter through a store in a call through a store that is aborted there, with the error
caught, and the letter without a store in its place. -/
def abortedLetter : Recognizer Nat Nat × Grammar Nat Nat :=
  Grammar.build [] (.choice [.make (.catching (.cached true
    (.sequence [.cached true (.literal ['a']), .required .fail]))), .literal ['a']]) {}

/-- The letter with nothing around it. -/
def bareLetter : Query Nat Nat := ⟨abortedLetter.1, ⟨[['a']]⟩, [], .standard⟩

/-- The letter that aborts is in use. -/
theorem abortedLetter_inUse : abortedLetter.2.InUse (fun _ => True) [abortedLetter.1] :=
  InUse.empty.build (Expr.uses_of_forall (fun _ => trivial) _)

/-- The letter that is recorded in the aborted call is pending when this call returns.  The parse
goes on to match, and commits it. -/
theorem abortedLetter_keeps : ∃ (c : CachedCall Nat Nat) (report : Report Nat Nat),
    c.snapshots <:+: bareLetter.snapshots abortedLetter.2 10 ∧
    (∃ e, c.ending = .error e) ∧ ¬ c.RolledBack ∧
    bareLetter.parse? abortedLetter.2 10 = some report ∧ report.ending.isMatch = true ∧
    ∃ s o, (∃ snap ∈ c.snapshots, snap.occasion = .settling s (c.ordinal + 1) o) ∧
      c.after.grammar.stores.pending s c.session.id (c.ordinal + 1) = some o ∧
      report.grammar.stores.committed s bareLetter.key (c.ordinal + 1) = some o := by
  have hruns : (bareLetter.parse? abortedLetter.2 10).any (fun report =>
      report.ending.isMatch &&
      (bareLetter.snapshots abortedLetter.2 10).any fun snap =>
        match snap.occasion with
        | .returned handle _ (.error _) =>
          handle.caching.isActive && snap.run.session.any fun ses =>
            (snap.run.grammar.stores.pending 0 ses.id 1).any fun o =>
              report.grammar.stores.committed 0 bareLetter.key 1 = some o
        | _ => false) = true := by decide +kernel
  have hworks : (bareLetter.snapshots abortedLetter.2 10).all (fun snap =>
      match snap.occasion with
      | .worked k (.error _) => k == 0
      | _ => true) = true := by decide +kernel
  have hroot : bareLetter.root ∈ [abortedLetter.1] := by simp [bareLetter]
  rcases (Option.any_eq_true _ _).1 hruns with ⟨report, hreport, hruns⟩
  rcases Bool.and_eq_true_iff.1 hruns with ⟨hmatch, hruns⟩
  rcases List.any_eq_true.1 hruns with ⟨snap, hsnap, hruns⟩
  split at hruns
  next handle pos e hreturned =>
    rcases Bool.and_eq_true_iff.1 hruns with ⟨hactive, hruns⟩
    rcases (Option.any_eq_true _ _).1 hruns with ⟨ses', hses', hruns⟩
    rcases (Option.any_eq_true _ _).1 hruns with ⟨o, ho, hcommitted⟩
    rcases abortedLetter_inUse.exists_call hroot hsnap hreturned hactive hses' with
      ⟨c, hrow, -, herror, hafter⟩
    have horder : ∀ x ∈ c.snapshots, x.InOrder := fun x hx =>
      (abortedLetter_inUse.ready.passes hroot 10).fair x (hrow.subset hx)
    have hzero : c.ordinal = 0 := by
      rcases CachedCall.aborted horder herror with ⟨mid, ses, hworked, -⟩
      simpa using List.all_eq_true.1 hworks _ (hrow.subset hworked)
    have hid : ses'.id = c.session.id := by
      rcases (CachedCall.goes horder).1.session c.starts with ⟨ses, hses, hid, -⟩
      rw [hafter] at hses
      cases hses'.symm.trans hses
      exact hid
    have hkept : c.after.grammar.stores.pending 0 c.session.id (c.ordinal + 1) = some o := by
      rw [hafter, hzero, ← hid]
      exact ho
    refine ⟨c, report, hrow, ⟨e, herror⟩, ?_, hreport, hmatch, 0, o, ?_, hkept, ?_⟩
    · intro hrolled
      rw [hrolled.dropped 0 (c.ordinal + 1) (Nat.lt_succ_self _)] at hkept
      cases hkept
    · rcases CachedCall.records_of_pending horder (Nat.lt_succ_self _) hkept with
        ⟨inner, hinner, hrecords⟩
      exact ⟨inner, hinner, hrecords.occasion_eq⟩
    · rw [hzero]
      exact of_decide_eq_true hcommitted
  next => cases hruns

end Grammar

end SlotGrammar
