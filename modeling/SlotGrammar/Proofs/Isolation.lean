import SlotGrammar.Proofs.Bookkeeping

/-!
# Isolation of parses

A parse inside another one runs in a session of its own, over the same stores.  Both may
have outcomes pending in one store, at the same ordinals.  When the inner parse settles
its session, what is pending for the others stays as it was, and what gets committed was
recorded in the sessions of the inner parse and of those inside it, each under the root
and input of its own parse.

Main results:

- Theorem `Isolates.settled`: what a parse leads to is isolated from the parse around it.
- Theorem `Run.Timely.isolated`: a parse that starts in a timely state is isolated.
- Theorem `Grammar.InUse.nested_isolated`: nested parses are isolated, to any depth.
-/

namespace SlotGrammar

variable {V α : Type}

/-! ## Where outcomes come from -/

/-- Whether a snapshot is that of a call about to record an outcome, in a session for the
trace of the innermost parse in flight. -/
structure Snapshot.Records (snap : Snapshot V α) (s : StoreId) (id : SessionId) (key : TraceKey)
    (n : Nat) (outcome : Outcome V α) : Prop where
  occasion_eq : snap.occasion = .settling s n outcome
  session : ∃ ses, snap.run.session = some ses ∧ ses.id = id ∧ ses.key = key
  key_eq : key = traceKey snap.nesting.frame.root snap.nesting.frame.input

namespace Session

/-- What is pending after a call has recorded its outcome was pending before, or is that
outcome. -/
theorem pending_settleIn_cases (ses : Session) {s t : StoreId} {k m : Nat} {o o' : Outcome V α}
    {stores : Stores V α} {id : SessionId}
    (h : (ses.settleIn s k o stores).pending t id m = some o') :
    (t = s ∧ id = ses.id ∧ m = k ∧ o' = o) ∨ stores.pending t id m = some o' := by
  have hdropped : ∀ x : Option (Outcome V α), x = some o' →
      x = (ses.dropFrom (k + 1) stores).pending t id m → stores.pending t id m = some o' := by
    intro x hx hsame
    rw [hx, dropFrom, pending_dropSlots] at hsame
    split at hsame
    · cases hsame
    · exact hsame.symm
  unfold settleIn Stores.pending at h
  rw [Array.getElem?_modify] at h
  by_cases hst : s = t
  · subst hst
    rw [if_pos rfl] at h
    cases hstore : (ses.dropFrom (k + 1) stores)[s]? with
    | none =>
      rw [hstore] at h
      cases h
    | some store =>
      rw [hstore, Option.map_some, Option.bind_some, Store.pending?_record] at h
      split at h
      next heq =>
        cases heq
        cases h
        exact .inl ⟨rfl, rfl, rfl, rfl⟩
      · right
        apply hdropped _ h
        unfold Stores.pending
        rw [hstore]
        rfl
  · rw [if_neg hst] at h
    exact .inr (hdropped _ h rfl)

/-- Recording an outcome leaves what other sessions have pending alone, whether or not the
store exists. -/
theorem pending_settleIn_other (ses : Session) (s : StoreId) (k : Nat) (o : Outcome V α)
    (stores : Stores V α) (t : StoreId) {id : SessionId} (hid : id ≠ ses.id) (m : Nat) :
    (ses.settleIn s k o stores).pending t id m = stores.pending t id m := by
  have hrecord : (ses.settleIn s k o stores).pending t id m =
      (ses.dropFrom (k + 1) stores).pending t id m := by
    apply Stores.bind_modify_of_eq
    intro store _ _
    rw [Store.pending?_record, if_neg]
    intro heq
    exact hid (Prod.mk.inj heq).1.symm
  rw [hrecord, dropFrom, pending_dropSlots, if_neg (by simp [hid])]

end Session

/-! ## Timely states -/

/-- The number of a session and the trace that it is for. -/
def Session.label (ses : Session) : SessionId × TraceKey := (ses.id, ses.key)

/-- Whether the session of a run has been started, and nothing is pending for sessions that
are still to come. -/
structure Run.Timely (run : Run V α) : Prop where
  started : ∀ ses, run.session = some ses → ses.id < run.grammar.nextSession
  fresh : ∀ (s : StoreId) (id : SessionId) (n : Nat), run.grammar.nextSession ≤ id →
    run.grammar.stores.pending s id n = none

/-- A run in which journals and stores agree is timely. -/
theorem Grammar.InOrder.timely {run : Run V α} {frame : Frame V α} {outer : Flight V α}
    (h : run.grammar.InOrder ((frame, run.session) :: outer)) : run.Timely where
  started _ hses := h.fresh _ (Flight.id_mem List.mem_cons_self hses)
  fresh s _ n hid := h.pending_eq_none hid s n

namespace Run

variable {run run' mid : Run V α}

namespace Timely

/-- What a run does in its own session does not matter. -/
theorem advance (h : run.Timely) (hnext : run'.grammar.nextSession = run.grammar.nextSession)
    (hlabel : run'.session.map Session.label = run.session.map Session.label)
    (hothers : ∀ s id n, (∀ ses, run.session = some ses → id ≠ ses.id) →
      run'.grammar.stores.pending s id n = run.grammar.stores.pending s id n) : run'.Timely := by
  constructor
  · intro ses' hses'
    rw [hses'] at hlabel
    rcases Option.map_eq_some_iff.1 hlabel.symm with ⟨ses, hses, heq⟩
    have hid : ses.id = ses'.id := congrArg Prod.fst heq
    rw [hnext, ← hid]
    exact h.started ses hses
  · intro s id n hle
    rw [hnext] at hle
    rw [hothers s id n]
    · exact h.fresh s id n hle
    · intro ses hses
      exact Nat.ne_of_gt (Nat.lt_of_lt_of_le (h.started ses hses) hle)

/-- A parse starts in time. -/
theorem opened (h : run.Timely) (ctx : Context V α) (root : Recognizer V α) :
    (run.opened ctx root).Timely := by
  unfold Run.opened
  split
  · constructor
    · intro ses hses
      cases hses
      exact Nat.lt_succ_self _
    · exact fun s id n hle => h.fresh s id n (Nat.le_of_succ_le hle)
  · constructor
    · intro ses hses
      cases hses
    · exact h.fresh

/-- A parse that is over gives its session back in time. -/
theorem closed (h : mid.Timely) {outer : Option Session}
    (houter : ∀ ses, outer = some ses → ses.id < mid.grammar.nextSession) (ending : Ending V α) :
    (mid.closed outer ending).Timely := by
  cases hses : mid.session with
  | none =>
    rw [closed_of_no_session hses]
    exact ⟨houter, h.fresh⟩
  | some ses =>
    rw [closed_of_session hses]
    refine ⟨houter, ?_⟩
    intro s id n hle
    have hne : id ≠ ses.id := Nat.ne_of_gt (Nat.lt_of_lt_of_le (h.started ses hses) hle)
    exact (ses.pending_finish ending.isMatch mid.grammar.stores s hne n).trans (h.fresh s id n hle)

/-- A rollback is done in time. -/
theorem restored (h : mid.Timely) {ses : Session} (hses : mid.session = some ses) (k : Nat) :
    (mid.restored k).Timely := by
  rw [restored_of_session hses]
  refine h.advance rfl ?_ ?_
  · rw [hses]
    rfl
  · intro s id n hne
    change Stores.pending (Session.dropSlots ses.id (k + 1) _ mid.grammar.stores) s id n = _
    rw [Session.pending_dropSlots, if_neg]
    exact fun hsame => hne ses hses hsame.1

/-- A call records its outcome, or raises an error, in time. -/
theorem built (h : mid.Timely) {ses : Session} (hses : mid.session = some ses) (s : StoreId)
    (k : Nat) (ending : Ending V α) : (Act.built s k ending mid).Timely := by
  cases ending with
  | error e =>
    rw [built_error hses]
    refine h.advance rfl ?_ fun _ _ _ _ => rfl
    rw [hses]
    rfl
  | ok outcome =>
    unfold Act.built
    rw [hses]
    refine h.advance rfl ?_ ?_
    · rw [hses]
      rfl
    · exact fun t id n hne =>
        ses.pending_settleIn_other s k outcome mid.grammar.stores t (hne ses hses) n

end Timely

end Run

/-! ## Runs in a session -/

/-- Whether a run has gone on in its session without a change for other sessions.  What is
new in the stores was recorded in one of some snapshots: what is pending in the session of
the run, and what is committed in a later one. -/
structure Isolates (run : Run V α) (l : List (Snapshot V α)) (run' : Run V α) : Prop where
  nextSession_le : run.grammar.nextSession ≤ run'.grammar.nextSession
  label_eq : run'.session.map Session.label = run.session.map Session.label
  others : ∀ s id n, id < run.grammar.nextSession →
    (∀ ses, run.session = some ses → ses.id ≠ id) →
    run'.grammar.stores.pending s id n = run.grammar.stores.pending s id n
  own : ∀ ses, run.session = some ses → ∀ s n outcome,
    run'.grammar.stores.pending s ses.id n = some outcome →
    run.grammar.stores.pending s ses.id n = some outcome ∨
      ∃ snap ∈ l, snap.Records s ses.id ses.key n outcome
  committed : ∀ s key n outcome, run'.grammar.stores.committed s key n = some outcome →
    run.grammar.stores.committed s key n = some outcome ∨
      ∃ snap ∈ l, ∃ id, run.grammar.nextSession ≤ id ∧ snap.Records s id key n outcome

namespace Isolates

variable {run mid run' : Run V α} {l l' : List (Snapshot V α)} {ctx : Context V α}
  {root : Recognizer V α} {outer : Option Session} {ending : Ending V α}

/-- A step that touches nothing pending and commits nothing. -/
theorem silent (hsession : run'.grammar.nextSession = run.grammar.nextSession)
    (hlabel : run'.session.map Session.label = run.session.map Session.label)
    (hpending : run'.grammar.stores.pending = run.grammar.stores.pending)
    (hcommitted : ∀ s key n outcome, run'.grammar.stores.committed s key n = some outcome →
      run.grammar.stores.committed s key n = some outcome) : Isolates run [] run' where
  nextSession_le := Nat.le_of_eq hsession.symm
  label_eq := hlabel
  others s id n _ _ := by rw [hpending]
  own ses _ s n outcome ho := by
    rw [hpending] at ho
    exact .inl ho
  committed s key n outcome ho := .inl (hcommitted s key n outcome ho)

theorem mono (h : Isolates run l run') (hsub : ∀ snap ∈ l, snap ∈ l') : Isolates run l' run' where
  nextSession_le := h.nextSession_le
  label_eq := h.label_eq
  others := h.others
  own ses hses s n outcome ho := (h.own ses hses s n outcome ho).imp_right
    fun ⟨snap, hsnap, hrecords⟩ => ⟨snap, hsub snap hsnap, hrecords⟩
  committed s key n outcome ho := (h.committed s key n outcome ho).imp_right
    fun ⟨snap, hsnap, hrecords⟩ => ⟨snap, hsub snap hsnap, hrecords⟩

/-- The session goes on as the same one. -/
theorem session (h : Isolates run l run') {ses : Session} (hses : run.session = some ses) :
    ∃ ses', run'.session = some ses' ∧ ses'.id = ses.id ∧ ses'.key = ses.key := by
  have hlabel := h.label_eq
  rw [hses] at hlabel
  rcases Option.map_eq_some_iff.1 hlabel with ⟨ses', hses', heq⟩
  exact ⟨ses', hses', congrArg Prod.fst heq, congrArg Prod.snd heq⟩

/-- The session was the same one before. -/
theorem session_before (h : Isolates run l run') {ses' : Session}
    (hses' : run'.session = some ses') :
    ∃ ses, run.session = some ses ∧ ses.id = ses'.id ∧ ses.key = ses'.key := by
  have hlabel := h.label_eq
  rw [hses'] at hlabel
  rcases Option.map_eq_some_iff.1 hlabel.symm with ⟨ses, hses, heq⟩
  exact ⟨ses, hses, congrArg Prod.fst heq, congrArg Prod.snd heq⟩

theorem trans (h : Isolates run l mid) (h' : Isolates mid l' run') :
    Isolates run (l ++ l') run' := by
  refine ⟨Nat.le_trans h.nextSession_le h'.nextSession_le, h'.label_eq.trans h.label_eq, ?_, ?_, ?_⟩
  · intro s id n hlt hne
    rw [← h.others s id n hlt hne]
    apply h'.others s id n (Nat.lt_of_lt_of_le hlt h.nextSession_le)
    intro ses' hses'
    rcases h.session_before hses' with ⟨ses, hses, hid, -⟩
    rw [← hid]
    exact hne ses hses
  · intro ses hses s n outcome ho
    rcases h.session hses with ⟨ses', hses', hid, hkey⟩
    rw [← hid] at ho
    rcases h'.own ses' hses' s n outcome ho with hold | ⟨snap, hsnap, hrecords⟩
    · rw [hid] at hold
      rcases h.own ses hses s n outcome hold with hold | ⟨snap, hsnap, hrecords⟩
      · exact .inl hold
      · exact .inr ⟨snap, List.mem_append_left l' hsnap, hrecords⟩
    · rw [hid, hkey] at hrecords
      exact .inr ⟨snap, List.mem_append_right l hsnap, hrecords⟩
  · intro s key n outcome ho
    rcases h'.committed s key n outcome ho with hold | ⟨snap, hsnap, id, hle, hrecords⟩
    · rcases h.committed s key n outcome hold with hold | ⟨snap, hsnap, hrecords⟩
      · exact .inl hold
      · exact .inr ⟨snap, List.mem_append_left l' hsnap, hrecords⟩
    · exact .inr ⟨snap, List.mem_append_right l hsnap, id,
        Nat.le_trans h.nextSession_le hle, hrecords⟩

/-- Silent steps around a part of a run do not matter. -/
theorem around {start after : Run V α} (h : Isolates start l mid) (hstart : Isolates run [] start)
    (hafter : Isolates mid [] after) (hsub : ∀ snap ∈ l, snap ∈ l') : Isolates run l' after := by
  apply ((hstart.trans h).trans hafter).mono
  intro snap hsnap
  apply hsub
  simpa using hsnap

/-- A call records its outcome in the session of its parse. -/
theorem built {nesting : Nesting V α} {ses : Session} (hses : mid.session = some ses)
    (hkey : ses.key = traceKey nesting.frame.root nesting.frame.input) (s : StoreId) (k : Nat)
    (ending : Ending V α) :
    Isolates mid (Snapshot.afterWork nesting s k ending mid) (Act.built s k ending mid) := by
  cases ending with
  | error e =>
    have hsilent : Isolates mid [] (Act.built s k (.error e) mid) := by
      rw [Run.built_error hses]
      refine silent rfl ?_ rfl fun _ _ _ _ ho => ho
      rw [hses]
      rfl
    exact hsilent.mono (by simp)
  | ok outcome =>
    have hstores : (Act.built s k (.ok outcome) mid).grammar.stores =
        ses.settleIn s k outcome mid.grammar.stores := by
      unfold Act.built
      rw [hses]
      rfl
    refine ⟨?_, ?_, ?_, ?_, ?_⟩
    · unfold Act.built
      rw [hses]
      exact Nat.le_refl _
    · unfold Act.built
      rw [hses]
      rfl
    · intro t id n _ hne
      rw [hstores]
      exact ses.pending_settleIn_other s k outcome mid.grammar.stores t (hne ses hses).symm n
    · intro ses' hses' t n o ho
      rw [hses] at hses'
      cases hses'
      rw [hstores] at ho
      rcases ses.pending_settleIn_cases ho with ⟨rfl, -, rfl, rfl⟩ | hold
      · right
        refine ⟨⟨.settling t n o, nesting, mid.restored n⟩, ?_, rfl, ?_, hkey⟩
        · exact List.mem_cons_of_mem _ List.mem_cons_self
        · rw [Run.restored_of_session hses]
          exact ⟨_, rfl, rfl, rfl⟩
      · exact .inl hold
    · intro t key n o ho
      rw [hstores, ses.committed_settleIn] at ho
      exact .inl ho

/-- What is committed after a parse was committed before, or has been recorded for the trace
of the parse in its session, or in a later session. -/
theorem committed_closed (h : Isolates (run.opened ctx root) l mid) (htimely : run.Timely)
    {s : StoreId} {key : TraceKey} {n : Nat} {outcome : Outcome V α}
    (ho : (mid.closed outer ending).grammar.stores.committed s key n = some outcome) :
    run.grammar.stores.committed s key n = some outcome ∨
      (key = traceKey root ctx.input ∧
        ∃ snap ∈ l, snap.Records s run.grammar.nextSession key n outcome) ∨
      ∃ snap ∈ l, ∃ id, (run.opened ctx root).grammar.nextSession ≤ id ∧
        snap.Records s id key n outcome := by
  have hbefore : ∀ key', mid.grammar.stores.committed s key' n = some outcome →
      run.grammar.stores.committed s key' n = some outcome ∨
        ∃ snap ∈ l, ∃ id, (run.opened ctx root).grammar.nextSession ≤ id ∧
          snap.Records s id key' n outcome := by
    intro key' ho
    rw [← stores_opened ctx root run]
    exact h.committed s key' n outcome ho
  cases hses : mid.session with
  | none =>
    rw [Run.closed_of_no_session hses] at ho
    exact (hbefore key ho).imp_right .inr
  | some ses' =>
    rw [Run.closed_of_session hses] at ho
    change Stores.committed (ses'.finish ending.isMatch mid.grammar.stores) s key n = _ at ho
    cases hmatch : ending.isMatch with
    | false =>
      rw [hmatch, Session.committed_finish_false] at ho
      exact (hbefore key ho).imp_right .inr
    | true =>
      rw [hmatch, Session.committed_finish_true] at ho
      split at ho
      next hhere =>
        rcases hhere with ⟨-, rfl⟩
        rcases Option.or_eq_some_iff.1 ho with hnew | ⟨-, hold⟩
        · rcases h.session_before hses with ⟨ses, hopened, hid, hkey⟩
          rcases Run.session_of_opened hopened with ⟨hnext, htrace⟩
          rw [← hid] at hnew
          rcases h.own ses hopened s n outcome hnew with hold | ⟨snap, hsnap, hrecords⟩
          · -- nothing was pending for the session when it started
            rw [stores_opened, hnext, htimely.fresh _ _ _ (Nat.le_refl _)] at hold
            cases hold
          · rw [hnext, hkey] at hrecords
            exact .inr (.inl ⟨hkey.symm.trans htrace, snap, hsnap, hrecords⟩)
        · exact (hbefore ses'.key hold).imp_right .inr
      · exact (hbefore key ho).imp_right .inr

/-- Everything that is pending for the sessions that were there before a parse stays as it
was. -/
theorem pending_closed (h : Isolates (run.opened ctx root) l mid) (s : StoreId) {id : SessionId}
    (n : Nat) (hlt : id < run.grammar.nextSession) :
    (mid.closed outer ending).grammar.stores.pending s id n =
      run.grammar.stores.pending s id n := by
  have hmid : mid.grammar.stores.pending s id n = run.grammar.stores.pending s id n := by
    rw [← stores_opened ctx root run]
    apply h.others s id n (Nat.lt_of_lt_of_le hlt (run.nextSession_le_opened ctx root))
    intro ses hses
    rw [(Run.session_of_opened hses).1]
    exact Nat.ne_of_gt hlt
  rw [← hmid]
  cases hses : mid.session with
  | none =>
    rw [Run.closed_of_no_session hses]
    rfl
  | some ses' =>
    rcases h.session_before hses with ⟨ses, hopened, hid, -⟩
    rw [Run.closed_of_session hses]
    apply ses'.pending_finish
    rw [← hid, (Run.session_of_opened hopened).1]
    exact Nat.ne_of_lt hlt

/-- What a parse leads to is isolated from the parse around it. -/
theorem settled (h : Isolates (run.opened ctx root) l mid) (htimely : run.Timely)
    (ending : Ending V α) : Isolates run l (mid.closed run.session ending) where
  nextSession_le := by
    rw [Run.nextSession_closed]
    exact Nat.le_trans (run.nextSession_le_opened ctx root) h.nextSession_le
  label_eq := by rw [Run.session_closed]
  others s id n hlt _ := h.pending_closed s n hlt
  own ses hses s n outcome ho := by
    rw [h.pending_closed s n (htimely.started ses hses)] at ho
    exact .inl ho
  committed s key n outcome ho := by
    rcases h.committed_closed htimely ho with hold | ⟨-, snap, hsnap, hrecords⟩ |
      ⟨snap, hsnap, id, hle, hrecords⟩
    · exact .inl hold
    · exact .inr ⟨snap, hsnap, _, Nat.le_refl _, hrecords⟩
    · exact .inr ⟨snap, hsnap, id, Nat.le_trans (run.nextSession_le_opened ctx root) hle, hrecords⟩

end Isolates

/-- Whether a run is timely, and its session is for the trace of the innermost parse. -/
structure Run.Placed (nesting : Nesting V α) (run : Run V α) : Prop where
  timely : run.Timely
  key_eq : ∀ ses, run.session = some ses →
    ses.key = traceKey nesting.frame.root nesting.frame.input

namespace Run.Placed

variable {nesting : Nesting V α} {run run' : Run V α}

/-- Only the label of the session counts. -/
theorem of_label (h : run.Placed nesting) (htimely : run'.Timely)
    (hlabel : run'.session.map Session.label = run.session.map Session.label) :
    run'.Placed nesting := by
  refine ⟨htimely, ?_⟩
  intro ses' hses'
  rw [hses'] at hlabel
  rcases Option.map_eq_some_iff.1 hlabel.symm with ⟨ses, hses, heq⟩
  have hkey : ses.key = ses'.key := congrArg Prod.snd heq
  rw [← hkey]
  exact h.key_eq ses hses

/-- A step that touches nothing pending and commits nothing. -/
theorem silent (h : run.Placed nesting)
    (hsession : run'.grammar.nextSession = run.grammar.nextSession)
    (hlabel : run'.session.map Session.label = run.session.map Session.label)
    (hpending : run'.grammar.stores.pending = run.grammar.stores.pending)
    (hcommitted : ∀ s key n outcome, run'.grammar.stores.committed s key n = some outcome →
      run.grammar.stores.committed s key n = some outcome) :
    run'.Placed nesting ∧ Isolates run [] run' :=
  ⟨h.of_label (h.timely.advance hsession hlabel fun s id n _ => by rw [hpending]) hlabel,
    .silent hsession hlabel hpending hcommitted⟩

end Run.Placed

/-- What happens in a run is isolated from the parses around it. -/
def isolating : Conduct V α where
  Ok nesting run := run.Placed nesting
  Knows _ _ := True
  Sees _ := True
  Goes run l run' := Isolates run l run'
  Fair snap := snap.run.Timely
  refl run := .silent rfl rfl rfl fun _ _ _ _ ho => ho
  trans h h' := h.trans h'
  knows_goes _ _ := trivial
  knows_part _ _ := trivial
  entered _ _ h := h.timely
  working _ _ h := h.timely
  returned _ _ _ h := h.timely
  noted event _ h := h.silent rfl rfl rfl fun _ _ _ _ ho => ho
  cleared := by
    intro nesting run handle t p h _
    rcases run.grammar.dropTraces_eq t with ⟨stores, heq, -, hpending, hcommitted⟩
    rw [heq]
    exact h.silent rfl rfl hpending hcommitted
  followed := by
    intro nesting run run' ctx handle target found h _ _ hfollow
    rcases Grammar.Enlarges.followed hfollow with ⟨hgrow, hsession⟩
    have hnext := h.silent hgrow.nextSession_eq (by rw [hsession]) hgrow.pending_eq
      fun s key n outcome ho => by rwa [hgrow.committed_eq] at ho
    exact ⟨hnext.1, hnext.2, fun _ _ => ⟨trivial, trivial⟩⟩
  straight := by
    intro nesting run r pos h _ _
    let start := (run.entering r pos).atWork r pos
    have hstart : start.Placed nesting ∧ Isolates run [] start :=
      h.silent rfl rfl rfl fun _ _ _ _ ho => ho
    refine ⟨hstart.1, fun l mid ending hmid hgoes => ?_⟩
    let after := mid.leaving r pos ending
    have hend : after.Placed nesting ∧ Isolates mid [] after :=
      hmid.silent rfl rfl rfl fun _ _ _ _ ho => ho
    refine ⟨hend.1, hgoes.around hstart.2 hend.2 ?_⟩
    intro snap hsnap
    simp [Snapshot.around, hsnap]
  replays := by
    intro nesting run r pos ses outcome h _ hway
    rcases Run.way_eq_replays hway with ⟨s, -, hses, -⟩
    let after := ((run.entering r pos).withSession (some ses.reserve)).leaving r pos (.ok outcome)
    have hnext : after.Placed nesting ∧ Isolates run [] after :=
      h.silent rfl (by rw [hses]; rfl) rfl fun _ _ _ _ ho => ho
    exact ⟨hnext.1, hnext.2.mono (by simp)⟩
  builds := by
    intro nesting run r pos s ses h _ hway
    rcases Run.way_eq_builds hway with ⟨-, hses, -⟩
    let start := ((run.entering r pos).building ses).atWork r pos
    have hstart : start.Placed nesting ∧ Isolates run [] start :=
      h.silent rfl (by rw [hses]; rfl) rfl fun _ _ _ _ ho => ho
    refine ⟨⟨hstart.1.timely, hstart.1.key_eq⟩, fun l mid ending hmid hgoes => ?_⟩
    rcases (hstart.2.trans hgoes).session hses with ⟨ses', hses', -, -⟩
    have hkey : ses'.key = traceKey nesting.frame.root nesting.frame.input :=
      hmid.key_eq ses' hses'
    have hbuilt : Isolates mid (Snapshot.afterWork nesting s ses.ordinal ending mid)
        (Act.built s ses.ordinal ending mid) := .built hses' hkey s ses.ordinal ending
    have hplaced : (Act.built s ses.ordinal ending mid).Placed nesting :=
      Run.Placed.of_label ⟨hmid.timely, hmid.key_eq⟩
        (hmid.timely.built hses' s ses.ordinal ending) hbuilt.label_eq
    let after := (Act.built s ses.ordinal ending mid).leaving r pos ending
    have hend : after.Placed nesting ∧ Isolates (Act.built s ses.ordinal ending mid) [] after :=
      hplaced.silent rfl rfl rfl fun _ _ _ _ ho => ho
    refine ⟨?_, hend.1, (hgoes.trans hbuilt).around hstart.2 hend.2 ?_⟩
    · exact Snapshot.forall_afterWork (p := fun snap => snap.run.Timely) hmid.timely
        fun _ => hmid.timely.restored hses' ses.ordinal
    · intro snap hsnap
      exact List.mem_cons_of_mem _ (List.mem_append_left _ (List.mem_cons_of_mem _ hsnap))
  nested := by
    intro nesting run ctx handle sub p h _ _
    have hopened := h.timely.opened (ctx.inside sub p) p
    refine ⟨⟨hopened, fun ses hses => (Run.session_of_opened hses).2⟩, trivial, trivial, ?_⟩
    intro l mid ending hmid hgoes
    have hsettled := hgoes.settled h.timely ending
    have hclosed : (mid.closed run.session ending).Timely := by
      refine hmid.timely.closed (fun ses hses => ?_) ending
      apply Nat.lt_of_lt_of_le (h.timely.started ses hses)
      exact Nat.le_trans (run.nextSession_le_opened _ p) hgoes.nextSession_le
    exact ⟨hclosed, h.of_label hclosed hsettled.label_eq,
      hsettled.mono fun snap hsnap => List.mem_append_left _ hsnap⟩

/-! ## Parses inside a run -/

/-- A parse may start in every state of a parse of a grammar in use. -/
theorem Grammar.InUse.snapshots_timely {g : Grammar V α} {hand : List (Recognizer V α)}
    (h : g.InUse (fun _ => True) hand) {q : Query V α} (hroot : q.root ∈ hand) (limit : Nat) :
    ∀ snap ∈ q.snapshots g limit, snap.run.Timely := by
  intro snap hsnap
  have hinOrder : snap.InOrder := (h.ready.passes hroot limit).fair snap hsnap
  exact hinOrder.flight.timely

/-- A parse that starts in some state, inside other parses or not, gives the session around
it back as it was, with everything that was pending.  What it commits it has recorded in
its own session for its own root and input, or a parse inside it has, in a later session
for the root and input of that one.  All its states are states in which parses may start. -/
theorem Run.Timely.isolated {run : Run V α} (h : run.Timely) (limit : Nat) (outer : Flight V α)
    (ctx : Context V α) (root : Recognizer V α) :
    (∀ snap ∈ parseSnapshots limit outer ctx root run, snap.run.Timely) ∧
      ∀ ending run', Act.inSession ctx root (exec limit ctx root .start) run = some (ending, run') →
        run'.Timely ∧ run'.session = run.session ∧
        (∀ s id n, id < run.grammar.nextSession →
          run'.grammar.stores.pending s id n = run.grammar.stores.pending s id n) ∧
        ∀ s key n outcome, run'.grammar.stores.committed s key n = some outcome →
          run.grammar.stores.committed s key n = some outcome ∨
          (key = traceKey root ctx.input ∧ ∃ snap ∈ parseSnapshots limit outer ctx root run,
            snap.Records s run.grammar.nextSession key n outcome) ∨
          ∃ snap ∈ parseSnapshots limit outer ctx root run, ∃ id,
            (run.opened ctx root).grammar.nextSession ≤ id ∧ snap.Records s id key n outcome := by
  have hpasses := isolating.passes_exec limit ⟨{ root, input := ctx.input }, outer⟩ ctx root .start
    (run.opened ctx root) ⟨h.opened ctx root, fun ses hses => (session_of_opened hses).2⟩
    trivial trivial
  refine ⟨hpasses.fair, ?_⟩
  intro _ run' hrun
  rw [Act.inSession_eq] at hrun
  rcases Option.map_eq_some_iff.1 hrun with ⟨⟨ending, mid⟩, hmid, heq⟩
  cases heq
  have hend : mid.Placed _ ∧ Isolates (run.opened ctx root) _ mid := hpasses.goes ending mid hmid
  refine ⟨?_, mid.session_closed run.session ending, ?_, ?_⟩
  · refine hend.1.timely.closed (fun ses hses => ?_) ending
    apply Nat.lt_of_lt_of_le (h.started ses hses)
    exact Nat.le_trans (run.nextSession_le_opened ctx root) hend.2.nextSession_le
  · exact fun s id n hlt => hend.2.pending_closed s n hlt
  · exact fun s key n outcome ho => hend.2.committed_closed h ho

namespace Grammar

/-- In every state of a parse of a grammar in use, a parse that is started there gives the
session of the outer one back as it was, with everything that was pending for it and for the
sessions before.  What it commits has been recorded in its own session for its own root and
input, or in the later session of a parse inside it for the root and input of that one. -/
theorem InUse.nested_isolated {g : Grammar V α} {hand : List (Recognizer V α)}
    (h : g.InUse (fun _ => True) hand) {q : Query V α} (hroot : q.root ∈ hand) (limit : Nat) :
    ∀ snap ∈ q.snapshots g limit, ∀ (limit' : Nat) (outer : Flight V α) (ctx : Context V α)
        (root : Recognizer V α) (ending : Ending V α) (run' : Run V α),
      Act.inSession ctx root (SlotGrammar.exec limit' ctx root .start) snap.run =
        some (ending, run') →
      run'.session = snap.run.session ∧
      (∀ ses, snap.run.session = some ses → ses.id < snap.run.grammar.nextSession) ∧
      (∀ s id n, id < snap.run.grammar.nextSession →
        run'.grammar.stores.pending s id n = snap.run.grammar.stores.pending s id n) ∧
      ∀ s key n outcome, run'.grammar.stores.committed s key n = some outcome →
        snap.run.grammar.stores.committed s key n = some outcome ∨
        (key = traceKey root ctx.input ∧
          ∃ inner ∈ parseSnapshots limit' outer ctx root snap.run,
            inner.Records s snap.run.grammar.nextSession key n outcome) ∨
        ∃ inner ∈ parseSnapshots limit' outer ctx root snap.run, ∃ id,
          (snap.run.opened ctx root).grammar.nextSession ≤ id ∧
            inner.Records s id key n outcome := by
  intro snap hsnap limit' outer ctx root ending run' hrun
  have htimely : snap.run.Timely := h.snapshots_timely hroot limit snap hsnap
  rcases (htimely.isolated limit' outer ctx root).2 ending run' hrun with
    ⟨-, hsession, hpending, hcommitted⟩
  exact ⟨hsession, htimely.started, hpending, hcommitted⟩

/-- A parse with an outcome pending has the same parse started inside it.  The inner one
records at the same ordinal of the same store and commits, and the outer one has its
session and its outcome as before. -/
theorem letterWithin_isolated : ∃ snap ∈ letterAlone.snapshots letterWithin.2 5,
    (snap.run.grammar.stores.pending 0 0 0).isSome = true ∧
    snap.run.grammar.stores.committed 0 letterAlone.key 0 = none ∧
    ∃ ending run', Act.inSession letterAlone.context letterAlone.root
        (exec 5 letterAlone.context letterAlone.root .start) snap.run = some (ending, run') ∧
      (run'.grammar.stores.committed 0 letterAlone.key 0).isSome = true ∧
      run'.session = snap.run.session ∧
      run'.grammar.stores.pending 0 0 0 = snap.run.grammar.stores.pending 0 0 0 := by
  have hseen : (letterAlone.snapshots letterWithin.2 5).any (fun snap =>
      (snap.run.grammar.stores.pending 0 0 0).isSome &&
      (snap.run.grammar.stores.committed 0 letterAlone.key 0).isNone &&
      decide (0 < snap.run.grammar.nextSession) &&
      (Act.inSession letterAlone.context letterAlone.root
        (exec 5 letterAlone.context letterAlone.root .start) snap.run).any fun x =>
          (x.2.grammar.stores.committed 0 letterAlone.key 0).isSome) = true := by decide +kernel
  rcases List.any_eq_true.1 hseen with ⟨snap, hsnap, hseen⟩
  rcases Bool.and_eq_true_iff.1 hseen with ⟨hseen, hruns⟩
  rcases Bool.and_eq_true_iff.1 hseen with ⟨hseen, hnext⟩
  rcases Bool.and_eq_true_iff.1 hseen with ⟨hpending, hcommitted⟩
  rcases (Option.any_eq_true _ _).1 hruns with ⟨⟨ending, run'⟩, hrun, hcommits⟩
  have hroot : letterAlone.root ∈ [letterWithin.1] := by simp [letterAlone]
  have hisolated := letterWithin_inUse.nested_isolated hroot 5 snap hsnap 5 []
    letterAlone.context letterAlone.root ending run' hrun
  exact ⟨snap, hsnap, hpending, Option.isNone_iff_eq_none.1 hcommitted, ending, run', hrun,
    hcommits, hisolated.1, hisolated.2.2.1 0 0 0 (of_decide_eq_true hnext)⟩

end Grammar

end SlotGrammar
