import SlotGrammar.Proofs.Journals

/-!
# Bookkeeping

However a grammar has been used, nothing is pending in it between two uses, and its
recognizers keep their outcomes in stores that there are.  So every parse starts in order,
and stays in order in all its states, with user recognizers that catch errors, start
parses or drop outcomes.

Main results:

- Theorem `Query.events_eq`: the snapshots of a parse are the calls in its log.
- Theorem `InUse.ready`: a grammar in use has nothing pending.
- Theorem `InUse.snapshots_inOrder`: journals and stores agree in every state of a parse.
-/

namespace SlotGrammar

variable {V α : Type}

/-! ## Snapshots and the log -/

/-- The event that a snapshot goes with, if it is the start or the end of a call or of a
recognizer's own logic. -/
def Snapshot.event? (snap : Snapshot V α) : Option (Event V α) :=
  match snap.occasion with
  | .entered handle pos => some (.called handle pos snap.run.ordinal?)
  | .working handle pos => some (.worked handle pos)
  | .returned handle pos ending => some (.replied handle pos snap.run.ordinal? ending)
  | _ => none

/-- Whether what is new in the log of a run is what some snapshots tell. -/
def Run.Tells (run : Run V α) (l : List (Snapshot V α)) (run' : Run V α) : Prop :=
  ∃ events, run'.log = events ++ run.log ∧
    (events.reverse.filter fun event => !event.isAside) = l.filterMap Snapshot.event?

/-- What is added to the log around the snapshots of a call. -/
theorem Run.Tells.around {nesting : Nesting V α} {r : Recognizer V α} {pos : Position}
    {run start mid : Run V α} {l : List (Snapshot V α)} {ending : Ending V α}
    (h : start.Tells l mid) (hstart : start.log = (run.entering r pos).log) :
    run.Tells (Snapshot.around nesting r pos run l ending (mid.leaving r pos ending))
      (mid.leaving r pos ending) := by
  rcases h with ⟨events, hlog, htells⟩
  refine ⟨.replied r.handle pos mid.ordinal? ending :: events ++
    [.called r.handle pos run.ordinal?], ?_, ?_⟩
  · change _ :: mid.log = _
    rw [hlog, hstart]
    simp [Run.entering, Run.noted]
  · simp only [List.reverse_append, List.reverse_cons, List.reverse_nil, List.nil_append,
      List.filter_append, htells, Snapshot.around, List.filterMap_cons, List.filterMap_append]
    rfl

/-- The snapshots of a run tell its log. -/
def telling : Conduct V α where
  Ok _ _ := True
  Knows _ _ := True
  Sees _ := True
  Goes run l run' := run.Tells l run'
  Fair _ := True
  refl run := ⟨[], rfl, rfl⟩
  trans := by
    rintro run run' run'' l l' ⟨events, hlog, htells⟩ ⟨events', hlog', htells'⟩
    refine ⟨events' ++ events, by rw [hlog', hlog, List.append_assoc], ?_⟩
    rw [List.reverse_append, List.filter_append, List.filterMap_append, htells, htells']
  knows_goes _ _ := trivial
  knows_part _ _ := trivial
  entered _ _ _ := trivial
  working _ _ _ := trivial
  returned _ _ _ _ := trivial
  noted event haside _ := by
    refine ⟨trivial, [event], rfl, ?_⟩
    simp [haside]
  cleared _ _ := ⟨trivial, [], rfl, rfl⟩
  followed := by
    intro nesting run run' ctx handle target found _ _ _ hfollow
    refine ⟨trivial, ?_, fun _ _ => ⟨trivial, trivial⟩⟩
    rcases Act.follow_cases ctx target run with ⟨found', heq, -⟩ | ⟨cell, label, e, scope, -, heq⟩
    · rw [heq] at hfollow
      cases hfollow
      exact ⟨[], rfl, rfl⟩
    · rw [heq] at hfollow
      cases hfollow
      exact ⟨[.tallied label], rfl, rfl⟩
  straight := by
    intro nesting run r pos _ _ _
    refine ⟨trivial, fun l mid ending _ hgoes => ⟨trivial, ?_⟩⟩
    have hwork : (run.entering r pos).Tells
        (⟨.working r.handle pos, nesting, (run.entering r pos).atWork r pos⟩ :: l) mid := by
      rcases hgoes with ⟨events, hlog, htells⟩
      refine ⟨events ++ [.worked r.handle pos], ?_, ?_⟩
      · rw [hlog]
        simp [Run.atWork, Run.noted]
      · rw [List.reverse_append, List.filter_append, htells]
        rfl
    exact hwork.around rfl
  replays := by
    intro nesting run r pos ses outcome _ _ _
    refine ⟨trivial, ?_⟩
    have hnone : ((run.entering r pos).withSession (some ses.reserve)).Tells []
        ((run.entering r pos).withSession (some ses.reserve)) := ⟨[], rfl, rfl⟩
    exact hnone.around rfl
  builds := by
    intro nesting run r pos s ses _ _ _
    refine ⟨trivial, fun l mid ending _ hgoes => ⟨fun _ _ => trivial, trivial, ?_⟩⟩
    have hafter : (Snapshot.afterWork nesting s ses.ordinal ending mid).filterMap
        Snapshot.event? = [] := by
      cases ending <;> rfl
    have hwork : (run.entering r pos).Tells
        (⟨.working r.handle pos, nesting.work ses.ordinal,
          ((run.entering r pos).building ses).atWork r pos⟩ ::
            (l ++ Snapshot.afterWork nesting s ses.ordinal ending mid))
        (Act.built s ses.ordinal ending mid) := by
      rcases hgoes with ⟨events, hlog, htells⟩
      refine ⟨events ++ [.worked r.handle pos], ?_, ?_⟩
      · rw [Act.built_log, hlog]
        simp [Run.atWork, Run.building, Run.withSession, Run.noted]
      · rw [List.reverse_append, List.filter_append, htells, List.filterMap_cons,
          List.filterMap_append, hafter, List.append_nil]
        rfl
    exact hwork.around rfl
  nested := by
    intro nesting run ctx handle sub p _ _ _
    refine ⟨trivial, trivial, trivial, fun l mid ending _ hgoes => ⟨trivial, trivial, ?_⟩⟩
    rcases hgoes with ⟨events, hlog, htells⟩
    refine ⟨events, ?_, ?_⟩
    · rw [log_closed, hlog, log_opened]
    · rw [List.filterMap_append, htells]
      simp [Snapshot.event?]

/-- The snapshots of a parse that ends are the calls in its log. -/
theorem Query.events_eq {q : Query V α} {g : Grammar V α} {limit : Nat} {report : Report V α}
    (h : q.parse? g limit = some report) :
    (report.events.filter fun event => !event.isAside) =
      (q.snapshots g limit).filterMap Snapshot.event? := by
  rcases Query.exec_of_parse? h with ⟨mid, hmid, -, hevents⟩
  have hpasses := telling.passes_exec limit ⟨{ root := q.root, input := q.input }, []⟩
    q.context q.root .start (q.opened g) trivial trivial trivial
  rcases (hpasses.goes report.ending mid hmid).2 with ⟨events, hlog, htells⟩
  rw [Query.opened, log_opened, List.append_nil] at hlog
  rw [hevents, hlog]
  exact htells

/-! ## Attempts in order -/

section Attempts

variable {T : Shape V α Unit → Prop} {limit : Nat} {nesting : Nesting V α} {ctx : Context V α}
  {run : Run V α}

/-- What follows an attempt is in order. -/
theorem Run.InOrder.attempted {r : Recognizer V α} {pos : Position} {ending : Ending V α}
    {mid : Run V α} (hok : run.InOrder T nesting) (hr : r.Belongs T run.grammar.stores.size)
    (h : exec limit ctx r pos run = some (ending, mid)) :
    mid.InOrder T nesting ∧ run.Continues mid :=
  ((bookkeeping T).passes_exec limit nesting ctx r pos run hok trivial hr).goes ending mid h

/-- Whether what is left of the script of a node goes on in a state that is in order. -/
structure Script.GoesOn (T : Shape V α Unit → Prop) (nesting : Nesting V α) (handle : Handle)
    (shape : Shape V α (Recognizer V α)) (script : Script V α) (run : Run V α) : Prop where
  within : script.Within shape
  inOrder : run.InOrder T nesting
  belongs : (Recognizer.node handle shape).Belongs T run.grammar.stores.size

namespace Script.GoesOn

variable {handle : Handle} {shape : Shape V α (Recognizer V α)} {p : Recognizer V α}
  {pos : Position}

/-- A script goes on after an attempt in it. -/
theorem call {next : Ending V α → Script V α}
    (h : (Script.call p pos next).GoesOn T nesting handle shape run) :
    p.Belongs T run.grammar.stores.size ∧ ∀ {limit ctx ending mid},
      exec limit ctx p pos run = some (ending, mid) →
        run.Continues mid ∧ (next ending).GoesOn T nesting handle shape mid := by
  rcases h with ⟨hscript, hok, hr⟩
  cases hscript with
  | call hp _ hnext =>
    have hbelongs := hr.part hp
    refine ⟨hbelongs, ?_⟩
    intro limit ctx ending mid hmid
    rcases hok.attempted hbelongs hmid with ⟨hok', hcontinues⟩
    exact ⟨hcontinues, hnext ending, hok', hr.mono hcontinues.size_le⟩

/-- A script goes on after it has dropped outcomes. -/
theorem clear {t : Recognizer V α} {next : Script V α}
    (h : (Script.clear t next).GoesOn T nesting handle shape run) :
    next.GoesOn T nesting handle shape { run with grammar := run.grammar.dropTraces t } := by
  rcases h with ⟨hscript, hok, hr⟩
  cases hscript with
  | clear hshape hnext =>
    subst hshape
    have hcleared := (bookkeeping T).cleared hok hr
    exact ⟨hnext, hcleared.1, hr.mono hcleared.2.size_le⟩

/-- A script goes on after it has noted an event. -/
theorem note {event : Event V α} {next : Script V α}
    (h : (Script.note event next).GoesOn T nesting handle shape run) :
    next.GoesOn T nesting handle shape (run.noted event) := by
  rcases h with ⟨hscript, hok, hr⟩
  cases hscript with
  | note _ hnext => exact ⟨hnext, ⟨hok.flight, hok.coherent⟩, hr⟩

/-- A watched recognizer is a part. -/
theorem probe {label : String} (h : (Script.probe label p pos).GoesOn T nesting handle shape run) :
    p.Belongs T run.grammar.stores.size := by
  rcases h with ⟨hscript, -, hr⟩
  cases hscript with
  | probe hshape => exact hr.part (by simp [hshape, Shape.parts])

end Script.GoesOn

end Attempts

/-! ## Grammars in use -/

/-- Whether nothing is pending in a grammar, and its recognizers and some others keep their
outcomes in its stores. -/
structure Grammar.Ready (T : Shape V α Unit → Prop) (g : Grammar V α)
    (hand : List (Recognizer V α)) : Prop where
  inOrder : g.InOrder []
  coherent : g.Coherent T g.stores.size
  belongs : ∀ r ∈ hand, r.Belongs T g.stores.size

namespace Grammar

variable {T : Shape V α Unit → Prop} {g g' : Grammar V α} {hand : List (Recognizer V α)}

/-- A construction leaves a grammar ready. -/
theorem Ready.adds {β : Type} (h : g.Ready T hand) {m : GrammarM V α β}
    {made : β → List (Recognizer V α)} (hm : Adds T hand m made) :
    (m g).2.Ready T (hand ++ made (m g).1) := by
  have hgrow := hm.enlarges g
  have hadded := hm.coherent g h.coherent h.belongs
  exact ⟨h.inOrder.congr hgrow.nextSession_eq hgrow.pending_eq, hadded.1, hadded.2⟩

/-- Only the recognizers in hand count, not their order. -/
theorem Ready.mono {hand' : List (Recognizer V α)} (h : g.Ready T hand)
    (hsub : ∀ r ∈ hand', r ∈ hand) : g.Ready T hand' :=
  ⟨h.inOrder, h.coherent, fun r hr => h.belongs r (hsub r hr)⟩

section Runs

variable {q : Query V α} {report : Report V α}

/-- The state in which a parse attempts its root is in order. -/
theorem Ready.opened (h : g.Ready T hand) (q : Query V α) :
    (q.opened g).InOrder T ⟨{ root := q.root, input := q.input }, []⟩ := by
  refine ⟨h.inOrder.opened q.context q.root, ?_⟩
  unfold Query.opened Run.opened
  split
  · exact h.coherent.onStores _ _
  · exact h.coherent

/-- The root of a parse keeps its outcomes in the stores that there are at the start. -/
theorem Ready.belongs_opened (h : g.Ready T hand) (hroot : q.root ∈ hand) :
    q.root.Belongs T (q.opened g).grammar.stores.size := by
  rw [show (q.opened g).grammar.stores = g.stores from stores_opened _ _ _]
  exact h.belongs q.root hroot

/-- All states of a parse are in order. -/
theorem Ready.passes (h : g.Ready T hand) (hroot : q.root ∈ hand) (limit : Nat) :
    (bookkeeping T).Passes ⟨{ root := q.root, input := q.input }, []⟩ (q.opened g)
      (q.snapshots g limit) (exec limit q.context q.root .start (q.opened g)) :=
  (bookkeeping T).passes_exec limit _ q.context q.root .start _ (h.opened q) trivial
    (h.belongs_opened hroot)

/-- A parse leaves a grammar ready. -/
theorem Ready.parsed (h : g.Ready T hand) (hroot : q.root ∈ hand) {limit : Nat}
    (hreport : q.parse? g limit = some report) : report.grammar.Ready T hand := by
  rcases q.exec_of_parse? hreport with ⟨mid, hmid, hgrammar, -⟩
  rcases (h.passes hroot limit).goes _ mid hmid with ⟨hok, hgoes⟩
  have hle : g.stores.size ≤ mid.grammar.stores.size := by
    have hstores : (q.opened g).grammar.stores = g.stores := stores_opened _ _ _
    rw [← hstores]
    exact hgoes.size_le
  have hflight : mid.grammar.InOrder [({ root := q.root, input := q.input }, mid.session)] :=
    hok.flight
  have hclosed := hok.closed_coherent none report.ending
  rw [hgrammar]
  refine ⟨hflight.closed none report.ending, hclosed.1, fun r hr => (h.belongs r hr).mono ?_⟩
  exact Nat.le_trans hle (Nat.le_of_eq hclosed.2.symm)

/-- The state in which an attempt by itself starts is in order. -/
theorem Ready.alone (h : g.Ready T hand) (root : Recognizer V α) (input : Fragments) :
    Run.InOrder T ⟨{ root, input }, []⟩ ({ grammar := g } : Run V α) := by
  refine ⟨⟨?_, h.inOrder.apart, h.inOrder.fresh, h.inOrder.known⟩, h.coherent⟩
  intro x hx ses hses
  rw [List.mem_singleton.1 hx] at hses
  cases hses

/-- An attempt by itself leaves a grammar ready. -/
theorem Ready.attempted (h : g.Ready T hand) {root : Recognizer V α} (hroot : root ∈ hand)
    {limit : Nat} {input : Fragments} {values : List V} {window : ErrorWindow} {pos : Position}
    (hreport : g.exec? limit root input values window pos = some report) :
    report.grammar.Ready T hand := by
  rcases Option.map_eq_some_iff.1 hreport with ⟨⟨ending, mid⟩, hmid, rfl⟩
  have hpasses := (bookkeeping T).passes_exec limit _
    ⟨input, values, { errorWindow := window }, [root]⟩ root pos _ (h.alone root input) trivial
    (h.belongs root hroot)
  rcases hpasses.goes ending mid hmid with ⟨hok, hgoes⟩
  have hnone : mid.session = none := Option.map_eq_none_iff.1 hgoes.id_eq
  have hflight : mid.grammar.InOrder [({ root, input }, mid.session)] := hok.flight
  rw [hnone] at hflight
  refine ⟨⟨by simp, .nil, by simp [Flight.ids], hflight.known⟩, hok.coherent, ?_⟩
  exact fun r hr => (h.belongs r hr).mono hgoes.size_le

end Runs

/-- A grammar in use has nothing pending, and its recognizers keep their outcomes in its
stores. -/
theorem InUse.ready (h : g.InUse T hand) : g.Ready T hand := by
  induction h with
  | empty =>
    refine ⟨⟨by simp, .nil, by simp [Flight.ids], ?_⟩, ⟨?_, by simp, by simp, by simp⟩, by simp⟩
    · intro s id n hsome
      simp [Stores.pending] at hsome
    · simp [Table.values, Table.empty]
  | @build g hand e _ he ih =>
    apply (ih.adds (build_adds he (by simp))).mono
    intro r hr
    simpa [or_comm] using hr
  | @bind g hand r _ name hr ih =>
    apply (ih.adds (Adds.bindName name hr)).mono
    intro r' hr'
    simpa using hr'
  | @unbind g hand _ name ih =>
    refine ⟨ih.inOrder.congr rfl rfl, ⟨?_, ih.coherent.definitions, ih.coherent.settled,
      ih.coherent.awaiting⟩, ih.belongs⟩
    intro r hr
    rcases List.mem_map.1 hr with ⟨e, he, rfl⟩
    exact ih.coherent.names _ (List.mem_map_of_mem (List.mem_filter.1 he).1)
  | @find g hand name r _ hr ih =>
    refine ⟨ih.inOrder, ih.coherent, ?_⟩
    intro x hx
    rcases List.mem_cons.1 hx with rfl | hx
    · exact ih.coherent.names x (List.mem_map.2 ⟨_, Table.mem_of_lookup hr, rfl⟩)
    · exact ih.belongs x hx
  | @toggle g hand r _ on hr ih =>
    apply (ih.adds (Adds.withCaching on hr)).mono
    intro r' hr'
    simpa [or_comm] using hr'
  | @clear g hand t _ ht ih =>
    rcases g.dropTraces_eq t with ⟨stores, heq, hsize, hpending, -⟩
    rw [heq]
    refine ⟨ih.inOrder.congr rfl hpending, ?_, ?_⟩
    · change Coherent T stores.size _
      rw [hsize]
      exact ih.coherent.onStores _ _
    · change ∀ r ∈ hand, r.Belongs T stores.size
      rw [hsize]
      exact ih.belongs
  | parse _ hroot hreport ih => exact ih.parsed hroot hreport
  | exec _ hroot hreport ih => exact ih.attempted hroot hreport

/-- However a grammar has been used, journals and stores agree in every state of a parse,
and the parse leaves nothing pending.  The states are those of all calls in the log of the
parse. -/
theorem InUse.snapshots_inOrder (h : g.InUse (fun _ => True) hand) {q : Query V α}
    (hroot : q.root ∈ hand) (limit : Nat) :
    (∀ snap ∈ q.snapshots g limit, snap.InOrder ∧
      ∀ x ∈ snap.nesting.inFlight snap.run.session, ∀ ses, x.2 = some ses → ∀ n s s',
        (snap.run.grammar.stores.pending s ses.id n).isSome = true →
        (snap.run.grammar.stores.pending s' ses.id n).isSome = true → s = s') ∧
    ∀ report, q.parse? g limit = some report →
      (report.events.filter fun event => !event.isAside) =
          (q.snapshots g limit).filterMap Snapshot.event? ∧
        ∀ s id n, report.grammar.stores.pending s id n = none := by
  have hready := h.ready
  constructor
  · intro snap hsnap
    have hfair : snap.InOrder := (hready.passes hroot limit).fair snap hsnap
    refine ⟨hfair, ?_⟩
    intro x hx ses hses n s s' hs hs'
    have hbooks := hfair.flight.sessions x hx ses hses
    have hslot := (hbooks.pending_iff s n).1 hs
    rw [(hbooks.pending_iff s' n).1 hs'] at hslot
    cases hslot
    rfl
  · intro report hreport
    exact ⟨q.events_eq hreport, (hready.parsed hroot hreport).inOrder.settled⟩

/-! ## An example -/

/-- A letter through a store, then a call that is aborted, with the error caught, and in its
place a parse of another input for the same letter. -/
def letterWithin : Recognizer Nat Nat × Grammar Nat Nat :=
  Grammar.build [] (.sequence [.named "letter" (.cached true (.literal ['a'])),
    .choice [.make (.catching (.cached true (.required .fail))),
      .make (.nested { input := ⟨[['a']]⟩ } (.ref "letter"))]]) {}

/-- The letter alone. -/
def letterAlone : Query Nat Nat := ⟨letterWithin.1, ⟨[['a']]⟩, [], .standard⟩

theorem letterWithin_inUse : letterWithin.2.InUse (fun _ => True) [letterWithin.1] :=
  InUse.empty.build (Expr.uses_of_forall (fun _ => trivial) _)

/-- Two parses have an outcome pending at one ordinal of one store, and the outer one has the
slot of a call that was aborted.  At the end nothing is pending. -/
theorem letterWithin_inOrder : ∃ snap ∈ letterAlone.snapshots letterWithin.2 5,
    (snap.run.grammar.stores.pending 0 0 0).isSome = true ∧
    (snap.run.grammar.stores.pending 0 1 0).isSome = true ∧
    snap.nesting.outer.map (fun x => x.2.map Session.journal) = [some [some 0, none]] ∧
    snap.InOrder ∧
    ∃ report, letterAlone.parse? letterWithin.2 5 = some report ∧
      report.ending.isMatch = true ∧
      ∀ s id n, report.grammar.stores.pending s id n = none := by
  have hseen : (letterAlone.snapshots letterWithin.2 5).any (fun snap =>
      (snap.run.grammar.stores.pending 0 0 0).isSome &&
      (snap.run.grammar.stores.pending 0 1 0).isSome &&
      snap.nesting.outer.map (fun x => x.2.map Session.journal) = [some [some 0, none]]) =
        true := by decide +kernel
  have hends : (letterAlone.parse? letterWithin.2 5).any (fun report =>
      report.ending.isMatch) = true := by decide +kernel
  rcases List.any_eq_true.1 hseen with ⟨snap, hsnap, hseen⟩
  rcases Bool.and_eq_true_iff.1 hseen with ⟨hpending, hjournal⟩
  rcases Bool.and_eq_true_iff.1 hpending with ⟨houter, hinner⟩
  rcases (Option.any_eq_true _ _).1 hends with ⟨report, hreport, hmatch⟩
  have hroot : letterAlone.root ∈ [letterWithin.1] := by simp [letterAlone]
  have hall := letterWithin_inUse.snapshots_inOrder hroot 5
  exact ⟨snap, hsnap, houter, hinner, of_decide_eq_true hjournal, (hall.1 snap hsnap).1, report,
    hreport, hmatch, (hall.2 report hreport).2⟩

end Grammar

end SlotGrammar
