import SlotGrammar.Proofs.Cursor
import SlotGrammar.Proofs.Unrecorded

/-!
# Confinement

With shapes of the library no attempt that starts in an input leaves it, not even where an
outcome is replayed that was recorded at another position or under another mode of a cache.
For all outcomes that are kept stop inside the input of their trace: a parse starts inside, so
what it records stops inside, and an attempt by itself, which may start anywhere, records
nothing.

Main results:

- Theorem `Run.Confined.exec`: an attempt that starts inside the input stays there in all its
  states.
- Theorem `Grammar.InUse.confined`: however a grammar has been used, its outcomes stop inside
  the inputs of their traces.
-/

namespace SlotGrammar

variable {V α : Type}

/-! ## Outcomes that are kept -/

/-- Whether an outcome does not stop outside an input. -/
def Outcome.Within (input : Fragments) (outcome : Outcome V α) : Prop :=
  ∀ m ∈ outcome, input.Valid m.stop

/-- Whether an attempt does not end with a match that stops outside an input. -/
def Ending.Within (input : Fragments) : Ending V α → Prop
  | .error _ => True
  | .ok outcome => Outcome.Within input outcome

/-- The input of a trace. -/
def TraceKey.input (key : TraceKey) : Fragments := ⟨key.fingerprint.texts⟩

@[simp]
theorem input_traceKey (root : Recognizer V α) (input : Fragments) :
    (traceKey root input).input = input := rfl

namespace Stores

variable {stores stores' : Stores V α} {input : Fragments}

/-- Whether all outcomes that are committed stop inside the inputs of their traces. -/
def Confined (stores : Stores V α) : Prop :=
  ∀ s key n outcome, stores.committed s key n = some outcome → Outcome.Within key.input outcome

/-- Whether all outcomes that are pending stop inside an input. -/
def Awaits (stores : Stores V α) (input : Fragments) : Prop :=
  ∀ s id n outcome, stores.pending s id n = some outcome → Outcome.Within input outcome

theorem awaits_of_none (h : ∀ s id n, stores.pending s id n = none) : stores.Awaits input := by
  intro s id n outcome ho
  rw [h] at ho
  cases ho

/-- A rollback makes nothing pending. -/
theorem Awaits.dropFrom (h : stores.Awaits input) (ses : Session) (checkpoint : Nat) :
    Awaits (ses.dropFrom checkpoint stores) input := by
  intro s id n outcome ho
  change Stores.pending (Session.dropSlots ses.id checkpoint _ stores) s id n = _ at ho
  rw [Session.pending_dropSlots] at ho
  split at ho
  · cases ho
  · exact h s id n outcome ho

theorem Awaits.record (h : stores.Awaits input) {s : StoreId} (hs : s < stores.size)
    (id : SessionId) (n : Nat) {outcome : Outcome V α} (hin : Outcome.Within input outcome) :
    Awaits (Array.modify stores s fun store => store.record id n outcome) input := by
  intro t id' m outcome' ho
  rw [pending_record stores hs] at ho
  split at ho
  · cases ho
    exact hin
  · exact h t id' m outcome' ho

/-- What is committed depends on the traces alone. -/
theorem committed_of_traces (h : stores'.traces = stores.traces) :
    stores'.committed = stores.committed := by
  have hcommitted : ∀ (stores : Stores V α) (s : StoreId) (key : TraceKey) (n : Nat),
      stores.committed s key n = ((stores.traces s).find? key).bind fun trace => trace.find? n := by
    intro stores s key n
    unfold committed traces
    cases stores[s]? with
    | none => rfl
    | some store => rfl
  ext s key n : 3
  rw [hcommitted, hcommitted, h]

end Stores

/-- A session that is settled commits only what it had pending. -/
theorem Session.confined_finish {ses : Session} {stores : Stores V α}
    (h : stores.Confined) (hawaits : stores.Awaits ses.key.input) (matched : Bool) :
    Stores.Confined (ses.finish matched stores) := by
  intro s key n outcome ho
  cases matched with
  | false =>
    rw [committed_finish_false] at ho
    exact h s key n outcome ho
  | true =>
    rw [committed_finish_true] at ho
    by_cases hkey : some s ∈ ses.journal ∧ key = ses.key
    · rw [if_pos hkey] at ho
      rcases Option.or_eq_some_iff.1 ho with hpending | ⟨-, hcommitted⟩
      · rw [hkey.2]
        exact hawaits s ses.id n outcome hpending
      · exact h s key n outcome hcommitted
    · rw [if_neg hkey] at ho
      exact h s key n outcome ho

/-! ## States -/

/-- Whether a state of a run on an input is in order, and all outcomes that are kept in it stop
inside their inputs. -/
structure Run.Confined (input : Fragments) (nesting : Nesting V α) (run : Run V α) : Prop where
  inOrder : run.InOrder Shape.Standard nesting
  input_eq : nesting.frame.input = input
  committed : run.grammar.stores.Confined
  pending : run.grammar.stores.Awaits input

/-- The position at which something happens, if it is a step of a call. -/
def Occasion.position? : Occasion V α → Option Position
  | .entered _ pos => some pos
  | .working _ pos => some pos
  | .returned _ pos _ => some pos
  | _ => none

/-- Whether a snapshot is of a confined state, and happens inside the input. -/
structure Snapshot.Confined (input : Fragments) (snap : Snapshot V α) : Prop where
  run : snap.run.Confined input snap.nesting
  valid : ∀ pos ∈ snap.occasion.position?, input.Valid pos

/-- Whether all snapshots of an action are confined, and so are its ending and its last state if
it ends. -/
structure Confines (input : Fragments) (nesting : Nesting V α) (l : List (Snapshot V α))
    (result : Option (Ending V α × Run V α)) : Prop where
  snapshots : ∀ snap ∈ l, snap.Confined input
  ends : ∀ ending after, result = some (ending, after) →
    after.Confined input nesting ∧ ending.Within input

namespace Run.Confined

variable {input : Fragments} {nesting : Nesting V α} {run mid : Run V α} {r : Recognizer V α}
  {pos : Position}

/-- Only the stores count beside the order of the books. -/
theorem of_stores (h : run.Confined input nesting) (hok : mid.InOrder Shape.Standard nesting)
    (hstores : mid.grammar.stores = run.grammar.stores) : mid.Confined input nesting := by
  refine ⟨hok, h.input_eq, ?_, ?_⟩
  · rw [hstores]
    exact h.committed
  · rw [hstores]
    exact h.pending

theorem noted (h : run.Confined input nesting) (event : Event V α) :
    (run.noted event).Confined input nesting :=
  h.of_stores ⟨h.inOrder.flight, h.inOrder.coherent⟩ rfl

/-- The innermost session records for a trace of the input. -/
theorem key_input (h : run.Confined input nesting) {ses : Session} (hses : run.session = some ses) :
    ses.key.input = input := by
  have hflight : run.grammar.InOrder ((nesting.frame, run.session) :: nesting.outer) :=
    h.inOrder.flight
  rw [hflight.sessions _ List.mem_cons_self ses hses |>.key_eq, input_traceKey, h.input_eq]

/-- What is replayed stops inside the input. -/
theorem replayed (h : run.Confined input nesting) {ses : Session} {outcome : Outcome V α}
    (hway : run.way r.handle.caching = .replays ses outcome) : Outcome.Within input outcome := by
  rcases Run.way_eq_replays hway with ⟨s, -, hses, hreplay⟩
  unfold Act.replay? at hreplay
  split at hreplay
  · rw [← h.key_input hses]
    exact h.committed s ses.key ses.ordinal outcome hreplay
  · cases hreplay

/-- A run that follows a link stays confined. -/
theorem followed {ctx : Context V α} {target : Link}
    {found : Option (Context V α × Recognizer V α)} (h : run.Confined input nesting)
    (hok : mid.InOrder Shape.Standard nesting)
    (hfollow : Act.follow ctx target run = some (.ok found, mid)) : mid.Confined input nesting := by
  have hgrow := (Grammar.Enlarges.followed hfollow).1
  refine ⟨hok, h.input_eq, ?_, ?_⟩
  · unfold Stores.Confined
    rw [hgrow.committed_eq]
    exact h.committed
  · unfold Stores.Awaits
    rw [hgrow.pending_eq]
    exact h.pending

/-- A rollback keeps a run confined. -/
theorem restored {k : Nat} (h : mid.Confined input (nesting.work k)) {ses : Session}
    (hid : mid.session.map Session.id = some ses.id) : (mid.restored k).Confined input nesting := by
  rcases h.inOrder.session hid with ⟨ses', hses', -⟩
  have hok := h.inOrder.restored hid
  rw [Run.restored_of_session hses'] at hok ⊢
  refine ⟨hok, h.input_eq, ?_, h.pending.dropFrom ses' (k + 1)⟩
  intro s key n outcome ho
  change Stores.committed (Session.dropSlots ses'.id (k + 1) _ _) s key n = _ at ho
  rw [Session.committed_dropSlots] at ho
  exact h.committed s key n outcome ho

/-- A call that has built its outcome, or has raised an error, leaves the run confined. -/
theorem built {k : Nat} {s : StoreId} (h : mid.Confined input (nesting.work k))
    (hs : s < mid.grammar.stores.size) {ses : Session}
    (hid : mid.session.map Session.id = some ses.id) {ending : Ending V α}
    (hending : ending.Within input) : (Act.built s k ending mid).Confined input nesting := by
  rcases h.inOrder.session hid with ⟨ses', hses', -⟩
  have hok := (h.inOrder.built hs hid ending).1
  cases ending with
  | error e =>
    rw [Run.built_error hses'] at hok ⊢
    exact ⟨hok, h.input_eq, h.committed, h.pending⟩
  | ok outcome =>
    have hrestored := h.restored hid
    have hses : (mid.restored k).session = some (ses'.endBuilding.rollBack (k + 1)) := by
      rw [Run.restored_of_session hses']
      rfl
    have hsize : (mid.restored k).grammar.stores.size = mid.grammar.stores.size := by
      rw [Run.restored_of_session hses']
      exact Session.size_dropSlots ses'.id (k + 1) _ mid.grammar.stores
    rw [Run.built_ok, Run.recorded_of_session hses] at hok ⊢
    refine ⟨hok, h.input_eq, ?_, hrestored.pending.record (by rw [hsize]; exact hs) _ k hending⟩
    intro t key n outcome' ho
    change Stores.committed (Array.modify (mid.restored k).grammar.stores s _) t key n = _ at ho
    rw [Stores.committed_modify _ (fun store => store.record _ k outcome) fun _ _ _ => rfl] at ho
    exact hrestored.committed t key n outcome' ho

end Run.Confined

/-! ## Runs -/

/-- The cursor stays in the input if it starts there. -/
def Account.confined (input : Fragments) : Account V α Shape.Standard input where
  Spans pos _ stop := input.Valid pos → input.Valid stop
  Raises _ _ := True
  Reaches pos stop := input.Valid pos → input.Valid stop
  standard _ h := h
  leaf _ hl h := Leaf.valid_stop hl h
  mapped _ _ h := h
  separated _ h h' := h' ∘ h
  nil _ := id
  cons h h' := h' ∘ h
  absent _ := id
  present h := h
  missed _ _ := trivial
  unresolved _ := trivial
  refl _ := id
  trans h h' := h' ∘ h
  reaches h := h
  raises _ _ := trivial

theorem Account.ends_confined {input : Fragments} {pos : Position} {ending : Ending V α}
    (h : ending.Within input) : (Account.confined input).Ends pos ending := by
  rcases ending with e | _ | m
  · trivial
  · trivial
  · exact fun _ => h m rfl

theorem Account.Ends.within {input : Fragments} {pos : Position} {ending : Ending V α}
    (h : (Account.confined input).Ends pos ending) (hpos : input.Valid pos) :
    ending.Within input := by
  rcases ending with e | _ | m
  · trivial
  · intro m hm
    cases hm
  · intro m' hm
    cases hm
    exact h hpos

namespace Confines

variable {input : Fragments} {nesting : Nesting V α} {ctx : Context V α} {run : Run V α}
  {limit : Nat}

/-- Whether attempts that start inside the input are confined. -/
def Upto (input : Fragments) (limit : Nat) : Prop :=
  ∀ {nesting : Nesting V α} {ctx : Context V α} {r : Recognizer V α} {pos : Position}
    {run : Run V α}, run.Confined input nesting → ctx.input = input →
    r.Belongs Shape.Standard run.grammar.stores.size → input.Valid pos →
    Confines input nesting (SlotGrammar.snapshots limit nesting ctx r pos run)
      (exec limit ctx r pos run)

/-- A script is confined when the attempts in it are. -/
theorem play (h : Upto (V := V) (α := α) input limit) (hinput : ctx.input = input)
    {handle : Handle} {shape : Shape V α (Recognizer V α)} {start : Position}
    (hstart : input.Valid start) {script : Script V α}
    (hobeys : (Account.confined input).Obeys start script)
    (hscript : script.GoesOn Shape.Standard nesting handle shape run)
    (hrun : run.Confined input nesting) :
    Confines input nesting
      (script.snapshots (exec limit) (SlotGrammar.snapshots limit) nesting ctx run)
      (script.play (exec limit) ctx run) := by
  induction hobeys generalizing run with
  | ended hends =>
    refine ⟨by simp [Script.snapshots], ?_⟩
    intro ending after heq
    rw [Script.play, Act.endAs_apply] at heq
    cases heq
    exact ⟨hrun, hends.within hstart⟩
  | exhausted => exact ⟨by simp [Script.snapshots], fun _ _ heq => by cases heq⟩
  | @call p pos next hreaches hnext ih =>
    rcases hscript.call with ⟨hp, hrest⟩
    have hpart := h hrun hinput hp (hreaches hstart)
    rw [Script.play_call_apply, Script.snapshots]
    cases hresult : exec limit ctx p pos run with
    | none =>
      refine ⟨?_, fun _ _ heq => by cases heq⟩
      simpa [Snapshot.afterwards] using hpart.snapshots
    | some x =>
      rcases hpart.ends x.1 x.2 hresult with ⟨hmid, hwithin⟩
      have hafter := ih x.1 (Account.ends_confined hwithin) (hrest hresult).2 hmid
      refine ⟨?_, hafter.ends⟩
      intro snap hsnap
      rcases List.mem_append.1 hsnap with hsnap | hsnap
      · exact hpart.snapshots snap hsnap
      · exact hafter.snapshots snap hsnap
  | note _ ih => exact ih hscript.note (hrun.noted _)
  | probe =>
    have hpart := h hrun hinput hscript.probe hstart
    refine ⟨hpart.snapshots, ?_⟩
    intro ending after heq
    rw [Script.play, Part.probed_eq] at heq
    rcases Option.map_eq_some_iff.1 heq with ⟨x, hx, hend⟩
    cases hend
    rcases hpart.ends x.1 x.2 hx with ⟨hmid, hwithin⟩
    exact ⟨hmid.noted _, hwithin⟩

/-- The own logic of a recognizer is confined when the attempts in it are. -/
theorem work (h : Upto (V := V) (α := α) input limit) (hinput : ctx.input = input)
    {r : Recognizer V α} {pos : Position} (hrun : run.Confined input nesting)
    (hr : r.Belongs Shape.Standard run.grammar.stores.size) (hpos : input.Valid pos) :
    Confines input nesting
      (r.workSnapshots (exec limit) (SlotGrammar.snapshots limit) limit nesting ctx pos run)
      (r.work (exec limit) limit ctx pos run) := by
  cases r with
  | node handle shape =>
    change Confines input nesting _ (shape.attempt (exec limit) limit ctx pos run)
    rw [← Script.play_script]
    have hobeys := (Account.confined input).obeys_script limit
      (show ctx.view.input = input from hinput) (hr.kind handle shape .refl) pos
    exact play h hinput hpos hobeys
      ⟨Script.within_script limit ctx.view shape pos, hrun.inOrder, hr⟩ hrun
  | link handle target =>
    rcases Act.exists_follow ctx target run with ⟨found, mid, hfollow⟩
    rcases (bookkeeping Shape.Standard).followed hrun.inOrder trivial hr hfollow with
      ⟨hok, -, hfound⟩
    have hmid := hrun.followed hok hfollow
    cases found with
    | none =>
      rw [Recognizer.work_link_none hfollow, Recognizer.workSnapshots, hfollow]
      refine ⟨by simp, ?_⟩
      intro ending after heq
      cases heq
      exact ⟨hmid, trivial⟩
    | some x =>
      have hview := Act.view_followed hfollow
      rw [Recognizer.work_link_some hfollow, Recognizer.workSnapshots, hfollow]
      exact h hmid ((congrArg View.input hview).trans hinput) (hfound x rfl).2 hpos

/-- The snapshots of a call are confined when those between its start and its end are. -/
theorem around {r : Recognizer V α} {pos : Position} {between : List (Snapshot V α)}
    {result : Option (Ending V α × Run V α)} (hrun : run.Confined input nesting)
    (hpos : input.Valid pos) (h : Confines input nesting between result) :
    Confines input nesting
      (⟨.entered r.handle pos, nesting, run⟩ ::
        (between ++ Snapshot.afterwards result fun ending after =>
          [⟨.returned r.handle pos ending, nesting, after⟩]))
      result := by
  have hvalid : ∀ pos' ∈ some pos, input.Valid pos' := by
    intro pos' hpos'
    cases hpos'
    exact hpos
  refine ⟨List.forall_mem_cons.2 ⟨⟨hrun, hvalid⟩, ?_⟩, h.ends⟩
  intro snap hsnap
  rcases List.mem_append.1 hsnap with hinside | hafter
  · exact h.snapshots snap hinside
  · cases result with
    | none => cases hafter
    | some x =>
      rw [List.mem_singleton.1 hafter]
      exact ⟨(h.ends x.1 x.2 rfl).1, hvalid⟩

/-- The snapshots of a call up to the end of its own logic. -/
theorem afterStart {r : Recognizer V α} {pos : Position} {l : List (Snapshot V α)}
    {result : Option (Ending V α × Run V α)} (hrun : run.Confined input nesting)
    (hpos : input.Valid pos) (h : Confines input nesting l result) :
    ∀ snap ∈ ⟨.working r.handle pos, nesting, run⟩ :: l, snap.Confined input := by
  refine List.forall_mem_cons.2 ⟨⟨hrun, ?_⟩, h.snapshots⟩
  intro pos' hpos'
  cases hpos'
  exact hpos

/-- A call that builds its outcome is confined when its own logic is. -/
theorem builds (h : Upto (V := V) (α := α) input limit) (hinput : ctx.input = input)
    {r : Recognizer V α} {pos : Position} (hrun : run.Confined input nesting)
    (hr : r.Belongs Shape.Standard run.grammar.stores.size) (hpos : input.Valid pos) {s : StoreId}
    {ses : Session} (hway : run.way r.handle.caching = .builds s ses) :
    Confines input nesting
      (r.callSnapshots (exec limit) (SlotGrammar.snapshots limit) limit nesting ctx pos run)
      (r.attempt (exec limit) limit ctx pos run) := by
  rcases Run.way_eq_builds hway with ⟨hcaching, hses, -⟩
  have hbegin := ((bookkeeping Shape.Standard).builds pos hrun.inOrder hr hway).1
  have hstart : (((run.entering r pos).building ses).atWork r pos).Confined input
      (nesting.work ses.ordinal) := ⟨hbegin, hrun.input_eq, hrun.committed, hrun.pending⟩
  have hwork := work h hinput hstart hr hpos
  -- the session goes on until the call is over, over at least as many stores
  have hover : ∀ x, r.work (exec limit) limit ctx pos
      (((run.entering r pos).building ses).atWork r pos) = some x →
      x.2.session.map Session.id = some ses.id ∧ s < x.2.grammar.stores.size := by
    intro x hx
    have hpasses : (bookkeeping Shape.Standard).Passes _ _ _
        (r.work (exec limit) limit ctx pos _) :=
      Conduct.passes_work ((bookkeeping Shape.Standard).passes_exec limit) limit pos hbegin trivial
        hr
    have hgoes := (hpasses.goes x.1 x.2 hx).2
    refine ⟨hgoes.id_eq, Nat.lt_of_lt_of_le (hr.store_lt r s .refl ?_) hgoes.size_le⟩
    rw [hcaching]
    rfl
  unfold Recognizer.callSnapshots
  rw [hway, Recognizer.attempt_eq_of_builds hway]
  constructor
  · intro snap hsnap
    rcases List.mem_append.1 (show snap ∈ (_ :: _) ++ _ from hsnap) with hinside | hafter
    · exact hwork.afterStart hstart hpos snap hinside
    · cases hresult : r.work (exec limit) limit ctx pos
          (((run.entering r pos).building ses).atWork r pos) with
      | none =>
        rw [hresult] at hafter
        cases hafter
      | some x =>
        rw [hresult] at hafter
        have hmid := (hwork.ends x.1 x.2 hresult).1
        apply Snapshot.forall_afterWork ⟨hmid, by simp [Occasion.position?]⟩ ?_ snap hafter
        exact fun _ => ⟨hmid.restored (hover x hresult).1, by simp [Occasion.position?]⟩
  · intro ending after heq
    rcases Option.map_eq_some_iff.1 heq with ⟨x, hx, hend⟩
    cases hend
    rcases hwork.ends x.1 x.2 hx with ⟨hmid, hwithin⟩
    rcases hover x hx with ⟨hid, hs⟩
    exact ⟨(hmid.built hs hid hwithin).noted _, hwithin⟩

end Confines

/-- An attempt that starts inside the input is confined to it. -/
theorem Run.Confined.exec (input : Fragments) (limit : Nat) :
    Confines.Upto (V := V) (α := α) input limit := by
  induction limit with
  | zero =>
    intro nesting ctx r pos run _ _ _ _
    exact ⟨by simp [snapshots], fun _ _ heq => by cases heq⟩
  | succ limit ih =>
    intro nesting ctx r pos run hrun hinput hr hpos
    apply Confines.around hrun hpos
    cases hway : run.way r.handle.caching with
    | straight =>
      have hstart := (hrun.noted (.called r.handle pos run.ordinal?)).noted (.worked r.handle pos)
      have hwork := Confines.work ih hinput hstart hr hpos
      unfold Recognizer.callSnapshots
      rw [hway, Recognizer.attempt_eq_of_straight hway]
      refine ⟨hwork.afterStart hstart hpos, ?_⟩
      intro ending after heq
      rcases Option.map_eq_some_iff.1 heq with ⟨x, hx, hend⟩
      cases hend
      rcases hwork.ends x.1 x.2 hx with ⟨hmid, hwithin⟩
      exact ⟨hmid.noted _, hwithin⟩
    | replays ses outcome =>
      unfold Recognizer.callSnapshots
      rw [hway, Recognizer.attempt_eq_of_replays hway]
      refine ⟨by simp, ?_⟩
      intro ending after heq
      cases heq
      have hok := ((bookkeeping Shape.Standard).replays pos hrun.inOrder hr hway).1
      exact ⟨hrun.of_stores hok rfl, hrun.replayed hway⟩
    | builds s ses => exact Confines.builds ih hinput hrun hr hpos hway

/-! ## Grammars in use -/

namespace Expr

/-- An expression of some kind is of every wider kind. -/
theorem Uses.mono {T T' : Shape V α Unit → Prop} (hsub : ∀ shape, T shape → T' shape)
    {e : Expr V α} (h : e.Uses T) : e.Uses T' := by
  induction h with
  | make h _ ih => exact .make (hsub _ h) ih
  | cached _ ih => exact .cached ih
  | deferred _ ih => exact .deferred ih
  | recursive _ ih => exact .recursive ih
  | named _ ih => exact .named ih
  | ref name => exact .ref name

end Expr

namespace Grammar

variable {g : Grammar V α} {hand : List (Recognizer V α)} {q : Query V α}

/-- A use with expressions of some kind is one with expressions of every wider kind. -/
theorem InUse.mono {T T' : Shape V α Unit → Prop} (hsub : ∀ shape, T shape → T' shape)
    (h : g.InUse T hand) : g.InUse T' hand := by
  induction h with
  | empty => exact .empty
  | build _ he ih => exact ih.build (he.mono hsub)
  | bind _ name hr ih => exact ih.bind name hr
  | unbind _ name ih => exact ih.unbind name
  | find _ hr ih => exact ih.find hr
  | toggle _ on hr ih => exact ih.toggle on hr
  | clear _ ht ih => exact ih.clear ht
  | parse _ hroot hreport ih => exact ih.parse hroot hreport
  | exec _ hroot hreport ih => exact ih.exec hroot hreport

/-- A parse starts confined when the outcomes of the grammar are. -/
theorem Ready.confined_opened (h : g.Ready Shape.Standard hand) (hstores : g.stores.Confined)
    (q : Query V α) :
    (q.opened g).Confined q.input ⟨{ root := q.root, input := q.input }, []⟩ := by
  have heq : (q.opened g).grammar.stores = g.stores := stores_opened _ _ _
  refine ⟨h.opened q, rfl, ?_, ?_⟩
  · rw [heq]
    exact hstores
  · rw [heq]
    exact Stores.awaits_of_none h.inOrder.settled

/-- An attempt by itself starts confined when the outcomes of the grammar are. -/
theorem Ready.confined_alone (h : g.Ready Shape.Standard hand) (hstores : g.stores.Confined)
    (root : Recognizer V α) (input : Fragments) :
    Run.Confined input ⟨{ root, input }, []⟩ ({ grammar := g } : Run V α) :=
  ⟨h.alone root input, rfl, hstores, Stores.awaits_of_none h.inOrder.settled⟩

/-- However a grammar has been used, its outcomes stop inside the inputs of their traces. -/
theorem InUse.confined (h : g.InUse Shape.Standard hand) : g.stores.Confined := by
  induction h with
  | empty =>
    intro s key n outcome ho
    simp [Stores.committed] at ho
  | @build g hand e _ he ih =>
    have hadds : Adds Shape.Standard [] (Grammar.build [] e) fun r => [r] := build_adds he (by simp)
    have hgrow := hadds.enlarges g
    unfold Stores.Confined
    rw [hgrow.committed_eq]
    exact ih
  | bind _ _ _ ih => exact ih
  | unbind _ _ ih => exact ih
  | find _ _ ih => exact ih
  | @toggle g hand r _ on hr ih =>
    have hgrow := (Adds.withCaching (T := Shape.Standard) on hr).enlarges g
    unfold Stores.Confined
    rw [hgrow.committed_eq]
    exact ih
  | @clear g hand t _ _ ih =>
    rcases g.dropTraces_eq t with ⟨stores, heq, -, -, hless⟩
    rw [heq]
    intro s key n outcome ho
    exact ih s key n outcome (hless s key n outcome ho)
  | @parse g hand q limit report h hroot hreport ih =>
    rcases q.exec_of_parse? hreport with ⟨mid, hmid, hgrammar, -⟩
    have hstart := h.ready.confined_opened ih q
    have hinput : q.context.input = q.input := rfl
    have hends := Run.Confined.exec q.input limit hstart hinput (h.ready.belongs_opened hroot)
      (Fragments.valid_start q.input)
    have hconfined := (hends.ends report.ending mid hmid).1
    rw [hgrammar]
    cases hses : mid.session with
    | none =>
      rw [Run.closed_of_no_session hses]
      exact hconfined.committed
    | some ses =>
      rw [Run.closed_of_session hses]
      have hawaits : mid.grammar.stores.Awaits ses.key.input := by
        rw [hconfined.key_input hses]
        exact hconfined.pending
      exact Session.confined_finish hconfined.committed hawaits report.ending.isMatch
  | @exec g hand root limit input values window pos report h hroot hreport ih =>
    -- nothing is recorded outside a session, so the position does not matter
    have hcontained : ∀ shape : Shape V α Unit, shape.Standard → shape.Contained := by
      intro shape hshape
      cases shape <;> trivial
    have htraces := ((h.mono hcontained).unrecorded (q := ⟨root, input, values, .standard⟩)
      hroot).2 limit window pos report hreport
    unfold Stores.Confined
    rw [Stores.committed_of_traces htraces.1]
    exact ih

end Grammar

end SlotGrammar
