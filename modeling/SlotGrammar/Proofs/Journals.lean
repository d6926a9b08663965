import SlotGrammar.Proofs.Usage

/-!
# Journals and pending outcomes

What a session has pending lies in many stores, and its journal says where.  The two
agree at all times: an outcome is pending at an ordinal in the store that the journal
names there, and in no other.  A rollback, a record, an error that skips the rollback,
a commit and a discard all keep it so, for the session at hand and for the sessions of
the parses around it.

Main results:

- Theorem `Session.InOrder.restored` and `Session.InOrder.recorded`: a call that records
  its outcome keeps its session in order.
- Theorem `Grammar.InOrder.closed`: a parse that is over leaves the parses around it in
  order.
- Theorem `Run.InOrder.built`: a call that has built its outcome leaves its run in order.
-/

namespace SlotGrammar

variable {V α : Type}

/-! ## One session -/

/-- Whether the journal of a session says what the session has pending, and the session
counts the calls of a parse that run their own logic. -/
structure Session.InOrder (ses : Session) (stores : Stores V α) (frame : Frame V α) : Prop where
  key_eq : ses.key = traceKey frame.root frame.input
  pending_iff : ∀ (s : StoreId) (n : Nat),
    (stores.pending s ses.id n).isSome = true ↔ ses.journal[n]? = some (some s)
  building_eq : ses.building = frame.working.length
  free : ∀ k ∈ frame.working, ses.journal[k]? = some none
  descending : frame.working.Pairwise (· > ·)

namespace Session

/-- A session that ends has nothing pending in the stores of its journal. -/
theorem pending_finish_self (ses : Session) (matched : Bool) (stores : Stores V α) (t : StoreId)
    (n : Nat) :
    (ses.finish matched stores).pending t ses.id n =
      if some t ∈ ses.journal then none else stores.pending t ses.id n := by
  rcases ses with ⟨id, key, journal, building⟩
  induction journal generalizing stores with
  | nil => simp [finish]
  | cons slot journal ih =>
    rw [finish_cons ⟨id, key, journal, building⟩, ih]
    cases slot with
    | none => simp
    | some s =>
      have hclosed : Stores.pending
          (Array.modify stores s (close ⟨id, key, journal, building⟩ matched)) t id n =
            if t = s then none else stores.pending t id n := by
        unfold Stores.pending
        rw [Array.getElem?_modify]
        by_cases hst : s = t
        · subst hst
          cases stores[s]? with
          | none => simp
          | some store =>
            cases matched with
            | true => simp [close, Store.pending?_commit]
            | false => simp [close, Store.pending?_discard]
        · simp [hst, Ne.symm hst]
      change (if some t ∈ journal then none
        else Stores.pending (Array.modify stores s _) t id n) = _
      rw [hclosed]
      by_cases hmem : some t ∈ journal
      · simp [hmem]
      · by_cases hts : t = s
        · simp [hts]
        · simp [hmem, hts]

namespace InOrder

variable {ses : Session} {stores stores' : Stores V α} {frame : Frame V α} {k : Nat}

/-- Only what is pending for the session counts. -/
theorem congr (h : ses.InOrder stores frame)
    (hpending : ∀ s n, stores'.pending s ses.id n = stores.pending s ses.id n) :
    ses.InOrder stores' frame where
  key_eq := h.key_eq
  pending_iff s n := by
    rw [hpending]
    exact h.pending_iff s n
  building_eq := h.building_eq
  free := h.free
  descending := h.descending

/-- The calls that run their own logic have reserved their ordinals. -/
theorem lt_ordinal (h : ses.InOrder stores frame) {j : Nat} (hj : j ∈ frame.working) :
    j < ses.ordinal :=
  (List.getElem?_eq_some_iff.1 (h.free j hj)).1

/-- The calls around one that runs its own logic have lower ordinals. -/
theorem lt_of_mem (h : ses.InOrder stores (frame.work k)) {j : Nat} (hj : j ∈ frame.working) :
    j < k :=
  (List.pairwise_cons.1 h.descending).1 j hj

/-- A session that starts is in order. -/
theorem start {root : Recognizer V α} {input : Fragments} {id : SessionId}
    (hfresh : ∀ s n, stores.pending s id n = none) :
    Session.InOrder { id, key := traceKey root input } stores { root, input } := by
  refine ⟨rfl, ?_, rfl, by simp, .nil⟩
  intro s n
  simp [hfresh]

/-- A reservation adds a slot that names no store. -/
theorem reserve (h : ses.InOrder stores frame) : ses.reserve.InOrder stores frame := by
  have hjournal : ∀ (n : Nat) (s : StoreId),
      ses.reserve.journal[n]? = some (some s) ↔ ses.journal[n]? = some (some s) := by
    intro n s
    change (ses.journal ++ [none])[n]? = _ ↔ _
    rcases Nat.lt_or_ge n ses.journal.length with hlt | hge
    · rw [List.getElem?_append_left hlt]
    · rw [List.getElem?_append_right hge, List.getElem?_eq_none hge]
      cases n - ses.journal.length <;> simp
  refine ⟨h.key_eq, ?_, h.building_eq, ?_, h.descending⟩
  · intro s n
    rw [hjournal]
    exact h.pending_iff s n
  · intro j hj
    change (ses.journal ++ [none])[j]? = _
    rw [List.getElem?_append_left (h.lt_ordinal hj)]
    exact h.free j hj

/-- A call that builds its outcome has reserved its ordinal and is counted. -/
theorem begin (h : ses.InOrder stores frame) :
    ses.reserve.beginBuilding.InOrder stores (frame.work ses.ordinal) := by
  have hreserved := h.reserve
  refine ⟨h.key_eq, hreserved.pending_iff, ?_, ?_, ?_⟩
  · exact congrArg (· + 1) h.building_eq
  · intro j hj
    rcases List.mem_cons.1 hj with rfl | hj
    · change (ses.journal ++ [none])[ses.journal.length]? = some none
      simp
    · exact hreserved.free j hj
  · exact List.pairwise_cons.2 ⟨fun j hj => h.lt_ordinal hj, h.descending⟩

/-- The count of a call that runs its own logic is there to be taken back. -/
theorem building_pos (h : ses.InOrder stores (frame.work k)) : 0 < ses.building := by
  rw [h.building_eq]
  exact Nat.succ_pos _

/-- A call that is over is not counted any more.  The rollback may be skipped. -/
theorem leave (h : ses.InOrder stores (frame.work k)) : ses.endBuilding.InOrder stores frame := by
  refine ⟨h.key_eq, h.pending_iff, ?_, ?_, (List.pairwise_cons.1 h.descending).2⟩
  · have hcount : ses.building = frame.working.length + 1 := h.building_eq
    change ses.building - 1 = _
    omega
  · exact fun j hj => h.free j (List.mem_cons_of_mem k hj)

/-- A rollback drops what is pending from a checkpoint on, and leaves the slot of the call
itself. -/
theorem restored (h : ses.InOrder stores (frame.work k)) :
    (ses.endBuilding.rollBack (k + 1)).InOrder (ses.dropFrom (k + 1) stores) frame := by
  have hleft := h.leave
  have htake : ∀ n, n < k + 1 → (ses.journal.take (k + 1))[n]? = ses.journal[n]? :=
    fun n hn => List.getElem?_take_of_lt hn
  refine ⟨h.key_eq, ?_, hleft.building_eq, ?_, hleft.descending⟩
  · intro s n
    change (Stores.pending (dropSlots ses.id (k + 1) (ses.journal.drop (k + 1)) stores)
      s ses.id n).isSome = true ↔ (ses.journal.take (k + 1))[n]? = some (some s)
    rw [pending_dropSlots, List.getElem?_drop]
    by_cases hn : n < k + 1
    · rw [htake n hn, if_neg (by omega)]
      exact h.pending_iff s n
    · rw [show k + 1 + (n - (k + 1)) = n by omega, List.getElem?_take_eq_none (by omega)]
      by_cases hslot : ses.journal[n]? = some (some s)
      · simp [hslot, Nat.le_of_not_lt hn]
      · have hnone := (h.pending_iff s n).not.2 hslot
        simpa [hslot] using hnone
  · intro j hj
    change (ses.journal.take (k + 1))[j]? = some none
    rw [htake j (Nat.lt_succ_of_lt (h.lt_of_mem hj))]
    exact hleft.free j hj

/-- After a rollback the slot of the call is the last one, and it names no store. -/
theorem slot_restored (h : ses.InOrder stores (frame.work k)) :
    (ses.endBuilding.rollBack (k + 1)).ordinal = k + 1 ∧
      (ses.endBuilding.rollBack (k + 1)).journal[k]? = some none := by
  have hlt : k < ses.ordinal := h.lt_ordinal List.mem_cons_self
  constructor
  · rw [ordinal_rollBack, ordinal_endBuilding]
    omega
  · change (ses.journal.take (k + 1))[k]? = some none
    rw [List.getElem?_take_of_lt (Nat.lt_succ_self k)]
    exact h.free k List.mem_cons_self

/-- A record fills a slot that named no store. -/
theorem recorded (h : ses.InOrder stores frame) {s : StoreId} (hs : s < stores.size)
    (hslot : ses.journal[k]? = some none) (hlt : ∀ j ∈ frame.working, j < k)
    (outcome : Outcome V α) :
    (ses.mark k s).InOrder
      (Array.modify stores s fun store => store.record ses.id k outcome) frame := by
  refine ⟨h.key_eq, ?_, h.building_eq, ?_, h.descending⟩
  · intro t n
    change (Stores.pending _ t ses.id n).isSome = true ↔
      (ses.journal.set k (some s))[n]? = some (some t)
    rw [Stores.pending_record stores hs]
    by_cases hn : n = k
    · subst hn
      have hlength := (List.getElem?_eq_some_iff.1 hslot).1
      have hold := (h.pending_iff t n).not.2 (by simp [hslot])
      rw [List.getElem?_set_self hlength]
      by_cases hts : t = s
      · simp [hts]
      · simpa [hts, Ne.symm hts] using hold
    · rw [List.getElem?_set_ne (Ne.symm hn), if_neg (by simp [hn])]
      exact h.pending_iff t n
  · intro j hj
    change (ses.journal.set k (some s))[j]? = some none
    rw [List.getElem?_set_ne (Nat.ne_of_gt (hlt j hj))]
    exact h.free j hj

/-- A session that is settled has nothing pending. -/
theorem pending_finish (h : ses.InOrder stores frame) (matched : Bool) (s : StoreId) (n : Nat) :
    (ses.finish matched stores).pending s ses.id n = none := by
  rw [pending_finish_self]
  by_cases hmem : some s ∈ ses.journal
  · exact if_pos hmem
  · rw [if_neg hmem, ← Option.not_isSome_iff_eq_none, h.pending_iff]
    exact fun hslot => hmem (List.mem_of_getElem? hslot)

end InOrder

end Session

/-! ## All sessions -/

/-- The sessions of some parses in flight. -/
def Flight.ids (flight : Flight V α) : List SessionId :=
  flight.filterMap fun x => x.2.map Session.id

@[simp]
theorem Flight.ids_cons_some (frame : Frame V α) (ses : Session) (flight : Flight V α) :
    Flight.ids ((frame, some ses) :: flight) = ses.id :: Flight.ids flight := rfl

theorem Flight.id_mem {flight : Flight V α} {x : Frame V α × Option Session} (hx : x ∈ flight)
    {ses : Session} (hses : x.2 = some ses) : ses.id ∈ Flight.ids flight :=
  List.mem_filterMap.2 ⟨x, hx, by rw [hses]; rfl⟩

/-- Whether the sessions of the parses in flight are in order, each with a number of its
own, and nothing is pending for any other. -/
structure Grammar.InOrder (g : Grammar V α) (flight : Flight V α) : Prop where
  sessions : ∀ x ∈ flight, ∀ ses, x.2 = some ses → ses.InOrder g.stores x.1
  apart : (Flight.ids flight).Pairwise (· > ·)
  fresh : ∀ id ∈ Flight.ids flight, id < g.nextSession
  known : ∀ (s : StoreId) (id : SessionId) (n : Nat),
    (g.stores.pending s id n).isSome = true → id ∈ Flight.ids flight

namespace Grammar.InOrder

variable {g g' : Grammar V α} {frame frame' : Frame V α} {ses ses' : Session}
  {session : Option Session} {flight : Flight V α}

/-- Only what is pending counts. -/
theorem congr (h : g.InOrder flight) (hsession : g'.nextSession = g.nextSession)
    (hpending : g'.stores.pending = g.stores.pending) : g'.InOrder flight where
  sessions x hx ses hses := (h.sessions x hx ses hses).congr fun s n => by rw [hpending]
  apart := h.apart
  fresh id hid := by
    rw [hsession]
    exact h.fresh id hid
  known s id n hsome := by
    rw [hpending] at hsome
    exact h.known s id n hsome

/-- The sessions around the innermost one are other sessions. -/
theorem ne_of_mem (h : g.InOrder ((frame, some ses) :: flight)) {id : SessionId}
    (hid : id ∈ Flight.ids flight) : id ≠ ses.id :=
  Nat.ne_of_lt ((List.pairwise_cons.1 h.apart).1 id hid)

/-- What the innermost session does to itself leaves the others in order. -/
theorem advance (h : g.InOrder ((frame, some ses) :: flight)) (hid : ses'.id = ses.id)
    (hsession : g'.nextSession = g.nextSession)
    (hothers : ∀ s id n, id ≠ ses.id → g'.stores.pending s id n = g.stores.pending s id n)
    (hses : ses'.InOrder g'.stores frame') : g'.InOrder ((frame', some ses') :: flight) := by
  have hids : Flight.ids ((frame', some ses') :: flight) =
      Flight.ids ((frame, some ses) :: flight) := by
    rw [Flight.ids_cons_some, Flight.ids_cons_some, hid]
  refine ⟨?_, by rw [hids]; exact h.apart, ?_, ?_⟩
  · intro x hx ses₁ hses₁
    rcases List.mem_cons.1 hx with rfl | hx
    · cases hses₁
      exact hses
    · apply (h.sessions x (List.mem_cons_of_mem _ hx) ses₁ hses₁).congr
      exact fun s n => hothers s ses₁.id n (h.ne_of_mem (Flight.id_mem hx hses₁))
  · intro id hmem
    rw [hids] at hmem
    rw [hsession]
    exact h.fresh id hmem
  · intro s id n hsome
    rw [hids]
    by_cases heq : id = ses.id
    · simp [heq]
    · rw [hothers s id n heq] at hsome
      exact h.known s id n hsome

/-- Nothing is pending for a session that is still to come. -/
theorem pending_eq_none (h : g.InOrder flight) {id : SessionId} (hid : g.nextSession ≤ id)
    (s : StoreId) (n : Nat) : g.stores.pending s id n = none := by
  rw [← Option.not_isSome_iff_eq_none]
  intro hsome
  exact Nat.not_lt_of_le hid (h.fresh id (h.known s id n hsome))

/-- A parse starts with its session in order. -/
theorem opened {run : Run V α} (h : run.grammar.InOrder flight) (ctx : Context V α)
    (root : Recognizer V α) :
    (run.opened ctx root).grammar.InOrder
      (({ root, input := ctx.input }, (run.opened ctx root).session) :: flight) := by
  unfold Run.opened
  by_cases hcache : ctx.options.cache = true
  · rw [if_pos hcache]
    refine ⟨?_, ?_, ?_, ?_⟩
    · intro x hx ses hses
      rcases List.mem_cons.1 hx with rfl | hx
      · cases hses
        exact .start fun s n => h.pending_eq_none (Nat.le_refl _) s n
      · exact h.sessions x hx ses hses
    · rw [Flight.ids_cons_some]
      exact List.pairwise_cons.2 ⟨h.fresh, h.apart⟩
    · intro id hid
      rcases List.mem_cons.1 hid with rfl | hid
      · exact Nat.lt_succ_self _
      · exact Nat.lt_succ_of_lt (h.fresh id hid)
    · intro s id n hsome
      rw [Flight.ids_cons_some]
      exact List.mem_cons_of_mem _ (h.known s id n hsome)
  · rw [if_neg hcache]
    refine ⟨?_, h.apart, h.fresh, h.known⟩
    intro x hx ses hses
    rcases List.mem_cons.1 hx with rfl | hx
    · cases hses
    · exact h.sessions x hx ses hses

/-- A parse that is over leaves the parses around it in order. -/
theorem closed {run : Run V α} (h : run.grammar.InOrder ((frame, run.session) :: flight))
    (outer : Option Session) (ending : Ending V α) :
    (run.closed outer ending).grammar.InOrder flight := by
  unfold Run.closed
  cases hses : run.session with
  | none =>
    rw [hses] at h
    exact ⟨fun x hx => h.sessions x (List.mem_cons_of_mem _ hx), h.apart, h.fresh, h.known⟩
  | some ses =>
    rw [hses] at h
    have hothers : ∀ s id n, id ≠ ses.id →
        (ses.finish ending.isMatch run.grammar.stores).pending s id n =
          run.grammar.stores.pending s id n :=
      fun s id n hid => ses.pending_finish ending.isMatch run.grammar.stores s hid n
    refine ⟨?_, (List.pairwise_cons.1 h.apart).2, ?_, ?_⟩
    · intro x hx ses' hses'
      apply (h.sessions x (List.mem_cons_of_mem _ hx) ses' hses').congr
      exact fun s n => hothers s ses'.id n (h.ne_of_mem (Flight.id_mem hx hses'))
    · exact fun id hid => h.fresh id (List.mem_cons_of_mem _ hid)
    · intro s id n hsome
      have hself := (h.sessions _ List.mem_cons_self ses rfl).pending_finish ending.isMatch s n
      have hne : id ≠ ses.id := by
        rintro rfl
        rw [show Stores.pending _ s ses.id n = none from hself] at hsome
        cases hsome
      rw [show Stores.pending _ s id n = _ from hothers s id n hne] at hsome
      exact (List.mem_cons.1 (h.known s id n hsome)).resolve_left hne

/-- Without a parse in flight nothing is pending. -/
theorem settled (h : g.InOrder []) (s : StoreId) (id : SessionId) (n : Nat) :
    g.stores.pending s id n = none := by
  rw [← Option.not_isSome_iff_eq_none]
  intro hsome
  cases h.known s id n hsome

end Grammar.InOrder

/-! ## Snapshots -/

/-- Whether journals and stores agree in a snapshot, and a call with a cache finds its own
count and its own slot when it is over. -/
structure Snapshot.InOrder (snap : Snapshot V α) : Prop where
  flight : snap.run.grammar.InOrder (snap.nesting.inFlight snap.run.session)
  worked : ∀ k ending, snap.occasion = .worked k ending →
    ∃ ses, snap.run.session = some ses ∧ 0 < ses.building ∧ ses.journal[k]? = some none
  settling : ∀ s k outcome, snap.occasion = .settling s k outcome →
    ∃ ses, snap.run.session = some ses ∧ ses.ordinal = k + 1 ∧ ses.journal[k]? = some none
  finished : ∀ id, snap.occasion = .finished id →
    ∀ s n, snap.run.grammar.stores.pending s id n = none

section Conduct

variable {T : Shape V α Unit → Prop} {nesting : Nesting V α} {run mid : Run V α}

/-- Whether a state of a run is in order, over stores that there are. -/
structure Run.InOrder (T : Shape V α Unit → Prop) (nesting : Nesting V α) (run : Run V α) :
    Prop where
  flight : run.grammar.InOrder (nesting.inFlight run.session)
  coherent : run.grammar.Coherent T run.grammar.stores.size

/-- Whether a run has gone on in its session, over at least as many stores. -/
structure Run.Continues (run run' : Run V α) : Prop where
  size_le : run.grammar.stores.size ≤ run'.grammar.stores.size
  id_eq : run'.session.map Session.id = run.session.map Session.id

theorem Run.Continues.trans {run'' : Run V α} (h : run.Continues mid) (h' : mid.Continues run'') :
    run.Continues run'' :=
  ⟨Nat.le_trans h.size_le h'.size_le, h'.id_eq.trans h.id_eq⟩

/-- A call that builds its outcome has a session in order when its own logic is over. -/
theorem Run.InOrder.session {k : Nat} (h : mid.InOrder T (nesting.work k)) {ses : Session}
    (hid : mid.session.map Session.id = some ses.id) :
    ∃ ses', mid.session = some ses' ∧ ses'.id = ses.id ∧
      ses'.InOrder mid.grammar.stores (nesting.frame.work k) ∧
        mid.grammar.InOrder ((nesting.frame.work k, some ses') :: nesting.outer) := by
  rcases Option.map_eq_some_iff.1 hid with ⟨ses', hses', hsame⟩
  have hflight : mid.grammar.InOrder ((nesting.frame.work k, mid.session) :: nesting.outer) :=
    h.flight
  rw [hses'] at hflight
  exact ⟨ses', hses', hsame, hflight.sessions _ List.mem_cons_self ses' rfl, hflight⟩

/-- A rollback keeps a run in order. -/
theorem Run.InOrder.restored {k : Nat} (h : mid.InOrder T (nesting.work k)) {ses : Session}
    (hid : mid.session.map Session.id = some ses.id) : (mid.restored k).InOrder T nesting := by
  rcases h.session hid with ⟨ses', hses', -, hbooks, hflight⟩
  rw [Run.restored_of_session hses']
  constructor
  · refine hflight.advance rfl rfl ?_ hbooks.restored
    intro s id n hne
    change Stores.pending (Session.dropSlots ses'.id (k + 1) _ mid.grammar.stores) s id n = _
    rw [Session.pending_dropSlots, if_neg (by simp [hne])]
  · have hsize : (ses'.dropFrom (k + 1) mid.grammar.stores).size = mid.grammar.stores.size :=
      Session.size_dropSlots ses'.id (k + 1) _ mid.grammar.stores
    change Grammar.Coherent T (ses'.dropFrom (k + 1) mid.grammar.stores).size _
    rw [hsize]
    exact h.coherent.onStores _ _

/-- A record keeps a run in order. -/
theorem Run.InOrder.recorded {k : Nat} {s : StoreId} (h : run.InOrder T nesting)
    (hs : s < run.grammar.stores.size) {ses : Session} (hses : run.session = some ses)
    (hslot : ses.journal[k]? = some none) (hlt : ∀ j ∈ nesting.frame.working, j < k)
    (outcome : Outcome V α) : (run.recorded s k outcome).InOrder T nesting := by
  have hflight : run.grammar.InOrder ((nesting.frame, run.session) :: nesting.outer) := h.flight
  rw [hses] at hflight
  have hbooks := hflight.sessions _ List.mem_cons_self ses rfl
  rw [Run.recorded_of_session hses]
  constructor
  · refine hflight.advance rfl rfl ?_ (hbooks.recorded hs hslot hlt outcome)
    intro t id n hne
    change Stores.pending (Array.modify run.grammar.stores s _) t id n = _
    rw [Stores.pending_record run.grammar.stores hs, if_neg (by simp [hne])]
  · change Grammar.Coherent T (Array.modify run.grammar.stores s _).size _
    rw [Array.size_modify]
    exact h.coherent.onStores _ _

/-- A call that has built its outcome, or has raised an error, leaves the run in order. -/
theorem Run.InOrder.built {k : Nat} {s : StoreId} (h : mid.InOrder T (nesting.work k))
    (hs : s < mid.grammar.stores.size) {ses : Session}
    (hid : mid.session.map Session.id = some ses.id) (ending : Ending V α) :
    (Act.built s k ending mid).InOrder T nesting ∧ mid.Continues (Act.built s k ending mid) := by
  rcases h.session hid with ⟨ses', hses', hsame, hbooks, hflight⟩
  cases ending with
  | error e =>
    rw [Run.built_error hses']
    refine ⟨⟨?_, h.coherent⟩, ⟨Nat.le_refl _, ?_⟩⟩
    · exact hflight.advance rfl rfl (fun _ _ _ _ => rfl) hbooks.leave
    · rw [hses']
      rfl
  | ok outcome =>
    have hrestored := h.restored hid
    have hslot := hbooks.slot_restored
    have hses : (mid.restored k).session = some (ses'.endBuilding.rollBack (k + 1)) := by
      rw [Run.restored_of_session hses']
      rfl
    have hsize : (mid.restored k).grammar.stores.size = mid.grammar.stores.size := by
      rw [Run.restored_of_session hses']
      exact Session.size_dropSlots ses'.id (k + 1) _ mid.grammar.stores
    rw [Run.built_ok]
    refine ⟨?_, ?_, ?_⟩
    · exact hrestored.recorded (by rw [hsize]; exact hs) hses hslot.2
        (fun j hj => hbooks.lt_of_mem hj) outcome
    · rw [Run.recorded_of_session hses]
      change _ ≤ (Array.modify (mid.restored k).grammar.stores s _).size
      rw [Array.size_modify, hsize]
    · rw [Run.recorded_of_session hses, hses']
      rfl

/-- A call whose own logic is over finds its own count and its own slot. -/
theorem Run.InOrder.afterWork {k : Nat} (h : mid.InOrder T (nesting.work k)) {ses : Session}
    (hid : mid.session.map Session.id = some ses.id) (s : StoreId) (ending : Ending V α) :
    ∀ snap ∈ Snapshot.afterWork nesting s k ending mid, snap.InOrder := by
  rcases h.session hid with ⟨ses', hses', -, hbooks, -⟩
  apply Snapshot.forall_afterWork
  · refine ⟨h.flight, ?_, by simp, by simp⟩
    intro k' ending' heq
    cases heq
    exact ⟨ses', hses', hbooks.building_pos, hbooks.free k List.mem_cons_self⟩
  · intro outcome
    refine ⟨(h.restored hid).flight, by simp, ?_, by simp⟩
    intro s' k' outcome' heq
    cases heq
    refine ⟨ses'.endBuilding.rollBack (k + 1), ?_, hbooks.slot_restored⟩
    change (mid.restored k).session = _
    rw [Run.restored_of_session hses']
    rfl

/-- A parse starts with a coherent grammar. -/
theorem Grammar.Coherent.opened {n : Nat} (h : run.grammar.Coherent T n) (ctx : Context V α)
    (root : Recognizer V α) : (run.opened ctx root).grammar.Coherent T n := by
  unfold Run.opened
  split
  · exact h.onStores _ _
  · exact h

/-- A parse that is over leaves the grammar coherent. -/
theorem Run.InOrder.closed_coherent (h : run.InOrder T nesting) (outer : Option Session)
    (ending : Ending V α) :
    (run.closed outer ending).grammar.Coherent T (run.closed outer ending).grammar.stores.size ∧
      (run.closed outer ending).grammar.stores.size = run.grammar.stores.size := by
  unfold Run.closed
  cases run.session with
  | none => exact ⟨h.coherent, rfl⟩
  | some ses =>
    have hsize := ses.size_finish ending.isMatch run.grammar.stores
    constructor
    · change Grammar.Coherent T (ses.finish ending.isMatch run.grammar.stores).size _
      rw [hsize]
      exact h.coherent.onStores _ _
    · exact hsize

/-- What happens in a run keeps journals and stores in order. -/
def bookkeeping (T : Shape V α Unit → Prop) : Conduct V α where
  Ok nesting run := run.InOrder T nesting
  Knows g r := r.Belongs T g.stores.size
  Sees _ := True
  Goes run _ run' := run.Continues run'
  Fair snap := snap.InOrder
  refl run := ⟨Nat.le_refl _, rfl⟩
  trans h h' := h.trans h'
  knows_goes h hr := hr.mono h.size_le
  knows_part h hp := h.part hp
  entered r pos h := ⟨h.flight, by simp, by simp, by simp⟩
  working r pos h := ⟨h.flight, by simp, by simp, by simp⟩
  returned r pos ending h := ⟨h.flight, by simp, by simp, by simp⟩
  noted event _ h := ⟨⟨h.flight, h.coherent⟩, ⟨Nat.le_refl _, rfl⟩⟩
  cleared := by
    intro nesting run handle t p h _
    rcases run.grammar.dropTraces_eq t with ⟨stores, heq, hsize, hpending, -⟩
    rw [heq]
    refine ⟨⟨h.flight.congr rfl hpending, ?_⟩, ⟨Nat.le_of_eq hsize.symm, rfl⟩⟩
    change Grammar.Coherent T stores.size _
    rw [hsize]
    exact h.coherent.onStores _ _
  followed := by
    intro nesting run run' ctx handle target found h _ _ hfollow
    rcases Grammar.Enlarges.followed hfollow with ⟨hgrow, hsession⟩
    rcases h.coherent.followed hfollow with ⟨hcoherent, hfound⟩
    refine ⟨⟨?_, hcoherent⟩, ⟨hgrow.size_le, by rw [hsession]⟩, fun x hx => ⟨trivial, hfound x hx⟩⟩
    rw [hsession]
    exact h.flight.congr hgrow.nextSession_eq hgrow.pending_eq
  straight := by
    intro nesting run r pos h _ _
    refine ⟨⟨h.flight, h.coherent⟩, ?_⟩
    intro l mid ending hmid hgoes
    exact ⟨⟨hmid.flight, hmid.coherent⟩, ⟨hgoes.size_le, hgoes.id_eq⟩⟩
  replays := by
    intro nesting run r pos ses outcome h _ hway
    rcases Run.way_eq_replays hway with ⟨s, -, hses, -⟩
    have hflight : run.grammar.InOrder ((nesting.frame, run.session) :: nesting.outer) := h.flight
    rw [hses] at hflight
    have hbooks := hflight.sessions _ List.mem_cons_self ses rfl
    refine ⟨⟨?_, h.coherent⟩, ⟨Nat.le_refl _, ?_⟩⟩
    · exact hflight.advance rfl rfl (fun _ _ _ _ => rfl) hbooks.reserve
    · rw [hses]
      rfl
  builds := by
    intro nesting run r pos s ses h hknows hway
    rcases Run.way_eq_builds hway with ⟨hcaching, hses, -⟩
    have hflight : run.grammar.InOrder ((nesting.frame, run.session) :: nesting.outer) := h.flight
    rw [hses] at hflight
    have hbooks := hflight.sessions _ List.mem_cons_self ses rfl
    refine ⟨⟨hflight.advance rfl rfl (fun _ _ _ _ => rfl) hbooks.begin, h.coherent⟩, ?_⟩
    intro l mid ending hmid hgoes
    have hid : mid.session.map Session.id = some ses.id := hgoes.id_eq
    have hs : s < mid.grammar.stores.size := by
      apply Nat.lt_of_lt_of_le (hknows.store_lt r s .refl ?_) hgoes.size_le
      rw [hcaching]
      rfl
    have hbuilt := hmid.built hs hid ending
    refine ⟨hmid.afterWork hid s ending, ⟨hbuilt.1.flight, hbuilt.1.coherent⟩, ⟨?_, ?_⟩⟩
    · exact Nat.le_trans hgoes.size_le hbuilt.2.size_le
    · rw [hses]
      exact hbuilt.2.id_eq.trans hid
  nested := by
    intro nesting run ctx handle sub p h _ hknows
    have hstores := stores_opened (ctx.inside sub p) p run
    have hopened : (run.opened (ctx.inside sub p) p).InOrder T
        (nesting.enter p sub.input run.session) :=
      ⟨h.flight.opened (ctx.inside sub p) p, by rw [hstores]; exact h.coherent.opened _ p⟩
    have hp : p.Belongs T (run.opened (ctx.inside sub p) p).grammar.stores.size := by
      rw [hstores]
      exact hknows.part (List.mem_singleton.2 rfl)
    refine ⟨hopened, trivial, hp, ?_⟩
    intro l mid ending hmid hgoes
    have hflight : mid.grammar.InOrder
        (({ root := p, input := sub.input }, mid.session) :: nesting.inFlight run.session) :=
      hmid.flight
    have hclosed := hflight.closed run.session ending
    have hsession := mid.session_closed run.session ending
    have hcoherent := hmid.closed_coherent run.session ending
    have hafter : (mid.closed run.session ending).InOrder T nesting := by
      refine ⟨?_, hcoherent.1⟩
      rw [hsession]
      exact hclosed
    refine ⟨⟨hafter.flight, by simp, by simp, ?_⟩, hafter, ⟨?_, by rw [hsession]⟩⟩
    · intro id heq s n
      cases heq
      rw [← Option.not_isSome_iff_eq_none]
      intro hsome
      exact Nat.lt_irrefl _ (h.flight.fresh _ (hclosed.known s _ n hsome))
    · rw [hcoherent.2, ← hstores]
      exact hgoes.size_le

end Conduct

end SlotGrammar
