import SlotGrammar.Proofs.Alignment
import SlotGrammar.Proofs.Grounds
import SlotGrammar.Proofs.Isolation

/-!
# Families of handles

Toggling makes a family of handles on one recognizer.  They keep one identity, and each of them
is cached as it was asked to be.  What they share is the store: a handle passes its store on to
all that come from it, through any togglings, and a handle without one gives a new store to each
handle that is made with a cache.  What lies in a store, at any time of any run, has been the
outcome of a call through that very store, so families with different stores have nothing to do
with each other.

Main results:

- Theorem `Query.told`: a parse records only the outcomes of calls through each store.
- Theorem `Past.Sound.toggled`: togglings are lawful, and each new store is a store of its own.
- Theorem `Underway.families`: what the handles of a family have in common, and what those of
  different families do not.
-/

namespace SlotGrammar

variable {V α : Type}

/-! ## What lies in the stores -/

/-- Whether an outcome lies in a store at an ordinal, pending or committed. -/
def Stores.Keeps (stores : Stores V α) (s : StoreId) (n : Nat) (o : Outcome V α) : Prop :=
  (∃ id, stores.pending s id n = some o) ∨ ∃ key, stores.committed s key n = some o

namespace Session

variable {ses : Session} {s t : StoreId} {k n : Nat} {o o' : Outcome V α} {stores : Stores V α}

/-- Dropping ordinals adds nothing. -/
theorem keeps_of_dropFrom (h : (ses.dropFrom k stores).Keeps t n o) : stores.Keeps t n o := by
  rcases h with ⟨id, ho⟩ | ⟨key, ho⟩
  · rw [dropFrom, pending_dropSlots] at ho
    split at ho
    · cases ho
    · exact .inl ⟨id, ho⟩
  · rw [dropFrom, committed_dropSlots] at ho
    exact .inr ⟨key, ho⟩

/-- Recording an outcome adds nothing but that outcome. -/
theorem keeps_of_settleIn (h : (ses.settleIn s k o stores).Keeps t n o') :
    (t = s ∧ n = k ∧ o' = o) ∨ stores.Keeps t n o' := by
  rcases h with ⟨id, ho⟩ | ⟨key, ho⟩
  · rcases ses.pending_settleIn_cases ho with ⟨hstore, -, hordinal, houtcome⟩ | hold
    · exact .inl ⟨hstore, hordinal, houtcome⟩
    · exact .inr (.inl ⟨id, hold⟩)
  · rw [committed_settleIn] at ho
    exact .inr (.inr ⟨key, ho⟩)

/-- A session that ends adds nothing. -/
theorem keeps_of_finish {matched : Bool} (h : (ses.finish matched stores).Keeps t n o) :
    stores.Keeps t n o := by
  rcases h with ⟨id, ho⟩ | ⟨key, ho⟩
  · by_cases hid : id = ses.id
    · subst hid
      rw [pending_finish_self] at ho
      split at ho
      · cases ho
      · exact .inl ⟨_, ho⟩
    · rw [ses.pending_finish matched stores t hid] at ho
      exact .inl ⟨id, ho⟩
  · cases matched with
    | false =>
      rw [committed_finish_false] at ho
      exact .inr ⟨key, ho⟩
    | true =>
      rw [committed_finish_true] at ho
      split at ho
      · rcases Option.or_eq_some_iff.1 ho with hnew | ⟨-, hold⟩
        · exact .inl ⟨_, hnew⟩
        · exact .inr ⟨key, hold⟩
      · exact .inr ⟨key, ho⟩

end Session

/-- Whether what lies in the stores of a grammar is what calls through these stores have come to
at the same ordinals, as some events tell. -/
def Grammar.Told (g : Grammar V α) (events : List (Event V α)) : Prop :=
  ∀ s n o, g.stores.Keeps s n o → ∃ handle pos,
    .replied handle pos (some (n + 1)) (.ok o) ∈ events ∧ handle.caching = .active s

namespace Grammar.Told

variable {g g' : Grammar V α} {events events' : List (Event V α)}

/-- A step that adds nothing to the stores. -/
theorem silent (h : g.Told events)
    (hkeeps : ∀ s n o, g'.stores.Keeps s n o → g.stores.Keeps s n o)
    (hevents : ∀ event ∈ events, event ∈ events') : g'.Told events' := by
  intro s n o ho
  obtain ⟨handle, pos, hevent, hactive⟩ := h s n o (hkeeps s n o ho)
  exact ⟨handle, pos, hevents _ hevent, hactive⟩

/-- One more event. -/
theorem logged (h : g.Told events) (event : Event V α) : g.Told (event :: events) :=
  h.silent (fun _ _ _ ho => ho) fun _ => List.mem_cons_of_mem event

/-- Empty stores add nothing. -/
theorem enlarges (h : g.Told events) (hgrow : g.Enlarges g') : g'.Told events := by
  refine h.silent ?_ fun _ hevent => hevent
  intro s n o ho
  unfold Stores.Keeps at *
  rwa [hgrow.pending_eq, hgrow.committed_eq] at ho

/-- Clearing a store adds nothing. -/
theorem cleared (h : g.Told events) (t : Recognizer V α) : (g.dropTraces t).Told events := by
  obtain ⟨stores, heq, -, hpending, hcommitted⟩ := g.dropTraces_eq t
  rw [heq]
  refine h.silent ?_ fun _ hevent => hevent
  rintro s n o (⟨id, ho⟩ | ⟨key, ho⟩)
  · exact .inl ⟨id, by rwa [← hpending]⟩
  · exact .inr ⟨key, hcommitted s key n o ho⟩

end Grammar.Told

/-! ## Runs -/

/-- Whether a run has not got fewer stores, and its ordinal has not moved back. -/
structure Run.Advances (run run' : Run V α) : Prop where
  size_le : run.grammar.stores.size ≤ run'.grammar.stores.size
  ordinal_le : ∀ n, run.ordinal? = some n → ∃ m, run'.ordinal? = some m ∧ n ≤ m

namespace Run

variable {run run' run'' mid : Run V α} {before : List (Event V α)}

theorem Advances.of_session (hsize : run.grammar.stores.size ≤ run'.grammar.stores.size)
    (hsession : run'.session = run.session) : run.Advances run' := by
  refine ⟨hsize, fun n hn => ⟨n, ?_, Nat.le_refl n⟩⟩
  unfold ordinal?
  rw [hsession]
  exact hn

theorem Advances.trans (h : run.Advances run') (h' : run'.Advances run'') :
    run.Advances run'' := by
  refine ⟨Nat.le_trans h.size_le h'.size_le, ?_⟩
  intro n hn
  obtain ⟨m, hm, hle⟩ := h.ordinal_le n hn
  obtain ⟨k, hk, hle'⟩ := h'.ordinal_le m hm
  exact ⟨k, hk, Nat.le_trans hle hle'⟩

/-- Taking ordinals back adds nothing to the stores. -/
theorem told_restored (h : mid.grammar.Told (mid.log ++ before)) (k : Nat) :
    (mid.restored k).grammar.Told ((mid.restored k).log ++ before) := by
  unfold restored
  split
  · exact h
  · exact h.silent (fun _ _ _ ho => Session.keeps_of_dropFrom ho) fun _ hevent => hevent

/-- A call that builds its outcome adds only that outcome, and replies with it. -/
theorem told_built (h : mid.grammar.Told (mid.log ++ before)) {ses : Session}
    (hses : mid.session = some ses) {k : Nat} (hle : k + 1 ≤ ses.ordinal) {r : Recognizer V α}
    {s : StoreId} (hactive : r.handle.caching = .active s) (pos : Position) (ending : Ending V α) :
    let after := (Act.built s k ending mid).leaving r pos ending
    after.grammar.Told (after.log ++ before) := by
  intro after
  have hlog : after.log = .replied r.handle pos (Act.built s k ending mid).ordinal? ending ::
      mid.log := congrArg (List.cons _) (Act.built_log s k ending mid)
  have hevents : ∀ event ∈ mid.log ++ before, event ∈ after.log ++ before := by
    intro event hevent
    rw [hlog]
    exact List.mem_cons_of_mem _ hevent
  cases ending with
  | error e =>
    refine h.silent ?_ hevents
    intro t n o ho
    have hstores : after.grammar.stores = mid.grammar.stores := by
      show (Act.built s k (.error e) mid).grammar.stores = _
      rw [built_error hses]
      rfl
    rwa [hstores] at ho
  | ok outcome =>
    intro t n o ho
    have hstores : after.grammar.stores = ses.settleIn s k outcome mid.grammar.stores := by
      show (Act.built s k (.ok outcome) mid).grammar.stores = _
      unfold Act.built
      rw [hses]
      rfl
    rw [hstores] at ho
    rcases Session.keeps_of_settleIn ho with ⟨rfl, rfl, rfl⟩ | hold
    · rw [Act.ordinal_built_ok hses hle] at hlog
      refine ⟨r.handle, pos, ?_, hactive⟩
      rw [hlog]
      exact List.mem_cons_self
    · obtain ⟨handle, pos', hevent, hcaching⟩ := h t n o hold
      exact ⟨handle, pos', hevents _ hevent, hcaching⟩

/-- A parse that begins adds nothing to the stores. -/
theorem told_opened {run : Run V α} (h : run.grammar.Told (run.log ++ before)) (ctx : Context V α)
    (root : Recognizer V α) :
    (run.opened ctx root).grammar.Told ((run.opened ctx root).log ++ before) := by
  rw [log_opened]
  refine h.silent ?_ fun _ hevent => hevent
  intro s n o ho
  rwa [stores_opened] at ho

/-- A parse that is over adds nothing to the stores. -/
theorem told_closed (h : mid.grammar.Told (mid.log ++ before)) (outer : Option Session)
    (ending : Ending V α) :
    (mid.closed outer ending).grammar.Told ((mid.closed outer ending).log ++ before) := by
  unfold closed
  split
  · exact h.silent (fun _ _ _ ho => Session.keeps_of_finish ho) fun _ hevent => hevent
  · exact h

/-- The ordinal of a session goes on from where a call that builds its outcome has taken it. -/
theorem advances_built {ses : Session} (hses : mid.session = some ses) {k : Nat}
    (hle : k + 1 ≤ ses.ordinal) (s : StoreId) (ending : Ending V α) :
    (Act.built s k ending mid).grammar.stores.size = mid.grammar.stores.size ∧
      ∃ m, (Act.built s k ending mid).ordinal? = some m ∧ k + 1 ≤ m := by
  cases ending with
  | error e =>
    refine ⟨?_, _, Act.ordinal_built_error hses s k e, hle⟩
    rw [built_error hses]
    rfl
  | ok outcome =>
    refine ⟨?_, _, Act.ordinal_built_ok hses hle s outcome, Nat.le_refl _⟩
    unfold Act.built
    rw [hses]
    exact Session.size_settleIn _ _ _ _ _

theorem size_closed (outer : Option Session) (ending : Ending V α) (mid : Run V α) :
    (mid.closed outer ending).grammar.stores.size = mid.grammar.stores.size := by
  unfold closed
  split
  · exact Session.size_finish _ _ _
  · rfl

end Run

/-- What lies in the stores is told by the log, or by what happened before. -/
def recalling (before : List (Event V α)) : Conduct V α where
  Ok _ run := run.grammar.Told (run.log ++ before)
  Knows _ _ := True
  Sees _ := True
  Goes run _ run' := run.Advances run'
  Fair snap := snap.run.grammar.Told (snap.run.log ++ before)
  refl _ := .of_session (Nat.le_refl _) rfl
  trans h h' := h.trans h'
  knows_goes _ _ := trivial
  knows_part _ _ := trivial
  entered _ _ h := h
  working _ _ h := h
  returned _ _ _ h := h
  noted event _ h := ⟨h.logged event, .of_session (Nat.le_refl _) rfl⟩
  cleared := by
    intro nesting run handle t p h _
    obtain ⟨stores, heq, hsize, -⟩ := run.grammar.dropTraces_eq t
    refine ⟨h.cleared t, .of_session ?_ rfl⟩
    rw [heq]
    exact Nat.le_of_eq hsize.symm
  followed := by
    intro nesting run run' ctx handle target found h _ _ hfollow
    have hlog : ∀ event ∈ run.log, event ∈ run'.log := by
      rcases Act.follow_cases ctx target run with ⟨found', heq, -⟩ | ⟨_, _, _, _, -, heq⟩
      · rw [heq] at hfollow
        cases hfollow
        exact fun _ hevent => hevent
      · rw [heq] at hfollow
        cases hfollow
        exact fun _ hevent => List.mem_cons_of_mem _ hevent
    obtain ⟨hgrow, hsession⟩ := Grammar.Enlarges.followed hfollow
    refine ⟨(h.enlarges hgrow).silent (fun _ _ _ ho => ho) ?_, .of_session hgrow.size_le hsession,
      fun _ _ => ⟨trivial, trivial⟩⟩
    intro event hevent
    exact (List.mem_append.1 hevent).elim (fun hold => List.mem_append_left _ (hlog event hold))
      (List.mem_append_right _)
  straight := by
    intro nesting run r pos h _ _
    exact ⟨(h.logged _).logged _, fun l mid ending hmid hgoes =>
      ⟨hmid.logged _, hgoes.size_le, hgoes.ordinal_le⟩⟩
  replays := by
    intro nesting run r pos ses outcome h _ hway
    obtain ⟨s, -, hses, -⟩ := Run.way_eq_replays hway
    refine ⟨(h.logged _).logged _, Nat.le_refl _, ?_⟩
    intro n hn
    have hordinal : run.ordinal? = some ses.ordinal := by
      unfold Run.ordinal?
      rw [hses]
      rfl
    cases hordinal.symm.trans hn
    exact ⟨ses.reserve.ordinal, rfl, by simp⟩
  builds := by
    intro nesting run r pos s ses h _ hway
    obtain ⟨hactive, hses, -⟩ := Run.way_eq_builds hway
    let start := ((run.entering r pos).building ses).atWork r pos
    refine ⟨(h.logged _).logged _, fun l mid ending hmid hgoes => ?_⟩
    have hordinal : start.ordinal? = some (ses.ordinal + 1) :=
      congrArg some (Session.ordinal_reserve ses)
    obtain ⟨m, hm, hle⟩ := hgoes.ordinal_le _ hordinal
    obtain ⟨ses', hses', rfl⟩ := Option.map_eq_some_iff.1 hm
    obtain ⟨hsize, m, hm, hle'⟩ := Run.advances_built hses' hle s ending
    refine ⟨Snapshot.forall_afterWork hmid fun _ => Run.told_restored hmid _,
      Run.told_built hmid hses' hle hactive pos ending, ?_, ?_⟩
    · exact Nat.le_trans hgoes.size_le (Nat.le_of_eq hsize.symm)
    · intro n hn
      have hn : run.session.map Session.ordinal = some n := hn
      rw [hses] at hn
      cases hn
      exact ⟨m, hm, Nat.le_of_succ_le hle'⟩
  nested := by
    intro nesting run ctx handle sub p h _ _
    refine ⟨Run.told_opened h _ p, trivial, trivial, fun l mid ending hmid hgoes => ?_⟩
    have hclosed := Run.told_closed hmid run.session ending
    refine ⟨hclosed, hclosed, .of_session ?_ (mid.session_closed run.session ending)⟩
    rw [Run.size_closed, ← stores_opened (ctx.inside sub p) p run]
    exact hgoes.size_le

/-- Throughout a parse and after it, what lies in the stores is told by what happened. -/
theorem Query.told {q : Query V α} {g : Grammar V α} {before : List (Event V α)}
    (h : g.Told before) (limit : Nat) :
    (∀ snap ∈ q.snapshots g limit, snap.run.grammar.Told (snap.run.log ++ before)) ∧
      ∀ report, q.parse? g limit = some report →
        report.grammar.Told (report.events.reverse ++ before) ∧
          g.stores.size ≤ report.grammar.stores.size := by
  have hstores : (q.opened g).grammar.stores = g.stores := stores_opened _ _ _
  let start : Run V α := { grammar := g }
  have hstart : start.grammar.Told (start.log ++ before) := h
  have hopened : (q.opened g).grammar.Told ((q.opened g).log ++ before) :=
    Run.told_opened hstart q.context q.root
  have hpasses := (recalling before).passes_exec limit ⟨{ root := q.root, input := q.input }, []⟩
    q.context q.root .start (q.opened g) hopened trivial trivial
  refine ⟨hpasses.fair, ?_⟩
  intro report hreport
  obtain ⟨mid, hmid, hgrammar, hevents⟩ := q.exec_of_parse? hreport
  obtain ⟨htold, hadvances⟩ := hpasses.goes _ mid hmid
  have hclosed := Run.told_closed htold none report.ending
  rw [hgrammar, hevents, List.reverse_reverse, Run.size_closed, ← hstores]
  rw [log_closed] at hclosed
  exact ⟨hclosed, hadvances.size_le⟩

/-- After an attempt by itself, what lies in the stores is told by what happened. -/
theorem Grammar.Told.attempted {g : Grammar V α} {before : List (Event V α)} (h : g.Told before)
    {root : Recognizer V α} {limit : Nat} {input : Fragments} {values : List V}
    {window : ErrorWindow} {pos : Position} {report : Report V α}
    (hreport : g.exec? limit root input values window pos = some report) :
    report.grammar.Told (report.events.reverse ++ before) ∧
      g.stores.size ≤ report.grammar.stores.size := by
  obtain ⟨⟨ending, mid⟩, hmid, rfl⟩ := Option.map_eq_some_iff.1 hreport
  have hpasses := (recalling before).passes_exec limit ⟨{ root, input }, []⟩
    ⟨input, values, { errorWindow := window }, [root]⟩ root pos { grammar := g } h trivial trivial
  obtain ⟨htold, hadvances⟩ := hpasses.goes ending mid hmid
  rw [List.reverse_reverse]
  exact ⟨htold, hadvances.size_le⟩

/-! ## Togglings -/

namespace Toggle

/-- What every toggling does, whatever the state of the grammar. -/
structure Lawful (t : Toggle V α) : Prop where
  id_eq : t.result.handle.id = t.receiver.handle.id
  isCached_eq : t.result.isCached = t.on
  same : t.on = t.receiver.isCached → t.result = t.receiver
  /-- A handle that comes back changed is a new one. -/
  fresh : t.on ≠ t.receiver.isCached → ∀ top ∈ t.hand, ∀ r, top.Over r →
    t.result.sameNode r = false
  receiver_mem : t.receiver ∈ t.hand
  store?_eq : ∀ s, t.receiver.handle.caching.store? = some s →
    t.result.handle.caching.store? = some s

/-- The very handle comes back exactly if it is cached as it is asked to be. -/
theorem Lawful.sameNode_iff {t : Toggle V α} (h : t.Lawful) :
    t.result.sameNode t.receiver = true ↔ t.on = t.receiver.isCached := by
  constructor
  · intro hsame
    by_contra hne
    rw [h.fresh hne t.receiver h.receiver_mem t.receiver .refl] at hsame
    cases hsame
  · intro heq
    rw [h.same heq]
    exact beq_self_eq_true _

/-- Whether a toggling turns on a handle that has never had a store. -/
def Enables (t : Toggle V α) : Prop :=
  t.receiver.handle.caching.store? = none ∧ t.on = true

instance (t : Toggle V α) : Decidable t.Enables := inferInstanceAs (Decidable (_ ∧ _))

/-- Whether a toggling gives a store to a handle that has never had one. -/
def Opens (t : Toggle V α) (s : StoreId) : Prop :=
  t.receiver.handle.caching.store? = none ∧ t.result.handle.caching.store? = some s

theorem Lawful.exists_opens {t : Toggle V α} (h : t.Lawful) (henables : t.Enables) :
    ∃ s, t.Opens s := by
  have hcached : t.result.handle.caching.isActive = true := h.isCached_eq.trans henables.2
  cases hcaching : t.result.handle.caching with
  | active s => exact ⟨s, henables.1, by rw [hcaching]; rfl⟩
  | paused s =>
    rw [hcaching] at hcached
    cases hcached
  | never =>
    rw [hcaching] at hcached
    cases hcached

end Toggle

namespace Grammar

variable {g : Grammar V α} {hand : List (Recognizer V α)} {r : Recognizer V α}

/-- A change of the caching makes a handle with the next number, which keeps the store. -/
theorem withCaching_of_ne {on : Bool} (h : on ≠ r.isCached) : ∃ caching,
    (withCaching r on g).1 = r.withHandle { r.handle with node := g.nextNode, caching } ∧
      ∀ s, r.handle.caching.store? = some s → caching.store? = some s := by
  unfold withCaching
  rw [if_neg h]
  cases on with
  | true =>
    cases hstore : r.handle.caching.store? with
    | none => exact ⟨_, rfl, fun s hs => by cases hs⟩
    | some s => exact ⟨_, rfl, fun t ht => ht⟩
  | false =>
    cases hstore : r.handle.caching.store? with
    | none => exact ⟨_, rfl, fun s hs => by cases hs⟩
    | some s => exact ⟨_, rfl, fun t ht => ht⟩

/-- A toggling of a handle in hand is lawful. -/
theorem lawful_withCaching (hhand : ∀ x ∈ hand, x.Grounded g) (hr : r ∈ hand) (on : Bool) :
    Toggle.Lawful ⟨hand, r, on, (withCaching r on g).1⟩ := by
  have hid := withCaching_id g r on
  have hcached := withCaching_isCached g r on
  by_cases hon : on = r.isCached
  · have hsame : (withCaching r on g).1 = r := by rw [hon, withCaching_same]
    exact ⟨hid, hcached, fun _ => hsame, fun hne => absurd hon hne, hr, fun s hs => by
      rw [← hs, hsame]⟩
  · obtain ⟨caching, hresult, hstore⟩ := withCaching_of_ne (g := g) hon
    refine ⟨hid, hcached, fun heq => absurd heq hon, ?_, hr, ?_⟩
    · intro _ top htop x hover
      -- the numbers of all handles in hand are below the next one
      have hlt := (hhand top htop x hover).node_lt
      have hnode : (withCaching r on g).1.handle.node = g.nextNode := by
        rw [hresult, Recognizer.handle_withHandle]
      exact beq_eq_false_iff_ne.2 (by rw [hnode]; exact Nat.ne_of_gt hlt)
    · intro s hs
      show (withCaching r on g).1.handle.caching.store? = some s
      rw [hresult, Recognizer.handle_withHandle]
      exact hstore s hs

/-- A handle that has never had a store is given the next one. -/
theorem withCaching_opens {on : Bool} {s : StoreId}
    (h : Toggle.Opens ⟨hand, r, on, (withCaching r on g).1⟩ s) :
    s = g.stores.size ∧ (withCaching r on g).2.stores.size = g.stores.size + 1 := by
  obtain ⟨hnone, hsome⟩ := h
  have hnone : r.handle.caching.store? = none := hnone
  have hsome : (withCaching r on g).1.handle.caching.store? = some s := hsome
  by_cases hon : on = r.isCached
  · rw [hon, withCaching_same, hnone] at hsome
    cases hsome
  · unfold withCaching at hsome ⊢
    rw [if_neg hon, hnone] at hsome ⊢
    cases on with
    | true =>
      rw [Recognizer.handle_withHandle] at hsome
      cases hsome
      exact ⟨rfl, Array.size_push _⟩
    | false =>
      rw [Recognizer.handle_withHandle] at hsome
      cases hsome

end Grammar

/-! ## Histories -/

/-- Whether the togglings of the past are lawful, each has opened a store of its own, and what
lies in the stores is told by what happened. -/
structure Past.Sound (past : Past V α) (g : Grammar V α) : Prop where
  lawful : ∀ t ∈ past.toggles, t.Lawful
  opened : ∀ t ∈ past.toggles, ∀ s, t.Opens s → s < g.stores.size
  apart : past.toggles.Pairwise fun t t' => ∀ s, t.Opens s → ¬ t'.Opens s
  told : g.Told past.events

namespace Past.Sound

variable {past : Past V α} {g g' : Grammar V α} {hand : List (Recognizer V α)}
  {r : Recognizer V α}

/-- A step without a toggling, which may add stores. -/
theorem step (h : past.Sound g) (hsize : g.stores.size ≤ g'.stores.size)
    (htold : g'.Told past.events) : past.Sound g' :=
  ⟨h.lawful, fun t ht s hs => Nat.lt_of_lt_of_le (h.opened t ht s hs) hsize, h.apart, htold⟩

/-- Empty stores are added. -/
theorem enlarges (h : past.Sound g) (hgrow : g.Enlarges g') : past.Sound g' :=
  h.step hgrow.size_le (h.told.enlarges hgrow)

/-- A run adds to what happened. -/
theorem ran (h : past.Sound g) {report : Report V α}
    (htold : report.grammar.Told (report.events.reverse ++ past.events))
    (hsize : g.stores.size ≤ report.grammar.stores.size) : (past.ran report).Sound report.grammar :=
  ⟨h.lawful, fun t ht s hs => Nat.lt_of_lt_of_le (h.opened t ht s hs) hsize, h.apart, htold⟩

/-- A toggling is lawful, and opens a new store if it opens one. -/
theorem toggled (h : past.Sound g) (hhand : ∀ x ∈ hand, x.Grounded g) (hr : r ∈ hand) (on : Bool) :
    (past.toggled ⟨hand, r, on, (Grammar.withCaching r on g).1⟩).Sound
      (Grammar.withCaching r on g).2 := by
  have hgrow := (Grammar.Adds.withCaching (T := fun _ => True) on hr).enlarges g
  refine ⟨?_, ?_, ?_, h.told.enlarges hgrow⟩
  · exact List.forall_mem_cons.2 ⟨Grammar.lawful_withCaching hhand hr on, h.lawful⟩
  · refine List.forall_mem_cons.2 ⟨?_, fun t ht s hs =>
      Nat.lt_of_lt_of_le (h.opened t ht s hs) hgrow.size_le⟩
    intro s hs
    obtain ⟨rfl, hsize⟩ := Grammar.withCaching_opens hs
    rw [hsize]
    exact Nat.lt_succ_self _
  · refine List.pairwise_cons.2 ⟨?_, h.apart⟩
    intro t ht s hs hold
    obtain ⟨rfl, -⟩ := Grammar.withCaching_opens hs
    exact Nat.lt_irrefl _ (h.opened t ht _ hold)

end Past.Sound

/-- However a grammar has been used, its past is sound. -/
theorem Grammar.Underway.sound {past : Past V α} {scope : Grammar.Scope V α} {g : Grammar V α}
    {hand : List (Recognizer V α)} (h : Grammar.Underway past scope g hand) : past.Sound g := by
  induction h with
  | empty =>
    refine ⟨by simp, by simp, .nil, ?_⟩
    rintro s n o (⟨id, ho⟩ | ⟨key, ho⟩)
    · simp [Stores.pending] at ho
    · simp [Stores.committed] at ho
  | @build past scope g hand h e ih =>
    have huses : e.Uses fun _ => True := e.uses_of_forall fun _ => trivial
    exact ih.enlarges ((build_adds huses fun x hx => (h.tended.2 x hx).1).enlarges g)
  | begin _ _ ih => exact ih.enlarges (.of_eq rfl rfl)
  | conclude _ _ ih => exact ih.enlarges (.of_eq rfl rfl)
  | bind _ _ _ ih => exact ih.enlarges (.of_eq rfl rfl)
  | unbind _ _ ih => exact ih.enlarges (.of_eq rfl rfl)
  | find _ _ ih => exact ih
  | toggle h on hr ih => exact ih.toggled h.tended.1.hand_grounded hr on
  | @clear past scope g hand t _ _ ih =>
    obtain ⟨stores, heq, hsize, -⟩ := g.dropTraces_eq t
    refine ih.step ?_ (ih.told.cleared t)
    rw [heq]
    exact Nat.le_of_eq hsize.symm
  | @parse past scope g hand q limit report _ _ hreport ih =>
    obtain ⟨htold, hsize⟩ := (q.told ih.told limit).2 report hreport
    exact ih.ran htold hsize
  | exec _ _ hreport ih =>
    obtain ⟨htold, hsize⟩ := ih.told.attempted hreport
    exact ih.ran htold hsize

/-! ## Families -/

/-- Whether a handle comes from another one through some of the togglings. -/
def Past.Derives (past : Past V α) : Recognizer V α → Recognizer V α → Prop :=
  Relation.ReflTransGen fun r r' => ∃ t ∈ past.toggles, t.receiver = r ∧ t.result = r'

namespace Past.Sound

variable {past : Past V α} {g : Grammar V α} {r r' : Recognizer V α}

/-- All handles that come from one have its identity. -/
theorem id_eq (h : past.Sound g) (hderives : past.Derives r r') : r'.handle.id = r.handle.id := by
  induction hderives with
  | refl => rfl
  | tail _ hstep ih =>
    obtain ⟨t, ht, rfl, rfl⟩ := hstep
    exact (h.lawful t ht).id_eq.trans ih

/-- All handles that come from one with a store have that store. -/
theorem store?_eq (h : past.Sound g) (hderives : past.Derives r r') {s : StoreId}
    (hs : r.handle.caching.store? = some s) : r'.handle.caching.store? = some s := by
  induction hderives with
  | refl => exact hs
  | tail _ hstep ih =>
    obtain ⟨t, ht, rfl, rfl⟩ := hstep
    exact (h.lawful t ht).store?_eq s ih

end Past.Sound

namespace Grammar

variable {g : Grammar V α} {a b : Recognizer V α} {s s' : StoreId}

/-- Handles with one store hold the same outcomes. -/
theorem heldOutcomes_eq_of_store? (h : a.handle.caching.store? = b.handle.caching.store?) :
    g.heldOutcomes a = g.heldOutcomes b := by
  unfold heldOutcomes store
  rw [h]

/-- Clearing one of two handles with one store leaves the other one nothing. -/
theorem heldOutcomes_dropTraces (ha : a.handle.caching.store? = some s)
    (hb : b.handle.caching.store? = some s) : (g.dropTraces a).heldOutcomes b = 0 := by
  unfold heldOutcomes store dropTraces
  rw [ha, hb, Option.bind_some]
  show ((Array.modify g.stores s Store.clear)[s]?.map Store.size).getD 0 = 0
  rw [Array.getElem?_modify, if_pos rfl]
  cases g.stores[s]? <;> rfl

/-- Clearing a handle leaves those with other stores what they have. -/
theorem store_dropTraces (ha : a.handle.caching.store? = some s)
    (hb : b.handle.caching.store? = some s') (hne : s' ≠ s) :
    (g.dropTraces b).store a = g.store a := by
  unfold store dropTraces
  rw [ha, hb]
  exact (Array.getElem?_modify).trans (if_neg hne)

/-- The outcome that a call through a handle would replay at an ordinal of a trace. -/
def entry? (g : Grammar V α) (r : Recognizer V α) (key : TraceKey) (n : Nat) :
    Option (Outcome V α) :=
  (g.store r).bind fun store => store.replay? key n

/-- The states of a grammar and of the parses that may be started from it, with what has
happened by then. -/
inductive Stage (past : Past V α) (g : Grammar V α) : Grammar V α → List (Event V α) → Prop where
  | now : Stage past g g past.events
  | during {q : Query V α} {limit : Nat} {snap : Snapshot V α} (h : snap ∈ q.snapshots g limit) :
      Stage past g snap.run.grammar (snap.run.log ++ past.events)

end Grammar

/-- Whether handles that come from one recognizer do not see what those that come from another
one have recorded: what a call through one of them would replay has been the outcome of a call
through a handle that is none of the others, and clearing the others takes nothing away. -/
structure Past.Apart (past : Past V α) (g : Grammar V α) (events : List (Event V α))
    (top top' : Recognizer V α) : Prop where
  entries : ∀ a, past.Derives top a → ∀ key n o, g.entry? a key n = some o →
    ∃ handle pos, .replied handle pos (some (n + 1)) (.ok o) ∈ events ∧
      ∀ b, past.Derives top' b → b.handle ≠ handle
  cleared : ∀ a b, past.Derives top a → past.Derives top' b → (g.dropTraces b).store a = g.store a

/-- Families with different stores are apart. -/
theorem Past.Sound.families_apart {past : Past V α} {g g' : Grammar V α}
    {events : List (Event V α)} {top top' : Recognizer V α} {s s' : StoreId} (h : past.Sound g)
    (htold : g'.Told events) (htop : top.handle.caching.store? = some s)
    (htop' : top'.handle.caching.store? = some s') (hne : s ≠ s') :
    past.Apart g' events top top' := by
  constructor
  · intro a ha key n o ho
    have hstore := h.store?_eq ha htop
    have hcommitted : g'.stores.committed s key n = some o := by
      unfold Grammar.entry? Grammar.store at ho
      rw [hstore, Option.bind_some] at ho
      exact ho
    obtain ⟨handle, pos, hevent, hactive⟩ := htold s n o (.inr ⟨key, hcommitted⟩)
    refine ⟨handle, pos, hevent, ?_⟩
    rintro b hb rfl
    have hstore' := h.store?_eq hb htop'
    rw [hactive] at hstore'
    exact hne (Option.some.inj hstore')
  · intro a b ha hb
    exact Grammar.store_dropTraces (h.store?_eq ha htop) (h.store?_eq hb htop') hne.symm

namespace Grammar

/-- Toggling makes consistent families, whatever else is done with a grammar in between.  Every
toggling gives back the very handle or a new one, as it should.  All handles that come from one
have one identity, and if that one has a store, they always hold the same outcomes and are
emptied together.  Handles that come from two that were turned on separately, without a store
before, never see each other's outcomes, not even within a run. -/
theorem Underway.families {past : Past V α} {scope : Scope V α} {g : Grammar V α}
    {hand : List (Recognizer V α)} (h : Underway past scope g hand) :
    (∀ t ∈ past.toggles, t.Lawful ∧
      (t.result.sameNode t.receiver = true ↔ t.on = t.receiver.isCached)) ∧
    (∀ r a b, past.Derives r a → past.Derives r b → a.handle.id = b.handle.id ∧
      (r.handle.caching.store? ≠ none → ∀ g' : Grammar V α,
        g'.heldOutcomes a = g'.heldOutcomes b ∧ (g'.dropTraces a).heldOutcomes b = 0)) ∧
    past.toggles.Pairwise fun t t' => t.Enables → t'.Enables →
      ∀ g' events, Stage past g g' events →
        past.Apart g' events t.result t'.result ∧ past.Apart g' events t'.result t.result := by
  have hsound := h.sound
  refine ⟨fun t ht => ⟨hsound.lawful t ht, (hsound.lawful t ht).sameNode_iff⟩, ?_, ?_⟩
  · intro r a b ha hb
    refine ⟨(hsound.id_eq ha).trans (hsound.id_eq hb).symm, ?_⟩
    intro hstore g'
    obtain ⟨s, hs⟩ := Option.ne_none_iff_exists'.1 hstore
    have hsa := hsound.store?_eq ha hs
    have hsb := hsound.store?_eq hb hs
    exact ⟨heldOutcomes_eq_of_store? (hsa.trans hsb.symm), heldOutcomes_dropTraces hsa hsb⟩
  · refine hsound.apart.imp_of_mem ?_
    intro t t' ht ht' happart henables henables' g' events hstage
    obtain ⟨s, hs⟩ := (hsound.lawful t ht).exists_opens henables
    obtain ⟨s', hs'⟩ := (hsound.lawful t' ht').exists_opens henables'
    have hne : s ≠ s' := by
      rintro rfl
      exact happart s hs hs'
    have htold : g'.Told events := by
      cases hstage with
      | now => exact hsound.told
      | during hsnap => exact (Query.told hsound.told _).1 _ hsnap
    exact ⟨hsound.families_apart htold hs.2 hs'.2 hne,
      hsound.families_apart htold hs'.2 hs.2 hne.symm⟩

/-! ## An example -/

/-- A letter. -/
def letter : Recognizer Nat Nat × Grammar Nat Nat := build [] (.literal ['a']) {}

/-- The letter with a cache. -/
def letterOn : Recognizer Nat Nat × Grammar Nat Nat := withCaching letter.1 true letter.2

/-- The letter with a cache, once more. -/
def letterOnAgain : Recognizer Nat Nat × Grammar Nat Nat := withCaching letter.1 true letterOn.2

/-- The letter with the first cache turned off. -/
def letterOff : Recognizer Nat Nat × Grammar Nat Nat :=
  withCaching letterOn.1 false letterOnAgain.2

/-- The three togglings. -/
def letterPast : Past Nat Nat where
  toggles := [⟨[letterOnAgain.1, letterOn.1, letter.1], letterOn.1, false, letterOff.1⟩,
    ⟨[letterOn.1, letter.1], letter.1, true, letterOnAgain.1⟩,
    ⟨[letter.1], letter.1, true, letterOn.1⟩]

/-- The letter alone, through its first cache. -/
def letterCached : Query Nat Nat := ⟨letterOn.1, ⟨[['a']]⟩, [], .standard⟩

theorem letterPast_underway : Underway letterPast [] letterOff.2
    [letterOff.1, letterOnAgain.1, letterOn.1, letter.1] :=
  (((Underway.empty.build _).toggle true List.mem_cons_self).toggle true
    (List.mem_cons_of_mem _ List.mem_cons_self)).toggle false
      (List.mem_cons_of_mem _ List.mem_cons_self)

/-- What is recorded through the first cache is there for the handle that has been turned off,
and is dropped with it.  The second cache has none of it. -/
theorem letter_families : ∃ report, letterCached.parse? letterOff.2 5 = some report ∧
    report.grammar.heldOutcomes letterOff.1 = 1 ∧
    report.grammar.heldOutcomes letterOnAgain.1 = 0 ∧
    (report.grammar.dropTraces letterOff.1).heldOutcomes letterOn.1 = 0 ∧
    (letterPast.ran report).Apart report.grammar (letterPast.ran report).events
      letterOnAgain.1 letterOn.1 := by
  have hruns : (letterCached.parse? letterOff.2 5).any (fun report =>
      report.grammar.heldOutcomes letterOff.1 = 1 ∧
      report.grammar.heldOutcomes letterOnAgain.1 = 0) = true := by decide +kernel
  obtain ⟨report, hreport, hruns⟩ := (Option.any_eq_true _ _).1 hruns
  obtain ⟨hoff, hagain⟩ := of_decide_eq_true hruns
  have hroot : letterCached.root ∈ [letterOff.1, letterOnAgain.1, letterOn.1, letter.1] := by
    simp [letterCached]
  have hfamilies := (letterPast_underway.parse hroot hreport).families
  have hderives : (letterPast.ran report).Derives letterOn.1 letterOff.1 :=
    .single ⟨_, List.mem_cons_self, rfl, rfl⟩
  have hshared := (hfamilies.2.1 _ _ _ hderives .refl).2 (by decide) report.grammar
  have hpairs := (List.pairwise_cons.1 hfamilies.2.2).2
  have hapart := (List.pairwise_cons.1 hpairs).1 _ List.mem_cons_self (by decide) (by decide) _ _
    .now
  exact ⟨report, hreport, hoff, hagain, hshared.2, hapart.1⟩

end Grammar

end SlotGrammar
