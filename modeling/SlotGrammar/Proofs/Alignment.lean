import SlotGrammar.Proofs.FrozenHistory

/-!
# Alignment of ordinals

Two parses of one root and input with caching attempt the same recognizers outside every
cached one, at the same positions and with the ordinal at the same count, whatever was
recorded before and whatever the values are.  A cached call that does not raise moves the
ordinal by one, however many calls it makes.

Main results:

- Theorem `exec_of_cached`: a cached call that does not raise moves the ordinal by one.
- Theorem `Recorded.exists_of_leads`: what lies in the stores was computed with the
  values of some parse.
- Theorem `Recorded.course_of_outermost`: the attempts outside every cached recognizer are
  those of a course in any setting.
-/

namespace SlotGrammar

variable {V α : Type}

/-! ## Ordinals do not go back -/

/-- Whether an action leaves the session where it is or moves its ordinal on. -/
def Act.Climbs {β : Type} (act : Act V α β) : Prop :=
  ∀ run x, act run = some x → ∀ n, run.ordinal? = some n → ∃ m, x.2.ordinal? = some m ∧ n ≤ m

namespace Act.Climbs

variable {β γ : Type} {act : Act V α β}

/-- An action that leaves the session alone climbs. -/
theorem of_kept (h : ∀ run x, act run = some x → x.2.session = run.session) : act.Climbs := by
  intro run x hx n hn
  refine ⟨n, ?_, Nat.le_refl n⟩
  unfold Run.ordinal? at hn ⊢
  rw [h run x hx, hn]

/-- An action in two parts climbs when both parts do. -/
theorem bind {next : β → Act V α γ} (h : act.Climbs) (hnext : ∀ b, (next b).Climbs) :
    (act >>= next).Climbs := by
  intro run x hx n hn
  rw [bind_apply] at hx
  obtain ⟨⟨ending, mid⟩, hmid, hx⟩ := Option.bind_eq_some_iff.1 hx
  obtain ⟨k, hk, hnk⟩ := h run _ hmid n hn
  cases ending with
  | error e =>
    cases hx
    exact ⟨k, hk, hnk⟩
  | ok b =>
    obtain ⟨m, hm, hkm⟩ := hnext b mid x hx k hk
    exact ⟨m, hm, Nat.le_trans hnk hkm⟩

/-- To look at an error changes no ordinal. -/
theorem attempt (h : act.Climbs) : act.attempt.Climbs := by
  intro run x hx
  rw [attempt_apply] at hx
  obtain ⟨y, hy, rfl⟩ := Option.map_eq_some_iff.1 hx
  exact h run y hy

/-- A parse inside a run moves no counter outside. -/
theorem inSession (ctx : Context V α) (root : Recognizer V α) (act : Act V α (Outcome V α)) :
    (Act.inSession ctx root act).Climbs := by
  refine of_kept ?_
  intro run x hx
  rw [inSession_eq] at hx
  obtain ⟨y, -, rfl⟩ := Option.map_eq_some_iff.1 hx
  show (y.2.closed run.session y.1).session = run.session
  unfold Run.closed
  cases y.2.session <;> rfl

theorem pure (b : β) : (Pure.pure b : Act V α β).Climbs :=
  of_kept fun _ _ hx => by cases hx; rfl

theorem endAs (ending : Except ParseError β) : (Act.endAs ending : Act V α β).Climbs :=
  of_kept fun _ _ hx => by rw [endAs_apply] at hx; cases hx; rfl

theorem exhausted : (Act.exhausted : Act V α β).Climbs :=
  of_kept fun _ _ hx => by cases hx

theorem get : (Act.get : Act V α _).Climbs :=
  of_kept fun _ _ hx => by cases hx; rfl

theorem note (event : Event V α) : (Act.note event).Climbs :=
  of_kept fun _ _ hx => by cases hx; rfl

theorem onGrammar (step : GrammarM V α β) : (Act.onGrammar step).Climbs :=
  of_kept fun _ _ hx => by cases hx; rfl

/-- Following a link leaves the session alone. -/
theorem follow (ctx : Context V α) (l : Link) : (Act.follow ctx l).Climbs := by
  cases l with
  | definition cell => exact get.bind fun _ => pure _
  | self cell => exact get.bind fun _ => pure _
  | unbound => exact pure _
  | deferred cell =>
    refine bind ?_ fun _ => pure _
    refine get.bind fun run => ?_
    split
    · exact pure _
    · exact pure _
    · exact (note _).bind fun _ => (onGrammar _).bind fun _ => (onGrammar _).bind fun _ => pure _

/-- A probed attempt climbs when the attempt does. -/
theorem probed {label : String} {part : Part V α} {pos : Position} (h : (part pos).Climbs) :
    (Part.probed label part pos).Climbs := by
  intro run x hx
  rw [Part.probed_eq] at hx
  obtain ⟨y, hy, rfl⟩ := Option.map_eq_some_iff.1 hx
  exact h run y hy

/-- A script climbs when all attempts do. -/
theorem play {attempt : Attempt V α} (h : ∀ ctx r pos, (attempt ctx r pos).Climbs)
    (ctx : Context V α) (script : Script V α) : (script.play attempt ctx).Climbs := by
  induction script with
  | ended ending => exact endAs ending
  | exhausted => exact exhausted
  | call p pos next ih => exact (h ctx p pos).attempt.bind ih
  | nest input p next ih => exact (inSession _ p _).attempt.bind ih
  | clear t next ih => exact (onGrammar _).bind fun _ => ih
  | note event next ih => exact (note event).bind fun _ => ih
  | probe label p pos => exact probed (h ctx p pos)

/-- A recognizer's own logic climbs when all attempts do. -/
theorem work {attempt : Attempt V α} (h : ∀ ctx r pos, (attempt ctx r pos).Climbs) (limit : Nat)
    (ctx : Context V α) (r : Recognizer V α) (pos : Position) :
    (r.work attempt limit ctx pos).Climbs := by
  cases r with
  | node handle shape =>
    show (shape.attempt attempt limit ctx pos).Climbs
    rw [← Script.play_script]
    exact play h ctx _
  | link handle l =>
    refine (follow ctx l).bind fun found => ?_
    cases found with
    | none => exact endAs (.error .unresolved)
    | some x => exact h x.1 x.2 pos

end Act.Climbs

/-- A call that raises an error leaves the counter where its parts brought it. -/
theorem Act.ordinal_built_error {run : Run V α} {ses : Session} (hses : run.session = some ses)
    (s : StoreId) (k : Nat) (e : ParseError) :
    (Act.built s k (.error e) run).ordinal? = some ses.ordinal := by
  simp [built, hses, Run.ordinal?, Run.withSession]

/-- A call that has come to an outcome takes the ordinals below it back. -/
theorem Act.ordinal_built_ok {run : Run V α} {ses : Session} (hses : run.session = some ses)
    {k : Nat} (hle : k + 1 ≤ ses.ordinal) (s : StoreId) (o : Outcome V α) :
    (Act.built s k (.ok o) run).ordinal? = some (k + 1) := by
  simp [built, hses, Run.ordinal?, Run.withSession, hle]

/-- A call through a store moves the ordinal by one when it comes to an outcome, and on
by one or more when it raises, if what it does itself never moves it back. -/
theorem Act.throughStore_ordinal {s : StoreId} {act : Act V α (Outcome V α)} (hact : act.Climbs)
    {run run' : Run V α} {ending : Ending V α}
    (h : Act.throughStore s act run = some (ending, run')) {n : Nat} (hn : run.ordinal? = some n) :
    ∃ m, run'.ordinal? = some m ∧ n + 1 ≤ m ∧ ∀ o, ending = .ok o → m = n + 1 := by
  obtain ⟨ses, hses, rfl⟩ := Option.map_eq_some_iff.1 hn
  cases hreplay : Act.replay? run s ses with
  | some o =>
    rw [Act.throughStore_of_replay hses hreplay] at h
    cases h
    refine ⟨ses.ordinal + 1, ?_, Nat.le_refl _, fun _ _ => rfl⟩
    simp [Run.ordinal?, Run.withSession]
  | none =>
    rw [Act.throughStore_of_build hses hreplay] at h
    obtain ⟨⟨e, mid⟩, hmid, hx⟩ := Option.map_eq_some_iff.1 h
    cases hx
    obtain ⟨m, hm, hle⟩ := hact _ _ hmid (ses.ordinal + 1) (by simp [Run.ordinal?, Run.withSession])
    obtain ⟨inner, hinner, rfl⟩ := Option.map_eq_some_iff.1 hm
    cases e with
    | error e =>
      exact ⟨inner.ordinal, Act.ordinal_built_error hinner s _ e, hle, fun o ho => by cases ho⟩
    | ok o =>
      exact ⟨ses.ordinal + 1, Act.ordinal_built_ok hinner hle s o, Nat.le_refl _, fun _ _ => rfl⟩

/-- No attempt moves the ordinal back. -/
theorem exec_climbs (limit : Nat) (ctx : Context V α) (r : Recognizer V α) (pos : Position) :
    (exec limit ctx r pos).Climbs := by
  induction limit generalizing ctx r pos with
  | zero => exact .exhausted
  | succ limit ih =>
    have hwork : (do Act.note (.worked r.handle pos); r.work (exec limit) limit ctx pos).Climbs :=
      (Act.Climbs.note _).bind fun _ => .work ih limit ctx r pos
    intro run x hx n hn
    rw [exec_succ, Recognizer.attempt_eq] at hx
    obtain ⟨⟨ending, mid⟩, hmid, rfl⟩ := Option.map_eq_some_iff.1 hx
    have hn : (run.noted (.called r.handle pos run.ordinal?)).ordinal? = some n := hn
    cases hcaching : r.handle.caching with
    | active s =>
      rw [hcaching] at hmid
      obtain ⟨m, hm, hle, -⟩ := Act.throughStore_ordinal hwork hmid hn
      exact ⟨m, hm, by omega⟩
    | never =>
      rw [hcaching] at hmid
      exact hwork _ _ hmid n hn
    | paused s =>
      rw [hcaching] at hmid
      exact hwork _ _ hmid n hn

/-- A cached call that does not raise moves the ordinal by one. -/
theorem exec_of_cached {limit : Nat} {ctx : Context V α} {r : Recognizer V α} {pos : Position}
    (hcached : r.isCached = true) {run run' : Run V α} {o : Outcome V α}
    (h : exec limit ctx r pos run = some (.ok o, run')) {n : Nat} (hn : run.ordinal? = some n) :
    run'.ordinal? = some (n + 1) := by
  cases limit with
  | zero => cases h
  | succ limit =>
    have hwork : (do Act.note (.worked r.handle pos); r.work (exec limit) limit ctx pos).Climbs :=
      (Act.Climbs.note _).bind fun _ => .work (exec_climbs limit) limit ctx r pos
    rw [exec_succ, Recognizer.attempt_eq] at h
    obtain ⟨⟨ending, mid⟩, hmid, hx⟩ := Option.map_eq_some_iff.1 h
    cases hx
    rcases r.handle.caching.active_or_inactive with ⟨s, hon⟩ | hoff
    · rw [hon] at hmid
      have hn : (run.noted (.called r.handle pos run.ordinal?)).ordinal? = some n := hn
      obtain ⟨m, hm, -, hone⟩ := Act.throughStore_ordinal hwork hmid hn
      rw [hone o rfl] at hm
      exact hm
    · rw [Recognizer.isCached, hoff] at hcached
      cases hcached

/-! ## Histories with handles of one mode -/

/-- The slots of a call through a store are slots of that store. -/
theorem Course.store_of_settled {handle : Handle} {s t : StoreId} {pos : Position} {w : Course V α}
    {o : Outcome V α} (hon : handle.caching = .active t)
    (hslot : Slot.settled s o ∈ (w.around handle pos).tape) : s = t := by
  rw [tape_around_of_active hon, slotsThrough] at hslot
  cases hending : w.ending with
  | error e => simp [hending] at hslot
  | ok outcome =>
    rw [hending] at hslot
    cases List.mem_singleton.1 hslot
    rfl

section Parses

variable {bodies : Bodies V α} {base g : Grammar V α} {P roots : Recognizer V α → Prop}
  {F : FrozenValues V} {q : Query V α}

/-- After a parse the stores hold what was computed with the values of some parse, if all
handles on its root have a cache or none has. -/
theorem Recorded.exists_of_parse (hrealm : Realm bodies base P)
    (horderly : ∀ handle shape, P (.node handle shape) → shape.Orderly)
    (hroots : ∀ r, roots r → P r) (h : Recorded base roots F g) (hroot : roots q.root)
    (hmodes : ∀ r, roots r → q.root.handle.id = r.handle.id → q.root.isCached = r.isCached)
    {limit : Nat} {report : Report V α} (hreport : q.parse? g limit = some report) :
    ∃ F', Recorded base roots F' report.grammar := by
  classical
  obtain ⟨m, c, hc, hparse, -⟩ := h.course_of_parse? hrealm horderly hroots hroot hreport
  obtain ⟨report', hreport', -, -, hafter⟩ := h.parse?_of_course hrealm horderly hroots hroot hc
  rw [hparse] at hreport'
  cases hreport'
  refine ⟨_, hafter (fun s => decide (∃ o, Slot.settled s o ∈ c.tape)) ?_ ?_⟩
  · intro s huntouched n o hslot
    exact of_decide_eq_false huntouched ⟨o, List.mem_of_getElem? hslot⟩
  · intro r hr hid
    have hmode := hmodes r hr hid
    refine ⟨hmode, fun s htouched hs => ?_⟩
    obtain ⟨o, ho⟩ := of_decide_eq_true htouched
    rcases q.root.handle.caching.active_or_inactive with ⟨t, hon⟩ | hoff
    · cases m with
      | zero => cases hc
      | succ m =>
        obtain ⟨w, -, rfl⟩ := course_succ_eq_some.1 hc
        rw [hon, Course.store_of_settled hon ho]
    · rw [Recognizer.isCached, hoff, Recognizer.isCached, hs] at hmode
      cases hmode

/-- After a history the stores hold what was computed with the values of some parses. -/
theorem Recorded.exists_of_leads (hrealm : Realm bodies base P)
    (horderly : ∀ handle shape, P (.node handle shape) → shape.Orderly)
    (hroots : ∀ r, roots r → P r)
    (hmodes : ∀ r r', roots r → roots r' → r.handle.id = r'.handle.id → r.isCached = r'.isCached)
    {steps : List (Step V α)} (hleads : base.Leads steps g)
    (hasked : ∀ p ∈ asked steps, roots p.root) : ∃ F, Recorded base roots F g := by
  induction hleads with
  | refl => exact ⟨_, recorded_of_blank hrealm.formed.blank roots⟩
  | @step steps step _ _ _ hstep ih =>
    obtain ⟨F, hold⟩ := ih fun p hp => hasked p (by simp [hp])
    cases step with
    | clear t =>
      cases hstep
      exact ⟨_, hold.cleared t⟩
    | parse p ending =>
      obtain ⟨limit, report, hreport, -, rfl⟩ := hstep
      have hp : roots p.root := hasked p (by simp [asked, Step.query?])
      exact hold.exists_of_parse hrealm horderly hroots hp
        (fun r hr hid => hmodes _ r hp hr hid) hreport

end Parses

/-! ## Aligned parses -/

/-- Marks that are alike tell of the same moments. -/
theorem momentsOf_eq {sure : StoreId → Prop} {marks marks' : List (Mark V α)}
    (h : List.Forall₂ (Mark.Alike sure) marks marks') (ordinal : Option Nat) :
    momentsOf ordinal marks = momentsOf ordinal marks' := by
  induction h generalizing ordinal with
  | nil => rfl
  | cons hmark _ ih =>
    cases hmark with
    | entered handle pos => rw [momentsOf, momentsOf, ih]
    | left handle pos hslots => rw [momentsOf, momentsOf, hslots.length_eq, ih]

/-- The log of a whole run tells of the moments of its marks. -/
theorem Event.Tells.outermost_eq {events : List (Event V α)} {ordinal : Option Nat}
    {marks : List (Mark V α)} (h : Event.Tells events ordinal marks) :
    Event.outermost 0 events = momentsOf ordinal marks := by
  have houter := h.outer []
  rw [List.append_nil] at houter
  rw [houter]
  exact List.append_nil _

section Parses

variable {bodies : Bodies V α} {base g : Grammar V α} {P roots : Recognizer V α → Prop}
  {F : FrozenValues V} {q : Query V α}

/-- A parse with caching ends where a course in any setting does, and its moments are those of
the course. -/
theorem Recorded.outermost_of_course (hrealm : Realm bodies base P)
    (horderly : ∀ handle shape, P (.node handle shape) → shape.Orderly)
    (hroots : ∀ r, roots r → P r) (h : Recorded base roots F g) (hroot : roots q.root)
    (hcache : q.options.cache = true) {st : Setting V} (hinput : st.input = q.input) {limit : Nat}
    {c : Course V α} (hc : course base.target limit st q.root .start = some c) :
    ∃ report, q.parse? g limit = some report ∧
      Event.outermost 0 report.events = momentsOf (some 0) c.track := by
  have hnone : Closed base.target fun _ : Recognizer V α => False :=
    ⟨fun h _ => h, fun h _ => h⟩
  have hunder : st.input = (q.under F).input := hinput
  obtain ⟨c', hc', halike⟩ := course_alike hrealm.closed hrealm.steady hnone
    (fun _ _ h => h.elim) (Nat.le_refl limit) hunder (fun h : False => h.elim) (hroots _ hroot) hc
  obtain ⟨report, hreport, -, htells, -⟩ := h.parse?_of_course hrealm horderly hroots hroot hc'
  refine ⟨report, hreport, ?_⟩
  rw [(htells hcache).outermost_eq, momentsOf_eq halike.track]

/-- So do its moments in every setting when it ends. -/
theorem Recorded.course_of_outermost (hrealm : Realm bodies base P)
    (horderly : ∀ handle shape, P (.node handle shape) → shape.Orderly)
    (hroots : ∀ r, roots r → P r) (h : Recorded base roots F g) (hroot : roots q.root)
    (hcache : q.options.cache = true) (st : Setting V) (hinput : st.input = q.input) {limit : Nat}
    {report : Report V α} (hreport : q.parse? g limit = some report) :
    ∃ n c, course base.target n st q.root .start = some c ∧
      Event.outermost 0 report.events = momentsOf (some 0) c.track := by
  obtain ⟨n, c, hc, -⟩ := h.course_of_parse? hrealm horderly hroots hroot hreport
  have hnone : Closed base.target fun _ : Recognizer V α => False :=
    ⟨fun h _ => h, fun h _ => h⟩
  have hunder : (q.under F).input = st.input := hinput.symm
  obtain ⟨c', hc', -⟩ := course_alike hrealm.closed hrealm.steady hnone (fun _ _ h => h.elim)
    (Nat.le_refl n) hunder (fun h : False => h.elim) (hroots _ hroot) hc
  obtain ⟨report', hreport', htold⟩ :=
    h.outermost_of_course hrealm horderly hroots hroot hcache hinput hc'
  rw [Query.parse?_unique hreport hreport']
  exact ⟨n, c', hc', htold⟩

end Parses

namespace Grammar

/-- After a history with handles of one mode the stores hold what was computed with the
values of some parses. -/
theorem Leads.exists_recorded {bodies : Bodies V α} {g g' : Grammar V α} {steps : List (Step V α)}
    (hleads : g.Leads steps g') {q : Query V α} {roots : Recognizer V α → Prop}
    (hrealm : Realm bodies g (g.Reachable roots)) (horderly : g.OrderlyFrom roots)
    (hasked : ∀ p ∈ q :: asked steps, roots p.root)
    (hmodes : ∀ p ∈ q :: asked steps, ∀ p' ∈ q :: asked steps,
      p.root.handle.id = p'.root.handle.id → p.root.isCached = p'.root.isCached) :
    (∀ r, IsRootOf (q :: asked steps) r → g.Reachable roots r) ∧
      ∃ F, Recorded g (IsRootOf (q :: asked steps)) F g' := by
  have hreached := reachable_of_isRootOf (g := g) hasked
  exact ⟨hreached, Recorded.exists_of_leads hrealm horderly hreached (forall_isRootOf hmodes) hleads
    fun p hp => ⟨p, List.mem_cons_of_mem _ hp, rfl⟩⟩

end Grammar

end SlotGrammar
