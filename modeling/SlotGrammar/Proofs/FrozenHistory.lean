import SlotGrammar.Proofs.Freezing

/-!
# Histories and frozen values

What a parse replays was computed with the values of an earlier parse: of the first one
with the same root and input that matched with caching since the store was cleared.  So
after a history a parse ends as the plain run in which the outermost cached calls see
these values.  Whether and where it matches, and with which error it fails, no value has
a part in.

Main results:

- Theorem `frozenBy_append`: what one more step does to the frozen values.
- Theorem `Recorded.of_leads`: the stores hold what was computed with frozen values.
- Theorem `Recorded.course_of_parse?`: a parse follows the course with the frozen values.
-/

namespace SlotGrammar

variable {V α : Type}

/-! ## The first values since a store was cleared -/

/-- Whether a step clears a store. -/
def Step.clears (s : StoreId) : Step V α → Bool
  | parse _ _ => false
  | clear t => decide (t.handle.caching.store? = some s)

/-- The values of a step that is a matching parse with caching for a trace. -/
def Step.recorded? (key : TraceKey) : Step V α → Option (List V)
  | parse q ending =>
    if q.options.cache = true ∧ ending.isMatch = true ∧ q.key = key then some q.values else none
  | clear _ => none

/-- The steps after a store was cleared last. -/
def sinceCleared (s : StoreId) (steps : List (Step V α)) : List (Step V α) :=
  (steps.reverse.takeWhile fun step => !step.clears s).reverse

/-- The values of the first matching parse with caching for a trace since a store was
cleared last. -/
def frozenBy (steps : List (Step V α)) : FrozenValues V := fun s key =>
  (sinceCleared s steps).findSome? (Step.recorded? key)

/-- The frozen values after one more step. -/
def Step.freezes (F : FrozenValues V) : Step V α → FrozenValues V
  | parse q ending => q.frozenAfter (fun _ => true) ending F
  | clear t => fun s key => if t.handle.caching.store? = some s then none else F s key

theorem sinceCleared_append (s : StoreId) (steps : List (Step V α)) (step : Step V α) :
    sinceCleared s (steps ++ [step]) =
      if step.clears s = true then [] else sinceCleared s steps ++ [step] := by
  unfold sinceCleared
  rw [List.reverse_append, List.reverse_singleton, List.singleton_append, List.takeWhile_cons]
  cases step.clears s <;> simp

/-- What one more step does to the frozen values. -/
theorem frozenBy_append (steps : List (Step V α)) (step : Step V α) :
    frozenBy (steps ++ [step]) = step.freezes (frozenBy steps) := by
  funext s key
  unfold frozenBy
  rw [sinceCleared_append]
  cases step with
  | clear t =>
    by_cases hstore : t.handle.caching.store? = some s
    · simp [Step.clears, Step.freezes, hstore]
    · simp [Step.clears, Step.freezes, hstore, Step.recorded?]
  | parse q ending =>
    have hkept : (Step.parse q ending).clears s = false := rfl
    rw [hkept, if_neg Bool.false_ne_true, List.findSome?_append, Step.freezes, Query.frozenAfter]
    cases hcache : q.options.cache <;> cases hmatch : ending.isMatch
    all_goals simp only [Bool.false_and, Bool.and_false, Bool.and_self, Bool.false_eq_true,
      if_false, if_true]
    · simp [Step.recorded?, hcache]
    · simp [Step.recorded?, hcache]
    · simp [Step.recorded?, hmatch]
    · by_cases hkey : q.key = key
      · subst hkey
        simp only [Query.freeze, and_self, if_true, Step.recorded?, List.findSome?_cons, hcache,
          hmatch]
        cases (sinceCleared s steps).findSome? (Step.recorded? q.key) <;> rfl
      · simp [Step.recorded?, Query.freeze, hkey, Ne.symm hkey]

/-! ## Runs with frozen values -/

/-- Asks a grammar, all caches ignored, with frozen values for the outermost calls through
the stores. -/
def Query.frozen? (q : Query V α) (F : FrozenValues V) (g : Grammar V α) (limit : Nat) :
    Option (Report V α) :=
  g.parseFrozen? (q.under F).frozen limit q.root q.input q.values q.options

section Parses

variable {bodies : Bodies V α} {base g : Grammar V α} {P roots : Recognizer V α → Prop}
  {F : FrozenValues V} {q : Query V α}

/-- A run with frozen values ends when there is a course, and as the course does. -/
theorem Query.frozen?_ending (hrealm : Realm bodies base P)
    (horderly : ∀ handle shape, P (.node handle shape) → shape.Orderly) (hlater : base.Later g)
    (hroot : P q.root) (F : FrozenValues V) (limit : Nat) :
    (q.frozen? F g limit).map Report.ending =
      (course base.target limit (q.under F) q.root .start).map Course.ending := by
  have hheld : ∀ h ∈ q.context.held, base.Keeps h := by
    intro h hh
    rw [List.mem_singleton.1 hh]
    exact (hrealm.sound q.root hroot).2
  have hmirrors : Mirrors base (execFrozen (q.under F).frozen limit q.context q.root .start)
      (course base.target limit (q.under F) q.root .start) :=
    execFrozen_mirrors hrealm (fun _ _ _ hnested => horderly _ _ hnested) limit rfl hheld hroot
  refine Eq.trans ?_ (hmirrors.inSession q.context q.root { grammar := g } hlater).1
  unfold frozen? Grammar.parseFrozen? Act.report?
  rw [Option.map_map]
  rfl

/-- A parse has a course with frozen values that is known from the parse that froze them, or
it replays nothing. -/
theorem Recorded.course_or_quiet (h : Recorded base roots F g) (hroot : roots q.root) :
    (q.options.cache = true ∧ ∃ m c, course base.target m (q.under F) q.root .start = some c) ∨
      q.under F = q.setting ∧
        Quiet (· = g.stores.committed) (Run.opened q.context q.root { grammar := g }).session := by
  by_cases hfrozen : q.options.cache = true ∧ ∃ s values, F s q.key = some values
  · obtain ⟨hcache, s, values, hF⟩ := hfrozen
    have hvalues : (q.under F).frozen s = values := by
      rw [Query.under_frozen hcache, hF]
      rfl
    obtain ⟨m, c, hc, -⟩ := h.frozen.present hF hroot rfl hvalues
    exact .inl ⟨hcache, m, c, hc⟩
  · have habsent : q.options.cache = true → ∀ s, F s q.key = none := by
      intro hcache s
      rw [Option.eq_none_iff_forall_ne_some]
      exact fun values hF => hfrozen ⟨hcache, s, values, hF⟩
    refine .inr ⟨Query.under_eq_setting habsent, ?_⟩
    cases hcache : q.options.cache with
    | false =>
      have hnone : (Run.opened q.context q.root { grammar := g }).session = none := by
        show (Run.opened q.context q.root _).session = none
        unfold Run.opened
        have huncached : q.context.options.cache = false := hcache
        rw [huncached, if_neg Bool.false_ne_true]
      rw [hnone]
      exact quiet_none
    | true =>
      rw [session_opened hcache]
      rintro entries rfl s n
      show (if 0 = 0 then g.stores.committed s q.key (0 + n) else none) = none
      rw [if_pos rfl]
      exact h.frozen.absent (habsent hcache s) _

/-- A parse that ends has a course with frozen values: it is known from the parse that
froze them, or this one replays nothing. -/
theorem Recorded.exists_course (hrealm : Realm bodies base P)
    (horderly : ∀ handle shape, P (.node handle shape) → shape.Orderly)
    (hroots : ∀ r, roots r → P r) (h : Recorded base roots F g) (hroot : roots q.root) {limit : Nat}
    {report : Report V α} (hreport : q.parse? g limit = some report) :
    ∃ m c, course base.target m (q.under F) q.root .start = some c := by
  have hP := hroots _ hroot
  rcases h.course_or_quiet hroot with ⟨-, hcourse⟩ | ⟨hsetting, hquiet⟩
  · exact hcourse
  · rw [hsetting]
    have hok : Sound base (· = g.stores.committed) { grammar := g } := h.sound.of_allowed rfl
    obtain ⟨run, hrun, -⟩ := Query.parse?_eq_some.1 hreport
    rw [Act.inSession_eq] at hrun
    obtain ⟨x, hx, -⟩ := Option.map_eq_some_iff.1 hrun
    exact SlotGrammar.exists_course hrealm (regime_of_orderly horderly _) rfl
      (hrealm.keeps_root hP rfl) hP
      (fun r hr => not_nests_of_orderly hrealm horderly hP hr) (Setting.isPlain_plain _)
      (hok.opened q.context q.root) hquiet hx

/-- A parse that ends follows the course with frozen values. -/
theorem Recorded.course_of_parse? (hrealm : Realm bodies base P)
    (horderly : ∀ handle shape, P (.node handle shape) → shape.Orderly)
    (hroots : ∀ r, roots r → P r) (h : Recorded base roots F g) (hroot : roots q.root) {limit : Nat}
    {report : Report V α} (hreport : q.parse? g limit = some report) :
    ∃ m c, course base.target m (q.under F) q.root .start = some c ∧ q.parse? g m = some report ∧
      report.ending = c.ending := by
  obtain ⟨m, c, hc⟩ := h.exists_course hrealm horderly hroots hroot hreport
  have hmax := course_mono hrealm.closed hrealm.steady (Nat.le_max_right limit m)
    (hroots _ hroot) hc
  obtain ⟨report', hreport', hending, -⟩ := h.parse?_of_course hrealm horderly hroots hroot hmax
  have hsame := q.parse?_mono (Nat.le_max_left limit m) hreport
  rw [hreport'] at hsame
  cases hsame
  exact ⟨_, c, hmax, hreport', hending⟩

/-- Values have no part in whether and where a parse matches, nor in its error. -/
theorem course_of_values (hrealm : Realm bodies base P) (hroot : P q.root) {st : Setting V}
    {limit : Nat} {c : Course V α} (hc : course base.target limit st q.root .start = some c)
    (st' : Setting V) (hinput : st.input = st'.input) (hwindow : st.window = st'.window) :
    ∃ c', course base.target limit st' q.root .start = some c' ∧
      Ending.Alike False True c.ending c'.ending := by
  have hnone : Closed base.target fun _ : Recognizer V α => False :=
    ⟨fun h _ => h, fun h _ => h⟩
  obtain ⟨c', hc', halike⟩ := course_alike hrealm.closed hrealm.steady hnone (fun _ _ h => h.elim)
    (Nat.le_refl limit) hinput (fun _ : True => hwindow) hroot hc
  exact ⟨c', hc', halike.ending.mono False.elim id⟩

/-! ## Histories -/

/-- After a parse the stores hold what was computed with the values frozen by then, if
all parses of its root are through one handle. -/
theorem Recorded.parsed (hrealm : Realm bodies base P)
    (horderly : ∀ handle shape, P (.node handle shape) → shape.Orderly)
    (hroots : ∀ r, roots r → P r) (h : Recorded base roots F g) (hroot : roots q.root)
    (hone : ∀ r, roots r → q.root.handle.id = r.handle.id → q.root.handle = r.handle) {limit : Nat}
    {report : Report V α} (hreport : q.parse? g limit = some report) :
    Recorded base roots ((Step.parse q report.ending).freezes F) report.grammar := by
  obtain ⟨m, c, hc, hparse, hending⟩ := h.course_of_parse? hrealm horderly hroots hroot hreport
  obtain ⟨report', hreport', -, -, hafter⟩ := h.parse?_of_course hrealm horderly hroots hroot hc
  rw [hparse] at hreport'
  cases hreport'
  rw [Step.freezes, hending]
  refine hafter (fun _ => true) (fun _ h => by cases h) ?_
  intro r hr hid
  have hsame := hone r hr hid
  exact ⟨by rw [Recognizer.isCached, Recognizer.isCached, hsame], fun s _ hs => by rw [hsame, hs]⟩

/-- Clearing a recognizer thaws what lies in its store. -/
theorem Recorded.cleared (h : Recorded base roots F g) (t : Recognizer V α) :
    Recorded base roots ((Step.clear t : Step V α).freezes F) (g.dropTraces t) := by
  have hcleared : _ ∧ Moves (fun _ => True) False _ _ [] :=
    dropTraces_moves (t := t) (fun _ _ => trivial) h.sound
  refine ⟨hcleared.1.grammar, ?_⟩
  unfold Grammar.dropTraces
  cases hstore : t.handle.caching.store? with
  | none =>
    have hsame : (Step.clear t : Step V α).freezes F = F := by
      funext s key
      simp [Step.freezes, hstore]
    rw [hsame]
    exact h.frozen
  | some s =>
    have hthawed : (Step.clear t : Step V α).freezes F =
        fun s' key => if s' = s then none else F s' key := by
      funext s' key
      simp [Step.freezes, hstore, eq_comm]
    have hcommitted : Stores.committed (Array.modify g.stores s Store.clear) =
        fun s' key n => if s' = s then none else g.stores.committed s' key n := by
      funext s' key n
      exact g.stores.committed_clear s s' key n
    rw [hthawed]
    show Frozen base.target roots _ (Stores.committed (Array.modify g.stores s Store.clear))
    rw [hcommitted]
    exact h.frozen.clear s

/-- Where nothing is recorded, nothing is frozen. -/
theorem recorded_of_blank {g : Grammar V α} (hblank : g.Blank) (roots : Recognizer V α → Prop) :
    Recorded g roots (frozenBy ([] : List (Step V α))) g := by
  have hnone : g.Sound (· = fun _ _ _ => none) g := sound_of_blank hblank rfl
  have hcommitted : g.stores.committed = fun _ _ _ => none := hnone.allowed
  refine ⟨hnone.of_allowed trivial, ?_, ?_⟩
  · intro s key _ n
    rw [hcommitted]
  · intro s key values root st hF
    cases hF

/-- After one more step the stores hold what was computed with the values frozen by then. -/
theorem Recorded.step (hrealm : Realm bodies base P)
    (horderly : ∀ handle shape, P (.node handle shape) → shape.Orderly)
    (hroots : ∀ r, roots r → P r)
    (hone : ∀ r r', roots r → roots r' → r.handle.id = r'.handle.id → r.handle = r'.handle)
    (h : Recorded base roots F g) {step : Step V α} {g' : Grammar V α} (hstep : g.Takes step g')
    (hasked : ∀ p ∈ step.query?, roots p.root) : Recorded base roots (step.freezes F) g' := by
  cases step with
  | clear t =>
    cases hstep
    exact h.cleared t
  | parse p ending =>
    obtain ⟨limit, report, hreport, rfl, rfl⟩ := hstep
    have hp : roots p.root := hasked p rfl
    exact h.parsed hrealm horderly hroots hp (fun r hr hid => hone _ r hp hr hid) hreport

/-- After a history the stores hold what was computed with frozen values. -/
theorem Recorded.of_leads (hrealm : Realm bodies base P)
    (horderly : ∀ handle shape, P (.node handle shape) → shape.Orderly)
    (hroots : ∀ r, roots r → P r)
    (hone : ∀ r r', roots r → roots r' → r.handle.id = r'.handle.id → r.handle = r'.handle)
    {steps : List (Step V α)} (hleads : base.Leads steps g)
    (hasked : ∀ p ∈ asked steps, roots p.root) :
    Recorded base roots (frozenBy steps) g := by
  induction hleads with
  | refl => exact recorded_of_blank hrealm.formed.blank roots
  | @step steps step _ _ _ hstep ih =>
    have hold := ih fun p hp => hasked p (by simp [hp])
    rw [frozenBy_append]
    exact hold.step hrealm horderly hroots hone hstep
      fun p hp => hasked p (mem_asked_append_of_query? hp)

end Parses

end SlotGrammar
