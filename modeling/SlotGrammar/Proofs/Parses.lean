import SlotGrammar.Proofs.Simulation

/-!
# Parses

A parse follows its course.  It leaves the outcomes of its slots in the stores if it
matches, next to those that were there, and its log tells what its course tells.

Main results:

- Theorem `parse_follows`: a parse follows its course, with caching or without.
- Theorem `parse_ends`: a parse that ends has a course.
- Theorem `Query.parse?_leaves`: what a parse with caching leaves behind.
-/

namespace SlotGrammar

variable {V α : Type} {bodies : Bodies V α} {base : Grammar V α}
  {P starts : Recognizer V α → Prop} {J : Entries V α → Prop} {logged : Prop}

/-! ## Queries -/

/-- What is asked of a parse. -/
structure Query (V α : Type) where
  root : Recognizer V α
  input : Fragments
  values : List V
  options : ParseOptions

namespace Query

/-- The context in which the parse runs. -/
def context (q : Query V α) : Context V α := ⟨q.input, q.values, q.options, [q.root]⟩

/-- The setting in which every call of the parse sees its values. -/
def setting (q : Query V α) : Setting V := q.context.view.plain

/-- The trace that the parse records and replays. -/
def key (q : Query V α) : TraceKey := traceKey q.root q.input

/-- Asks a grammar. -/
def parse? (q : Query V α) (g : Grammar V α) (limit : Nat) : Option (Report V α) :=
  g.parse? limit q.root q.input q.values q.options

/-- Whether the parse, or a parse with caching inside it, starts from a recognizer. -/
def Starts (ρ : Targets V α) (q : Query V α) (r : Recognizer V α) : Prop :=
  r = q.root ∨ Nests ρ q.setting q.root .start r

theorem parse?_eq_some {q : Query V α} {g : Grammar V α} {limit : Nat} {report : Report V α} :
    q.parse? g limit = some report ↔
      ∃ run, Act.inSession q.context q.root (exec limit q.context q.root .start) { grammar := g } =
          some (report.ending, run) ∧
        report.grammar = run.grammar ∧ report.events = run.log.reverse := by
  unfold parse? Grammar.parse? Act.report?
  rw [Option.map_eq_some_iff]
  constructor
  · rintro ⟨⟨ending, run⟩, hrun, rfl⟩
    exact ⟨run, hrun, rfl, rfl⟩
  · rintro ⟨run, hrun, hgrammar, hevents⟩
    refine ⟨(report.ending, run), hrun, ?_⟩
    cases report
    cases hgrammar
    cases hevents
    rfl

theorem parse?_of_run {q : Query V α} {g : Grammar V α} {limit : Nat} {ending : Ending V α}
    {run : Run V α}
    (hrun : Act.inSession q.context q.root (exec limit q.context q.root .start) { grammar := g } =
      some (ending, run)) :
    q.parse? g limit = some ⟨ending, run.grammar, run.log.reverse⟩ :=
  parse?_eq_some.2 ⟨run, hrun, rfl, rfl⟩

/-- A parse that ends does so under every greater limit. -/
theorem parse?_mono {q : Query V α} {g : Grammar V α} {limit limit' : Nat} (hle : limit ≤ limit')
    {report : Report V α} (h : q.parse? g limit = some report) :
    q.parse? g limit' = some report := by
  obtain ⟨run, hrun, hgrammar, hevents⟩ := parse?_eq_some.1 h
  have hrun' := (exec_mono hle q.context q.root .start).inSession { grammar := g } _ hrun
  exact parse?_eq_some.2 ⟨run, hrun', hgrammar, hevents⟩

/-- All parses of a query that end do so alike. -/
theorem parse?_unique {q : Query V α} {g : Grammar V α} {limit limit' : Nat}
    {report report' : Report V α} (h : q.parse? g limit = some report)
    (h' : q.parse? g limit' = some report') : report = report' := by
  have hmax := q.parse?_mono (Nat.le_max_left limit limit') h
  have hmax' := q.parse?_mono (Nat.le_max_right limit limit') h'
  rw [hmax] at hmax'
  exact Option.some.inj hmax'

end Query

/-! ## Parses follow courses -/

/-- The root that a parse holds is kept. -/
theorem Realm.keeps_root (hrealm : Realm bodies base P) {ctx : Context V α} {root : Recognizer V α}
    (hroot : P root) (hheld : ctx.held = [root]) : ∀ h ∈ ctx.held, base.Keeps h := by
  rw [hheld]
  exact hrealm.keeps_cons hroot (by simp)

/-- A parse follows its course, with caching or without. -/
theorem parse_follows (hrealm : Realm bodies base P) (hregime : Regime base.target P starts J)
    {ctx : Context V α} {root : Recognizer V α} (hstart : ctx.options.cache = true → starts root)
    (hroot : P root) (hheld : ctx.held = [root]) {st : Setting V} (hview : ctx.view = st.toView)
    (hplain : st.IsPlain)
    (hnests : ∀ q, Nests base.target st root .start q → starts q) {limit : Nat} {c : Course V α}
    (hc : course base.target limit st root .start = some c) {run : Run V α}
    (hok : Sound base J run) :
    ∃ run', Act.inSession ctx root (exec limit ctx root .start) run = some (c.ending, run') ∧
      Sound base J run' := by
  have hact := exec_follows hrealm hregime (fun h : False => h.elim) hview
    (hrealm.keeps_root hroot hheld) hroot hnests hc
  have hinput : st.input = ctx.input := (congrArg View.input hview).symm
  obtain ⟨run', hrun', hok', -⟩ := hregime.parse hok hstart hplain hinput hc hact
  exact ⟨run', hrun', hok'⟩

/-- A parse that ends has a course and follows it. -/
theorem parse_ends (hrealm : Realm bodies base P) (hregime : Regime base.target P starts J)
    {ctx : Context V α} {root : Recognizer V α} (hstart : ctx.options.cache = true → starts root)
    (hroot : P root) (hheld : ctx.held = [root]) {st : Setting V} (hview : ctx.view = st.toView)
    (hplain : st.IsPlain)
    (hnests : ∀ q, Nests base.target st root .start q → starts q) {limit : Nat} {run mid : Run V α}
    {ending : Ending V α} (hok : Sound base J run)
    (hrun : Act.inSession ctx root (exec limit ctx root .start) run = some (ending, mid)) :
    Sound base J mid ∧
      ∃ m c, course base.target m st root .start = some c ∧ ending = c.ending := by
  have hkeeps := hrealm.keeps_root hroot hheld
  have hinput : st.input = ctx.input := (congrArg View.input hview).symm
  obtain ⟨m, c, hc⟩ := hregime.exists_course_of_parse hstart hplain hinput
    (fun hok hquiet hz => exists_course hrealm hregime hview hkeeps hroot hnests hplain hok
      hquiet hz)
    hok hrun
  obtain ⟨run', hrun', hok'⟩ := parse_follows hrealm hregime hstart hroot hheld hview hplain hnests
    (course_mono hrealm.closed hrealm.steady (Nat.le_max_right limit m) hroot hc) hok
  have hsame := (exec_mono (Nat.le_max_left limit m) ctx root .start).inSession run _ hrun
  rw [hrun'] at hsame
  cases hsame
  exact ⟨hok', m, c, hc, rfl⟩

/-! ## What a parse leaves behind -/

/-- Whether some pending outcomes are those of a list of slots, as far as these were not
replayed. -/
structure Pends (J : Entries V α → Prop) (key : TraceKey) (tape : List (Slot V α))
    (pending : StoreId → Nat → Option (Outcome V α)) : Prop where
  settled : ∀ (n : Nat) (s : StoreId) (o : Outcome V α), tape[n]? = some (.settled s o) →
    pending s n = some o ∨ Evident J key s n o
  slot : ∀ (n : Nat) (s : StoreId) (o : Outcome V α), pending s n = some o →
    tape[n]? = some (.settled s o) ∨ tape[n]? = some .passed

namespace Pends

variable {key : TraceKey} {tape : List (Slot V α)}
  {pending : StoreId → Nat → Option (Outcome V α)} {s : StoreId} {n : Nat} {o : Outcome V α}

/-- Where all ordinals have an outcome, nothing else is pending. -/
theorem slot_eq (h : Pends J key tape pending) (hsettled : ∀ slot ∈ tape, slot.IsSettled)
    (ho : pending s n = some o) : tape[n]? = some (.settled s o) := by
  rcases h.slot n s o ho with hslot | hpassed
  · exact hslot
  · exact (hsettled _ (List.mem_of_getElem? hpassed)).elim

/-- Where all ordinals have an outcome, committing what is pending leaves it behind. -/
theorem committed_eq {entries : Entries V α} (h : Pends (· = entries) key tape pending)
    (hsettled : ∀ slot ∈ tape, slot.IsSettled) (hslot : tape[n]? = some (.settled s o)) :
    (pending s n).or (entries s key n) = some o := by
  cases hpending : pending s n with
  | some o' =>
    have hslot' := h.slot_eq hsettled hpending
    rw [hslot] at hslot'
    cases hslot'
    rfl
  | none =>
    rcases h.settled n s o hslot with hnew | ⟨_, rfl, hevident⟩
    · rw [hpending] at hnew
      cases hnew
    · exact hevident

end Pends

/-- What a parse with caching leaves behind. -/
structure Query.Leaves (base : Grammar V α) (J : Entries V α → Prop) (logged : Prop)
    (q : Query V α) (c : Course V α) (report : Report V α) : Prop where
  ending : report.ending = c.ending
  sound : ∀ {J' : Entries V α → Prop}, J' report.grammar.stores.committed →
    Sound base J' { grammar := report.grammar }
  unmatched : c.ending.isMatch = false → J report.grammar.stores.committed
  matched : c.ending.isMatch = true → ∃ entries pending, J entries ∧ Pends J q.key c.tape pending ∧
    ∀ s key n, report.grammar.stores.committed s key n =
      if key = q.key then (pending s n).or (entries s key n) else entries s key n
  told : logged → Event.Tells report.events (some 0) c.track

/-- A parse with caching follows its course from every state that the course fits. -/
theorem Query.parse?_leaves (hrealm : Realm bodies base P) (hregime : Regime base.target P starts J)
    (hlogged : logged → ∀ handle sub p, ¬ P (.node handle (.nested sub p))) {q : Query V α}
    (hcache : q.options.cache = true) (hroot : P q.root) {st : Setting V}
    (hview : q.context.view = st.toView)
    (hnests : ∀ r, Nests base.target st q.root .start r → starts r) {limit : Nat} {c : Course V α}
    (hc : course base.target limit st q.root .start = some c)
    (hmeets : ∀ entries, J entries → ∀ (n : Nat) (slot : Slot V α), c.tape[n]? = some slot →
      slot.Meets st fun s => entries s q.key n)
    {g : Grammar V α} (hok : Sound base J { grammar := g }) :
    ∃ report, q.parse? g limit = some report ∧ q.Leaves base J logged c report := by
  have hact := exec_follows hrealm hregime hlogged hview
    (hrealm.keeps_root hroot rfl) hroot hnests hc
  have hfits : Fits J st (Run.opened q.context q.root { grammar := g }).session c.tape :=
    fits_opened hcache hmeets { grammar := g }
  obtain ⟨mid, hmid, hokmid, hmoves⟩ := inSession_follows hok hact hfits
  obtain ⟨ses', hses', hid, hkey, hbooks⟩ := books_at_end hok hcache hmoves
  refine ⟨_, q.parse?_of_run hmid, rfl, ?_, ?_, ?_, ?_⟩
  · intro J' hallowed
    have hclosed : Sound base J' (mid.closed none c.ending) :=
      hokmid.closed hallowed fun ses hses => by cases hses
    exact ⟨hclosed.later, hclosed.size_eq, hclosed.allowed, hclosed.fresh,
      fun ses hses => by cases hses⟩
  · intro hmatch
    rw [committed_closed_of_not_match hmatch]
    exact hokmid.allowed
  · intro hmatch
    refine ⟨_, fun s n => mid.grammar.stores.pending s ses'.id n, hokmid.allowed, ⟨?_, ?_⟩, ?_⟩
    · intro n s o hslot
      rcases hbooks.accounts n _ hslot with ⟨-, hpending⟩ | ⟨-, hevident⟩
      · exact .inl hpending
      · exact .inr hevident
    · intro n s o ho
      exact hbooks.slot_of_pending ho
    · intro s key n
      exact committed_closed hses' hkey hbooks hmatch s key n
  · intro h
    obtain ⟨events, hlog, htells⟩ := hmoves.log
    rw [Run.ordinal?, session_opened hcache] at htells
    rw [log_opened] at hlog
    have hevents : (mid.closed none c.ending).log.reverse = events := by
      rw [log_closed, hlog, List.append_nil, List.reverse_reverse]
    show Event.Tells (mid.closed none c.ending).log.reverse _ _
    rw [hevents]
    exact htells h

end SlotGrammar
