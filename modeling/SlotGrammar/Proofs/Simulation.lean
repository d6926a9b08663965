import SlotGrammar.Proofs.Calls
import SlotGrammar.Proofs.Limits

/-!
# Runs follow courses

A run with recorded outcomes follows the course of what it attempts, as long as an
outcome that is replayed is the one that the course has at that ordinal.  Ordinals
are compared with the slots of the course alone, so it does not matter which calls
were built before and which are replayed.

Main results:

- Theorem `exec_follows`: an attempt follows its course.
- Theorem `exists_course`: where nothing can be replayed, an attempt that ends has a
  course.
-/

namespace SlotGrammar

variable {V α : Type}

/-! ## Attempts -/

/-- Whether a set of recognizers is closed under parts and targets, and every member is
well formed and kept and does not let the values decide where it matches. -/
structure Realm (bodies : Bodies V α) (base : Grammar V α) (P : Recognizer V α → Prop) :
    Prop where
  formed : base.Formed bodies
  supplied : base.Supplied
  closed : Closed base.target P
  sound : ∀ r, P r → r.Formed bodies base ∧ base.Keeps r
  steady : ∀ handle shape, P (.node handle shape) → shape.Steady

variable {bodies : Bodies V α} {base : Grammar V α} {P starts : Recognizer V α → Prop}
  {J : Entries V α → Prop} {logged : Prop}

/-- The root of a parse is kept next to what a run keeps already. -/
theorem Realm.keeps_cons (hrealm : Realm bodies base P) {p : Recognizer V α} (hp : P p)
    {held : List (Recognizer V α)} (hheld : ∀ h ∈ held, base.Keeps h) :
    ∀ h ∈ p :: held, base.Keeps h :=
  List.forall_mem_cons.2 ⟨(hrealm.sound p hp).2, hheld⟩

/-- A parse inside a run sees what the values of the run make of its own. -/
theorem Context.view_inside {ctx : Context V α} {st : Setting V} (h : ctx.view = st.toView)
    (sub : Subparse V) (root : Recognizer V α) :
    (ctx.inside sub root).view = (st.nested sub).toView := by
  have hvalues : ctx.values = st.values := congrArg View.values h
  show (⟨sub.input, sub.values ctx.values, sub.options.errorWindow⟩ : View V) =
    ⟨sub.input, sub.values st.values, sub.options.errorWindow⟩
  rw [hvalues]

/-- Clearing the outcomes of a recognizer moves nothing. -/
theorem dropTraces_moves {t : Recognizer V α} {run : Run V α}
    (hclear : ∀ s, t.handle.caching.store? = some s →
      J fun s' key n => if s' = s then none else run.grammar.stores.committed s' key n)
    (hok : Sound base J run) :
    Sound base J { run with grammar := run.grammar.dropTraces t } ∧
      Moves J logged run { run with grammar := run.grammar.dropTraces t } [] := by
  cases hstore : t.handle.caching.store? with
  | none =>
    have hsame : run.grammar.dropTraces t = run.grammar := by
      unfold Grammar.dropTraces
      rw [hstore]
    rw [hsame]
    exact ⟨hok, .refl run⟩
  | some s =>
    have hdrop : run.grammar.dropTraces t =
        { run.grammar with stores := Array.modify run.grammar.stores s Store.clear } := by
      unfold Grammar.dropTraces
      rw [hstore]
    have hpending : ∀ s' id n,
        Stores.pending (Array.modify run.grammar.stores s Store.clear) s' id n =
          run.grammar.stores.pending s' id n :=
      fun s' id n => run.grammar.stores.pending_clear s s' id n
    rw [hdrop]
    refine ⟨⟨hok.later.onStores _ _, ?_, ?_, ?_, hok.id_lt⟩, ?_, [], rfl, fun _ => .nil _⟩
    · exact Array.size_modify.trans hok.size_eq
    · have hcleared : Stores.committed (Array.modify run.grammar.stores s Store.clear) =
          fun s' key n => if s' = s then none else run.grammar.stores.committed s' key n := by
        funext s' key n
        exact run.grammar.stores.committed_clear s s' key n
      show J (Stores.committed (Array.modify run.grammar.stores s Store.clear))
      rw [hcleared]
      exact hclear s hstore
    · intro s' id n hle
      exact (hpending s' id n).trans (hok.fresh s' id n hle)
    · refine ⟨Nat.le_refl _, fun s' id n _ _ => hpending s' id n, id, ?_⟩
      intro ses hses
      refine ⟨ses, hses, rfl, rfl, rfl, rfl, ?_⟩
      intro tape htape
      rw [tapeOf_nil, List.append_nil]
      exact htape.congr rfl rfl fun s' n => hpending s' ses.id n

/-- Following a link moves nothing. -/
theorem follow_moves (hrealm : Realm bodies base P) {handle : Handle} {l : Link}
    (hr : P (.link handle l)) {ctx : Context V α} (hheld : ∀ h ∈ ctx.held, base.Keeps h)
    {run : Run V α} (hok : Sound base J run) :
    ∃ found run', Act.follow ctx l run = some (.ok found, run') ∧ Sound base J run' ∧
      Moves J logged run run' [] ∧ found.map Prod.snd = base.target l ∧
      ∀ x ∈ found, x.1.view = ctx.view ∧ ∀ h ∈ x.1.held, base.Keeps h := by
  obtain ⟨hformed, hkeeps⟩ := hrealm.sound _ hr
  obtain ⟨found, deferrals, tallies, hfollow, hlater, htarget, hctx⟩ :=
    Act.follow_eq hrealm.formed hrealm.supplied hheld
      (fun k hk => hkeeps k ((hformed _ .refl).holdsParts k hk)) hok.later
  refine ⟨found, _, hfollow, ⟨hlater, hok.size_eq, hok.allowed, hok.fresh, hok.id_lt⟩, ?_,
    htarget, hctx⟩
  refine ⟨⟨Nat.le_refl _, fun _ _ _ _ _ => rfl, id, fun ses hses => ⟨ses, hses, .refl ses _⟩⟩,
    tallies.reverse.map Event.tallied, ?_, fun _ => .tallied _ _⟩
  rw [← List.map_reverse, List.reverse_reverse]

/-- A note that is not about an attempt moves nothing. -/
theorem note_moves {event : Event V α} (hevent : (∃ pos, event = .missed pos) ∨
      (∃ label, event = .tallied label) ∨
      ∃ label pos before after ending, event = .probed label pos before after ending)
    (run : Run V α) : Moves J logged run (run.noted event) [] := by
  refine .noted run rfl fun _ => ?_
  rcases hevent with ⟨pos, rfl⟩ | ⟨label, rfl⟩ | ⟨label, pos, before, after, ending, rfl⟩
  · exact .missed pos _
  · exact .tallied [label] _
  · exact .probed label pos before after ending _

/-- What a recognizer does itself follows its course when the attempts in it do. -/
theorem work_follows (hrealm : Realm bodies base P) (hregime : Regime base.target P starts J)
    (hlogged : logged → ∀ handle sub p, ¬ P (.node handle (.nested sub p))) {limit : Nat}
    (hattempt : ∀ {st : Setting V} {ctx : Context V α} {r : Recognizer V α} {pos : Position}
      {c : Course V α}, ctx.view = st.toView → (∀ h ∈ ctx.held, base.Keeps h) → P r →
      (∀ q, Nests base.target st r pos q → starts q) →
      course base.target limit st r pos = some c →
      (replaying base J logged st).Follows (exec limit ctx r pos) c)
    {st : Setting V} {ctx : Context V α} {r : Recognizer V α} {pos : Position} {w : Course V α}
    (hview : ctx.view = st.toView) (hheld : ∀ h ∈ ctx.held, base.Keeps h) (hr : P r)
    (hstarts : ∀ q, r.WorkNests base.target st pos q → starts q)
    (hw : r.workCourse base.target (course base.target limit) limit st pos = some w) :
    (replaying base J logged st).Follows (r.work (exec limit) limit ctx pos) w := by
  cases r with
  | link handle l =>
    intro run hok hfits
    obtain ⟨found, run', hfollow, hok', hmoves, htarget, hctx⟩ :=
      follow_moves hrealm hr hheld hok
    rw [Recognizer.workCourse, ← htarget] at hw
    cases found with
    | none =>
      cases hw
      exact ⟨run', Recognizer.work_link_none hfollow pos, hok', hmoves⟩
    | some x =>
      obtain ⟨ctx', r'⟩ := x
      obtain ⟨hview', hheld'⟩ := hctx _ rfl
      have hr' : P r' := hrealm.closed.target hr htarget.symm
      have hfollows := hattempt (hview'.trans hview) hheld' hr'
        (fun q h => hstarts q ⟨r', htarget.symm, h⟩) hw
      have hfits : Fits J st run.session ([] ++ tapeOf w.track) := hfits
      exact (hfollows run' hok' (hfits.right hmoves.shifts)).bind
        (Recognizer.work_link_some hfollow pos) hmoves
  | node handle shape =>
    show (replaying base J logged st).Follows (shape.attempt (exec limit) limit ctx pos) w
    rw [← Script.play_script, hview]
    refine Tracking.follows_play ?_ ?_ ?_ ?_ (Script.within_script _ _ _ _)
      (fun q h => hstarts q ⟨limit, h⟩) hw
    · intro p hp pos c hnests hc
      exact hattempt hview hheld (hrealm.closed.part hr hp) hnests hc
    · rintro sub p rfl hstart hnests c hc run hok
      have hp : P p := hrealm.closed.part hr (by simp [Shape.parts])
      have hinput : (st.nested sub).input = (ctx.inside sub p).input := rfl
      obtain ⟨run', hrun', hok', hshifts, events, hlog⟩ := hregime.parse hok hstart
        (Setting.isPlain_plain _) hinput hc
        (hattempt (Context.view_inside hview sub p) (hrealm.keeps_cons hp hheld) hp hnests hc)
      refine ⟨run', hrun', hok', hshifts, events.reverse, ?_, ?_⟩
      · rw [List.reverse_reverse]
        exact hlog
      · intro h
        exact absurd hr (hlogged h handle sub p)
    · rintro t p rfl run hok
      exact dropTraces_moves (fun s hs => hregime.clear hr hs hok.allowed) hok
    · intro event hevent run hok
      exact ⟨hok.noted event, note_moves hevent run⟩

/-- An attempt follows its course. -/
theorem exec_follows (hrealm : Realm bodies base P) (hregime : Regime base.target P starts J)
    (hlogged : logged → ∀ handle sub p, ¬ P (.node handle (.nested sub p))) {limit : Nat}
    {st : Setting V} {ctx : Context V α} {r : Recognizer V α} {pos : Position} {c : Course V α}
    (hview : ctx.view = st.toView) (hheld : ∀ h ∈ ctx.held, base.Keeps h) (hr : P r)
    (hstarts : ∀ q, Nests base.target st r pos q → starts q)
    (hc : course base.target limit st r pos = some c) :
    (replaying base J logged st).Follows (exec limit ctx r pos) c := by
  induction limit generalizing st ctx r pos c with
  | zero => cases hc
  | succ limit ih =>
    obtain ⟨w, hw, rfl⟩ := course_succ_eq_some.1 hc
    have hstarts : ∀ q, r.WorkNests base.target (st.below r.handle.caching) pos q → starts q :=
      fun q h => hstarts q (.of_work h)
    have hwork : ∀ {inner : Setting V}, ctx.view = inner.toView →
        (∀ q, r.WorkNests base.target inner pos q → starts q) →
        r.workCourse base.target (course base.target limit) limit inner pos = some w →
        (replaying base J logged inner).Follows (r.work (exec limit) limit ctx pos) w :=
      fun hinner hstarts hw => work_follows hrealm hregime hlogged ih hinner hheld hr hstarts hw
    rw [exec_succ]
    cases hcaching : r.handle.caching with
    | active s =>
      rw [hcaching] at hw hstarts
      refine follows_cached hcaching ?_ hview fun hinner => hwork hinner hstarts hw
      exact ((hrealm.sound r hr).1 r .refl).store_lt s (by rw [hcaching]; rfl)
    | never =>
      have hinactive : r.handle.caching.isActive = false := by rw [hcaching]; rfl
      rw [Setting.below_of_inactive hinactive] at hw hstarts
      exact follows_uncached hinactive (hwork hview hstarts hw)
    | paused s =>
      have hinactive : r.handle.caching.isActive = false := by rw [hcaching]; rfl
      rw [Setting.below_of_inactive hinactive] at hw hstarts
      exact follows_uncached hinactive (hwork hview hstarts hw)

/-! ## Attempts that end have courses -/

/-- A parse that ends has a course: it is known from an earlier parse, or this one
replays nothing. -/
theorem Regime.exists_course_of_parse {ρ : Targets V α} (hregime : Regime ρ P starts J)
    {ctx : Context V α} {root : Recognizer V α} (hstart : ctx.options.cache = true → starts root)
    {st : Setting V} (hplain : st.IsPlain) (hinput : st.input = ctx.input)
    {act : Act V α (Outcome V α)}
    (hact : ∀ {run : Run V α} {x : Ending V α × Run V α}, Sound base J run →
      Quiet J run.session → act run = some x → ∃ m c, course ρ m st root .start = some c)
    {run : Run V α} (hok : Sound base J run) {x : Ending V α × Run V α}
    (hx : Act.inSession ctx root act run = some x) :
    ∃ m c, course ρ m st root .start = some c := by
  by_cases hquiet : Quiet J (run.opened ctx root).session
  · rw [Act.inSession_eq] at hx
    obtain ⟨y, hy, -⟩ := Option.map_eq_some_iff.1 hx
    exact hact (hok.opened ctx root) hquiet hy
  · unfold Quiet at hquiet
    simp only [not_forall] at hquiet
    obtain ⟨entries, hentries, s, n, hne⟩ := hquiet
    obtain ⟨o, ho⟩ := Option.ne_none_iff_exists'.1 hne
    unfold Run.opened at ho
    split at ho
    next hcache =>
      rw [playback, Option.bind_some, if_pos rfl] at ho
      exact hregime.known (hstart hcache) hplain hentries (hinput ▸ ho)
    · cases ho

/-- An attempt that has a course and ends does what the course says, whatever its
limit. -/
theorem exec_eq_course (hrealm : Realm bodies base P) (hregime : Regime base.target P starts J)
    {limit m : Nat} {st : Setting V} {ctx : Context V α} {r : Recognizer V α} {pos : Position}
    {c : Course V α} (hview : ctx.view = st.toView) (hheld : ∀ h ∈ ctx.held, base.Keeps h)
    (hr : P r)
    (hstarts : ∀ q, Nests base.target st r pos q → starts q)
    (hc : course base.target m st r pos = some c) {run mid : Run V α} (hok : Sound base J run)
    (hfits : Fits J st run.session c.tape) {ending : Ending V α}
    (hrun : exec limit ctx r pos run = some (ending, mid)) :
    ending = c.ending ∧ Sound base J mid ∧ Shifts J run mid c.tape := by
  obtain ⟨mid', hmid', hok', hmoves⟩ := exec_follows hrealm hregime (fun h : False => h.elim) hview
    hheld hr hstarts (course_mono hrealm.closed hrealm.steady (Nat.le_max_right limit m) hr hc) run
    hok hfits
  have hsame := exec_mono (Nat.le_max_left limit m) ctx r pos run _ hrun
  rw [hmid'] at hsame
  cases hsame
  exact ⟨rfl, hok', hmoves.shifts⟩

section Scripts

variable {limit : Nat} (hrealm : Realm bodies base P) (hregime : Regime base.target P starts J)
  (hattempt : ∀ {st : Setting V} {ctx : Context V α} {r : Recognizer V α} {pos : Position}
    {run : Run V α} {x : Ending V α × Run V α}, ctx.view = st.toView →
    (∀ h ∈ ctx.held, base.Keeps h) → P r → (∀ q, Nests base.target st r pos q → starts q) →
    st.IsPlain → Sound base J run → Quiet J run.session →
    exec limit ctx r pos run = some x → ∃ m c, course base.target m st r pos = some c)
  {st : Setting V} {ctx : Context V α} (hview : ctx.view = st.toView)
  (hheld : ∀ h ∈ ctx.held, base.Keeps h)

include hrealm hregime hattempt hview hheld

/-- A parse of another input that ends inside a run has a course and follows it, if the
attempts in it have courses. -/
theorem exists_nested_course {sub : Subparse V} {p : Recognizer V α} (hp : P p)
    (hstart : sub.options.cache = true → starts p)
    (hnests : ∀ q, Nests base.target (st.nested sub) p .start q → starts q)
    {run mid : Run V α} (hok : Sound base J run) {ending : Ending V α}
    (hrun : Act.inSession (ctx.inside sub p) p (exec limit (ctx.inside sub p) p .start) run =
      some (ending, mid)) :
    ∃ m c, course base.target m (st.nested sub) p .start = some c ∧ ending = c.ending ∧
      Sound base J mid ∧ Shifts J run mid [] := by
  let inner := ctx.inside sub p
  have hinner : inner.view = (st.nested sub).toView := Context.view_inside hview sub p
  have hkeeps : ∀ h ∈ inner.held, base.Keeps h := hrealm.keeps_cons hp hheld
  have hplain : (st.nested sub).IsPlain := Setting.isPlain_plain _
  have hinput : (st.nested sub).input = inner.input := rfl
  obtain ⟨m, c, hc⟩ := hregime.exists_course_of_parse hstart hplain hinput
    (fun hok hquiet hz => hattempt hinner hkeeps hp hnests hplain hok hquiet hz) hok hrun
  obtain ⟨mid', hmid', hokmid, hshifts, -⟩ := hregime.parse hok hstart hplain hinput hc
    (exec_follows hrealm hregime (fun h : False => h.elim) hinner hkeeps hp hnests
      (course_mono hrealm.closed hrealm.steady (Nat.le_max_right limit m) hp hc))
  have hsame := (exec_mono (Nat.le_max_left limit m) inner p .start).inSession run _ hrun
  rw [hmid'] at hsame
  cases hsame
  exact ⟨m, c, hc, rfl, hokmid, hshifts⟩

/-- A script that is played to its end has a course, if the attempts in it have. -/
theorem exists_script_course (hplain : st.IsPlain) {handle : Handle}
    {shape : Shape V α (Recognizer V α)} (hr : P (.node handle shape)) {script : Script V α}
    (hscript : script.Within shape) (hstarts : ∀ q, Script.Nests base.target st script q → starts q)
    {run : Run V α} (hok : Sound base J run)
    (hquiet : Quiet J run.session) {x : Ending V α × Run V α}
    (hx : script.play (exec limit) ctx run = some x) :
    ∃ m c, script.course (course base.target m) st = some c := by
  have hmono : ∀ {m m' : Nat}, m ≤ m' → ∀ p ∈ shape.parts, ∀ st pos c,
      course base.target m st p pos = some c → course base.target m' st p pos = some c :=
    fun hle p hp _ _ _ hc => course_mono hrealm.closed hrealm.steady hle
      (hrealm.closed.part hr hp) hc
  induction hscript generalizing run x with
  | ended ending => exact ⟨0, _, rfl⟩
  | exhausted => cases hx
  | @call p pos next hp _ hwithin ih =>
    have hP : P p := hrealm.closed.part hr hp
    have hx : ((exec limit ctx p pos).attempt >>= fun ending =>
        (next ending).play (exec limit) ctx) run = some x := hx
    rw [Act.bind_apply, Act.attempt_apply] at hx
    obtain ⟨y, hy, hx⟩ := Option.bind_eq_some_iff.1 hx
    obtain ⟨⟨ending, mid⟩, hmid, rfl⟩ := Option.map_eq_some_iff.1 hy
    have hnests : ∀ q, Nests base.target st p pos q → starts q := fun q h => hstarts q (.call h)
    obtain ⟨m₁, c₁, hc₁⟩ := hattempt hview hheld hP hnests hplain hok hquiet hmid
    obtain ⟨rfl, hokmid, hshifts⟩ := exec_eq_course hrealm hregime hview hheld hP hnests hc₁ hok
      (hquiet.fits hplain _) hmid
    obtain ⟨m₂, c₂, hc₂⟩ := ih c₁.ending (fun q h => hstarts q (.afterCall hc₁ h)) hokmid
      (hshifts.quiet hquiet) hx
    refine ⟨max m₁ m₂, c₁.andThen c₂, ?_⟩
    refine Option.bind_eq_some_iff.2 ⟨c₁, hmono (Nat.le_max_left _ _) p hp _ _ _ hc₁, ?_⟩
    refine Option.map_eq_some_iff.2 ⟨c₂, ?_, rfl⟩
    exact (hwithin _).course_le (hmono (Nat.le_max_right _ _)) hc₂
  | @nest sub p next hshape hwithin ih =>
    subst hshape
    have hpart : p ∈ [p] := List.mem_singleton.2 rfl
    have hx : ((Act.inSession (ctx.inside sub p) p
        (exec limit (ctx.inside sub p) p .start)).attempt >>=
          fun ending => (next ending).play (exec limit) ctx) run = some x := hx
    rw [Act.bind_apply, Act.attempt_apply] at hx
    obtain ⟨y, hy, hx⟩ := Option.bind_eq_some_iff.1 hx
    obtain ⟨⟨ending, mid⟩, hmid, rfl⟩ := Option.map_eq_some_iff.1 hy
    obtain ⟨m₁, c₁, hc₁, rfl, hokmid, hshifts⟩ := exists_nested_course hrealm hregime hattempt
      hview hheld (hrealm.closed.part hr hpart) (fun hcache => hstarts p (.started hcache))
      (fun q h => hstarts q (.inside h)) hok hmid
    obtain ⟨m₂, c₂, hc₂⟩ := ih c₁.ending (fun q h => hstarts q (.afterNest hc₁ h)) hokmid
      (hshifts.quiet hquiet) hx
    refine ⟨max m₁ m₂, c₂, ?_⟩
    refine Option.bind_eq_some_iff.2 ⟨c₁, hmono (Nat.le_max_left _ _) p hpart _ _ _ hc₁, ?_⟩
    exact (hwithin _).course_le (hmono (Nat.le_max_right _ _)) hc₂
  | @clear t p next hshape _ ih =>
    subst hshape
    have hcleared : _ ∧ Moves J False run _ [] :=
      dropTraces_moves (fun s hs => hregime.clear hr hs hok.allowed) hok
    exact ih (fun q h => hstarts q (.clear h)) hcleared.1 (hcleared.2.shifts.quiet hquiet) hx
  | @note event next hevent _ ih =>
    exact ih (fun q h => hstarts q (.note h)) (hok.noted event) hquiet hx
  | @probe label p pos hshape =>
    have hx : Part.probed label (exec limit ctx p) pos run = some x := hx
    rw [Part.probed_eq] at hx
    obtain ⟨y, hy, -⟩ := Option.map_eq_some_iff.1 hx
    obtain ⟨m, c, hc⟩ := hattempt hview hheld
      (hrealm.closed.part hr (by simp [hshape, Shape.parts]))
      (fun q h => hstarts q (.probe h)) hplain hok hquiet hy
    exact ⟨m, c, hc⟩

end Scripts

/-- Where nothing can be replayed, an attempt that ends has the recognizer work, in a
state in which nothing can be replayed either. -/
theorem works_of_quiet {attempt : Attempt V α} {limit : Nat} {ctx : Context V α}
    {r : Recognizer V α} {pos : Position} {run : Run V α} {x : Ending V α × Run V α}
    (hok : Sound base J run) (hquiet : Quiet J run.session)
    (hx : r.attempt attempt limit ctx pos run = some x) :
    ∃ start y, Sound base J start ∧ Quiet J start.session ∧
      r.work attempt limit ctx pos start = some y := by
  have hok₀ : Sound base J (run.noted (.called r.handle pos run.ordinal?)) := hok.noted _
  rw [Recognizer.attempt_eq] at hx
  obtain ⟨z, hz, -⟩ := Option.map_eq_some_iff.1 hx
  have huncached : r.work attempt limit ctx pos
      ((run.noted (.called r.handle pos run.ordinal?)).noted (.worked r.handle pos)) = some z →
      ∃ start y, Sound base J start ∧ Quiet J start.session ∧
        r.work attempt limit ctx pos start = some y :=
    fun hz => ⟨_, z, hok₀.noted _, hquiet, hz⟩
  cases hcaching : r.handle.caching with
  | never =>
    rw [hcaching] at hz
    exact huncached hz
  | paused s =>
    rw [hcaching] at hz
    exact huncached hz
  | active s =>
    rw [hcaching, Act.through] at hz
    cases hses : (run.noted (.called r.handle pos run.ordinal?)).session with
    | none =>
      rw [Act.throughStore_no_session _ _ hses] at hz
      exact huncached hz
    | some ses =>
      have hnone : Act.replay? (run.noted (.called r.handle pos run.ordinal?)) s ses = none := by
        have hplayback := hquiet _ hok.allowed s 0
        have hses : run.session = some ses := hses
        rw [hses] at hplayback
        exact hplayback
      rw [Act.throughStore_of_build hses hnone, Act.note_then] at hz
      obtain ⟨y, hy, -⟩ := Option.map_eq_some_iff.1 hz
      have hbusy : ses.reserve.beginBuilding.building ≠ 0 := Nat.succ_ne_zero _
      have hok₁ : Sound base J ((run.noted (.called r.handle pos run.ordinal?)).withSession
          (some ses.reserve.beginBuilding)) := hok₀.withSession hses rfl
      exact ⟨_, y, hok₁.noted _, quiet_building hbusy, hy⟩

/-- A script that has a course shows that its recognizer has one, with a limit that is
great enough for both. -/
theorem exists_workCourse_of_script (hrealm : Realm bodies base P) {handle : Handle}
    {shape : Shape V α (Recognizer V α)} (hr : P (.node handle shape)) {limit m : Nat}
    {st : Setting V} {pos : Position} {w : Course V α}
    (hw : (shape.script limit st.toView pos).course (course base.target m) st = some w) :
    ∃ m' w', (Recognizer.node handle shape).workCourse base.target (course base.target m') m' st
      pos = some w' := by
  -- a greater limit lengthens the script where it was cut off, and nowhere else
  have hle : limit ≤ max limit m := Nat.le_max_left _ _
  have halike : Script.Alike shape.parts (fun _ => True) True True
      (shape.script limit st.toView pos) (shape.script (max limit m) st.toView pos) :=
    Script.alike_script hle rfl (fun _ => rfl) (.inl rfl) (fun _ _ _ => trivial)
      (fun _ => .inl rfl) pos
  have hmono : ∀ p ∈ shape.parts, ∀ st pos c, course base.target m st p pos = some c →
      ∃ c', course base.target (max limit m) st p pos = some c' ∧
        Course.Alike True True (fun _ => True) c c' := by
    intro p hp st pos c hc
    exact ⟨c, course_mono hrealm.closed hrealm.steady (Nat.le_max_right _ _)
      (hrealm.closed.part hr hp) hc, .refl c⟩
  obtain ⟨w', hw', -⟩ := halike.course (fun p hp pos c hc => hmono p hp _ pos c hc)
    (fun p hp input c hc => by
      obtain ⟨c', hc', hsame⟩ := hmono p hp _ _ c hc
      exact ⟨c', hc', hsame.ending⟩) hw
  exact ⟨max limit m, w', hw'⟩

/-- Where nothing can be replayed, an attempt that ends has a course. -/
theorem exists_course (hrealm : Realm bodies base P) (hregime : Regime base.target P starts J)
    {limit : Nat} {st : Setting V} {ctx : Context V α} {r : Recognizer V α} {pos : Position}
    {run : Run V α} {x : Ending V α × Run V α} (hview : ctx.view = st.toView)
    (hheld : ∀ h ∈ ctx.held, base.Keeps h) (hr : P r)
    (hstarts : ∀ q, Nests base.target st r pos q → starts q) (hplain : st.IsPlain)
    (hok : Sound base J run) (hquiet : Quiet J run.session)
    (hx : exec limit ctx r pos run = some x) : ∃ m c, course base.target m st r pos = some c := by
  induction limit generalizing st ctx r pos run x with
  | zero => cases hx
  | succ limit ih =>
    obtain ⟨start, y, hokstart, hquietstart, hy⟩ := works_of_quiet hok hquiet hx
    suffices hwork : ∀ inner : Setting V, ctx.view = inner.toView → inner.IsPlain →
        (∀ q, r.WorkNests base.target inner pos q → starts q) →
        ∃ m w, r.workCourse base.target (course base.target m) m inner pos = some w by
      have hbelow : ctx.view = (st.below r.handle.caching).toView ∧
          (st.below r.handle.caching).IsPlain := by
        cases r.handle.caching with
        | active s =>
          refine ⟨?_, st.isPlain_within s⟩
          show ctx.view = (st.within s).toView
          rw [hview, Setting.within_toView (hplain s)]
        | never => exact ⟨hview, hplain⟩
        | paused s => exact ⟨hview, hplain⟩
      obtain ⟨m, w, hw⟩ := hwork _ hbelow.1 hbelow.2 fun q h => hstarts q (.of_work h)
      exact ⟨m + 1, _, course_succ_eq_some.2 ⟨w, hw, rfl⟩⟩
    intro inner hinner hplain' hnests
    cases r with
    | link handle l =>
      obtain ⟨found, run', hfollow, hok', hmoves, htarget, hctx⟩ :
          ∃ found run', Act.follow ctx l start = some (.ok found, run') ∧ Sound base J run' ∧
            Moves J False start run' [] ∧ found.map Prod.snd = base.target l ∧
            ∀ x ∈ found, x.1.view = ctx.view ∧ ∀ h ∈ x.1.held, base.Keeps h :=
        follow_moves hrealm hr hheld hokstart
      simp only [Recognizer.workCourse]
      rw [← htarget]
      cases found with
      | none => exact ⟨0, _, rfl⟩
      | some z =>
        obtain ⟨hview', hheld'⟩ := hctx z rfl
        rw [Recognizer.work_link_some hfollow] at hy
        exact ih (hview'.trans hinner) hheld' (hrealm.closed.target hr htarget.symm)
          (fun q h => hnests q ⟨_, htarget.symm, h⟩) hplain' hok'
            (hmoves.shifts.quiet hquietstart) hy
    | node handle shape =>
      have hy : shape.attempt (exec limit) limit ctx pos start = some y := hy
      rw [← Script.play_script, hinner] at hy
      obtain ⟨m, w, hw⟩ := exists_script_course hrealm hregime ih hinner hheld hplain' hr
        (Script.within_script _ _ _ _) (fun q h => hnests q ⟨limit, h⟩) hokstart hquietstart hy
      exact exists_workCourse_of_script hrealm hr hw

end SlotGrammar
