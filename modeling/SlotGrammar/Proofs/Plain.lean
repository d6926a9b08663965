import SlotGrammar.Proofs.Parses

/-!
# Plain runs

A plain run ignores every cache.  A run with frozen values ignores the caches too, and
evaluates each cached call that is not inside another one with values that go with
the store of the call.  Such runs mirror courses: they end when there is a course, and
as the course does.

Main results:

- Theorem `execPlain_mirrors`: plain attempts mirror courses.
- Theorem `execFrozen_mirrors`: attempts with frozen values mirror courses.
-/

namespace SlotGrammar

variable {V α : Type}

/-! ## Runs that ignore caches -/

/-- Attempts a recognizer with a limit on the nesting of attempts, all caches ignored. -/
def execPlain : Nat → Attempt V α
  | 0, _, _, _ => Act.exhausted
  | limit + 1, ctx, r, pos => r.work (execPlain limit) limit ctx pos

/-- Attempts a recognizer with all caches ignored.  The values that a call through a
store sees, with all below it, are those that go with the store. -/
def execFrozen (frozen : StoreId → List V) : Nat → Attempt V α
  | 0, _, _, _ => Act.exhausted
  | limit + 1, ctx, r, pos =>
    match r.handle.caching with
    | .active s => r.work (execPlain limit) limit { ctx with values := frozen s } pos
    | _ => r.work (execFrozen frozen limit) limit ctx pos

namespace Grammar

/-- Parses an input from its start with all caches ignored. -/
def parsePlain? (g : Grammar V α) (limit : Nat) (root : Recognizer V α) (input : Fragments)
    (values : List V) (options : ParseOptions) : Option (Report V α) :=
  let ctx : Context V α := ⟨input, values, options, [root]⟩
  (Act.inSession ctx root (execPlain limit ctx root .start)).report? g

/-- Parses an input from its start with all caches ignored, and with values of their own
for the calls through each store. -/
def parseFrozen? (g : Grammar V α) (frozen : StoreId → List V) (limit : Nat)
    (root : Recognizer V α) (input : Fragments) (values : List V) (options : ParseOptions) :
    Option (Report V α) :=
  let ctx : Context V α := ⟨input, values, options, [root]⟩
  (Act.inSession ctx root (execFrozen frozen limit ctx root .start)).report? g

end Grammar

/-! ## Mirroring a course -/

/-- Whether an action mirrors a course, from every later state of a grammar: it ends
when there is a course, and as the course does. -/
def Mirrors (base : Grammar V α) (act : Act V α (Outcome V α)) (c : Option (Course V α)) : Prop :=
  ∀ run : Run V α, base.Later run.grammar →
    (act run).map Prod.fst = c.map Course.ending ∧ ∀ x ∈ act run, base.Later x.2.grammar

section Mirroring

variable {base : Grammar V α} {act act' : Act V α (Outcome V α)} {c c' : Option (Course V α)}

/-- What an action that mirrors a course comes to from a state. -/
theorem Mirrors.apply (h : Mirrors base act c) {run : Run V α} (hlater : base.Later run.grammar) :
    (c = none ∧ act run = none) ∨ ∃ d run', c = some d ∧ act run = some (d.ending, run') ∧
      base.Later run'.grammar := by
  obtain ⟨hending, hframe⟩ := h run hlater
  cases hact : act run with
  | none =>
    rw [hact] at hending
    cases c with
    | none => exact .inl ⟨rfl, rfl⟩
    | some d => cases hending
  | some x =>
    rw [hact] at hending hframe
    cases c with
    | none => cases hending
    | some d =>
      obtain ⟨ending, run'⟩ := x
      cases hending
      exact .inr ⟨d, run', rfl, rfl, hframe _ rfl⟩

/-- An action that comes to the same, in a later state, mirrors the same. -/
theorem Mirrors.of_step (f : Run V α → Run V α) (hstep : ∀ run, act run = act' (f run))
    (hlater : ∀ run, base.Later run.grammar → base.Later (f run).grammar)
    (h : Mirrors base act' c) : Mirrors base act c := by
  intro run hrun
  rw [hstep]
  exact h _ (hlater run hrun)

/-- An action that goes on after looking at how a part ended mirrors the part and what
follows it. -/
theorem Mirrors.bind {next : Ending V α → Act V α (Outcome V α)}
    {rest : Course V α → Option (Course V α)} (h : Mirrors base act c)
    (hnext : ∀ d, Mirrors base (next d.ending) (rest d)) :
    Mirrors base (act.attempt >>= next) (c.bind rest) := by
  intro run hrun
  rw [Act.bind_apply, Act.attempt_apply]
  rcases h.apply hrun with ⟨rfl, hact⟩ | ⟨d, run', rfl, hact, hrun'⟩
  · rw [hact]
    exact ⟨rfl, by simp⟩
  · rw [hact]
    exact hnext d run' hrun'

/-- The marks of a course do not count. -/
theorem Mirrors.map (h : Mirrors base act c) {f : Course V α → Course V α}
    (hf : ∀ d, (f d).ending = d.ending) : Mirrors base act (c.map f) := by
  intro run hrun
  refine ⟨?_, (h run hrun).2⟩
  rw [(h run hrun).1, Option.map_map]
  exact congrFun (congrArg Option.map (funext fun d => (hf d).symm)) c

/-- A parse mirrors what the attempt of its root mirrors. -/
theorem Mirrors.inSession (h : Mirrors base act c) (ctx : Context V α) (root : Recognizer V α) :
    Mirrors base (Act.inSession ctx root act) c := by
  intro run hrun
  have hopened : base.Later (run.opened ctx root).grammar := by
    unfold Run.opened
    split
    · exact hrun.onStores run.grammar.stores _
    · exact hrun
  rw [Act.inSession_eq]
  rcases h.apply hopened with ⟨rfl, hact⟩ | ⟨d, run', rfl, hact, hrun'⟩
  · rw [hact]
    exact ⟨rfl, by simp⟩
  · rw [hact]
    refine ⟨rfl, ?_⟩
    intro x hx
    cases hx
    show base.Later (run'.closed run.session d.ending).grammar
    unfold Run.closed
    split
    · exact hrun'.onStores _ run'.grammar.nextSession
    · exact hrun'

/-- A script mirrors its course when the attempts in it do. -/
theorem mirrors_play {guide : Guide V α} {st : Setting V} {attempt : Attempt V α}
    {ctx : Context V α} {shape : Shape V α (Recognizer V α)}
    (hcall : ∀ p ∈ shape.parts, ∀ pos, Mirrors base (attempt ctx p pos) (guide st p pos))
    (hnest : ∀ sub p, shape = .nested sub p →
      Mirrors base (attempt (ctx.inside sub p) p .start) (guide (st.nested sub) p .start))
    {script : Script V α} (hscript : script.Within shape) :
    Mirrors base (script.play attempt ctx) (script.course guide st) := by
  induction hscript with
  | ended ending =>
    intro run hrun
    show (Act.endAs ending run).map Prod.fst = _ ∧ ∀ x ∈ Act.endAs ending run, _
    rw [Act.endAs_apply]
    refine ⟨rfl, ?_⟩
    intro x hx
    cases hx
    exact hrun
  | exhausted =>
    intro run _
    exact ⟨rfl, by simp [Script.play]⟩
  | @call p pos next hp _ _ ih =>
    exact (hcall p hp pos).bind fun d => (ih d.ending).map fun _ => rfl
  | @nest sub p next hshape _ ih =>
    exact ((hnest sub p hshape).inSession _ p).bind fun d => ih d.ending
  | @clear t p next _ _ ih =>
    refine .of_step (fun run => { run with grammar := run.grammar.dropTraces t })
      (fun _ => rfl) ?_ ih
    intro run hrun
    show base.Later (run.grammar.dropTraces t)
    unfold Grammar.dropTraces
    split
    · exact hrun.onStores _ run.grammar.nextSession
    · exact hrun
  | @note event next _ _ ih =>
    exact .of_step (fun run => run.noted event) (fun _ => rfl) (fun _ hrun => hrun) ih
  | @probe label p pos hshape =>
    intro run hrun
    show (Part.probed label (attempt ctx p) pos run).map Prod.fst = _ ∧
      ∀ x ∈ Part.probed label (attempt ctx p) pos run, _
    rw [Part.probed_eq]
    obtain ⟨hending, hframe⟩ := hcall p (by simp [hshape, Shape.parts]) pos run hrun
    refine ⟨?_, ?_⟩
    · rw [Option.map_map]
      exact hending
    · intro x hx
      obtain ⟨y, hy, rfl⟩ := Option.map_eq_some_iff.1 hx
      exact hframe y hy

/-! ## Attempts -/

variable {bodies : Bodies V α} {P : Recognizer V α → Prop}

/-- What a recognizer does itself mirrors its course when the attempts in it do, in the
settings that a run can get into. -/
theorem work_mirrors (hrealm : Realm bodies base P) (S : Setting V → Prop)
    (hnested : ∀ handle sub p st, P (.node handle (.nested sub p)) → S st →
      S (st.nested sub))
    (attempt : Attempt V α) (guide : Guide V α) (limit : Nat)
    (hattempt : ∀ (st : Setting V) (ctx : Context V α) (r : Recognizer V α) (pos : Position),
      S st → ctx.view = st.toView → (∀ h ∈ ctx.held, base.Keeps h) → P r →
      Mirrors base (attempt ctx r pos) (guide st r pos))
    {st : Setting V} {ctx : Context V α} {r : Recognizer V α} {pos : Position} (hst : S st)
    (hview : ctx.view = st.toView) (hheld : ∀ h ∈ ctx.held, base.Keeps h) (hr : P r) :
    Mirrors base (r.work attempt limit ctx pos) (r.workCourse base.target guide limit st pos) := by
  cases r with
  | link handle l =>
    intro run hrun
    obtain ⟨hformed, hkeeps⟩ := hrealm.sound _ hr
    obtain ⟨found, deferrals, tallies, hfollow, hlater, htarget, hctx⟩ :=
      Act.follow_eq hrealm.formed hrealm.supplied hheld
        (fun k hk => hkeeps k ((hformed _ .refl).holdsParts k hk)) hrun
    rw [Recognizer.workCourse, ← htarget]
    cases found with
    | none =>
      rw [Recognizer.work_link_none hfollow]
      refine ⟨rfl, ?_⟩
      intro x hx
      cases hx
      exact hlater
    | some x =>
      obtain ⟨hview', hheld'⟩ := hctx x rfl
      rw [Recognizer.work_link_some hfollow]
      exact hattempt _ _ _ _ hst (hview'.trans hview) hheld'
        (hrealm.closed.target hr htarget.symm) _ hlater
  | node handle shape =>
    show Mirrors base (shape.attempt attempt limit ctx pos) _
    rw [← Script.play_script, hview]
    refine mirrors_play ?_ ?_ (Script.within_script _ _ _ _)
    · intro p hp pos
      exact hattempt _ _ _ _ hst hview hheld (hrealm.closed.part hr hp)
    · rintro sub p rfl
      have hp : P p := hrealm.closed.part hr (List.mem_singleton.2 rfl)
      exact hattempt _ _ _ _ (hnested _ _ _ _ hr hst) (Context.view_inside hview sub p)
        (hrealm.keeps_cons hp hheld) hp

/-- Plain attempts mirror courses in which every call sees the values of the parse. -/
theorem execPlain_mirrors (hrealm : Realm bodies base P) (limit : Nat) {st : Setting V}
    {ctx : Context V α} {r : Recognizer V α} {pos : Position} (hplain : st.IsPlain)
    (hview : ctx.view = st.toView) (hheld : ∀ h ∈ ctx.held, base.Keeps h) (hr : P r) :
    Mirrors base (execPlain limit ctx r pos) (course base.target limit st r pos) := by
  induction limit generalizing st ctx r pos with
  | zero =>
    intro run _
    exact ⟨rfl, by simp [execPlain]⟩
  | succ limit ih =>
    have hwork : ∀ {inner : Setting V}, inner.IsPlain → ctx.view = inner.toView →
        Mirrors base (r.work (execPlain limit) limit ctx pos)
          (r.workCourse base.target (course base.target limit) limit inner pos) :=
      fun hinner hview => work_mirrors hrealm Setting.IsPlain
        (fun _ _ _ _ _ _ => Setting.isPlain_plain _) (execPlain limit) (course base.target limit)
        limit (fun _ _ _ _ hst => ih hst) hinner hview hheld hr
    rw [course_succ]
    refine Mirrors.map ?_ fun d => d.around_ending _ _
    cases hcaching : r.handle.caching with
    | active s =>
      refine hwork (st.isPlain_within s) ?_
      show ctx.view = (st.within s).toView
      rw [Setting.within_toView (hplain s), hview]
    | never => exact hwork hplain hview
    | paused s => exact hwork hplain hview

/-- Attempts with frozen values mirror courses with these values. -/
theorem execFrozen_mirrors (hrealm : Realm bodies base P)
    (hnested : ∀ handle sub p, ¬ P (.node handle (.nested sub p))) (limit : Nat)
    {st : Setting V} {ctx : Context V α} {r : Recognizer V α} {pos : Position}
    (hview : ctx.view = st.toView) (hheld : ∀ h ∈ ctx.held, base.Keeps h) (hr : P r) :
    Mirrors base (execFrozen st.frozen limit ctx r pos) (course base.target limit st r pos) := by
  generalize hfrozen : st.frozen = frozen
  induction limit generalizing st ctx r pos with
  | zero =>
    intro run _
    exact ⟨rfl, by simp [execFrozen]⟩
  | succ limit ih =>
    rw [course_succ]
    refine Mirrors.map ?_ fun d => d.around_ending _ _
    have hinactive : r.handle.caching.isActive = false →
        Mirrors base (r.work (execFrozen frozen limit) limit ctx pos)
          (r.workCourse base.target (course base.target limit) limit st pos) := fun _ =>
      work_mirrors hrealm (fun st => st.frozen = frozen)
        (fun handle sub p _ h => absurd h (hnested handle sub p)) (execFrozen frozen limit)
        (course base.target limit) limit
        (fun _ _ _ _ hst hview hheld hr => ih hview hheld hr hst) hfrozen hview hheld hr
    unfold execFrozen
    cases hcaching : r.handle.caching with
    | active s =>
      have hinner : Context.view { ctx with values := frozen s } = (st.within s).toView := by
        show (⟨ctx.input, frozen s, ctx.options.errorWindow⟩ : View V) =
          ⟨st.input, st.frozen s, st.window⟩
        rw [hfrozen, show ctx.input = st.input from congrArg View.input hview,
          show ctx.options.errorWindow = st.window from congrArg View.window hview]
      exact work_mirrors hrealm Setting.IsPlain (fun _ _ _ _ _ _ => Setting.isPlain_plain _)
        (execPlain limit) (course base.target limit) limit
        (fun _ _ _ _ => execPlain_mirrors hrealm limit) (st.isPlain_within s) hinner hheld hr
    | never => exact hinactive (by rw [hcaching]; rfl)
    | paused s => exact hinactive (by rw [hcaching]; rfl)

end Mirroring

end SlotGrammar
