import SlotGrammar.Proofs.Lazy.Freezing

/-!
# Alignment of ordinals in lazily built grammars

Two parses of one root and input with caching attempt the same recognizers outside every
cached one, at the same positions and with the ordinal at the same count.  What was built on
the way to them is the same as well, though it may have been built in another order and so
have other numbers.

Main results:

- Theorem `momentsOf_matches`: matching tracks tell of matching moments.
- Theorem `Leads.parse?_aligned`: two parses of one root and input are aligned.
-/

namespace SlotGrammar

variable {V α : Type}

/-! ## Moments up to numbers -/

/-- Whether two moments are the same, for matching handles. -/
inductive Moment.Matches (M : Matching) : Moment → Moment → Prop where
  | entered {handle handle' : Handle} {pos : Position} {ordinal : Option Nat}
      (h : handle.Matches M handle') :
      Matches M (.entered handle pos ordinal) (.entered handle' pos ordinal)
  | left {handle handle' : Handle} {pos : Position} {ordinal : Option Nat}
      (h : handle.Matches M handle') :
      Matches M (.left handle pos ordinal) (.left handle' pos ordinal)

/-- Matching marks tell of matching moments. -/
theorem momentsOf_matches {M : Matching} {marks marks' : List (Mark V α)}
    (h : List.Forall₂ (Mark.Matches M) marks marks') (ordinal : Option Nat) :
    List.Forall₂ (Moment.Matches M) (momentsOf ordinal marks) (momentsOf ordinal marks') := by
  induction h generalizing ordinal with
  | nil => exact .nil
  | cons hmark _ ih =>
    cases hmark with
    | entered hhandle => exact .cons (.entered hhandle) (ih ordinal)
    | left hhandle hslots =>
      rw [momentsOf, momentsOf, hslots.length_eq]
      exact .cons (.left hhandle) (ih _)

/-- Events that tell of what was built are no moments. -/
theorem Event.outermost_untallied (depth : Nat) (events : List (Event V α)) :
    outermost depth (untallied events) = outermost depth events := by
  induction events generalizing depth with
  | nil => rfl
  | cons event events ih =>
    cases event with
    | called handle pos ordinal => exact congrArg (Moment.seenAt depth _ ++ ·) (ih _)
    | replied handle pos ordinal ending => exact congrArg (Moment.seenAt _ _ ++ ·) (ih _)
    | _ => exact ih depth

namespace Grammar

section Histories

variable {T : Shape V α Unit → Prop} {g g' h : Grammar V α} {steps : List (Step V α)}
  {q : Query V α} {limit : Nat} (hleads : g.Leads steps g') (hg : g.Tidy T)
  (hkind : ∀ shape : Shape V α (Recognizer V α), T shape.outline → shape.Orderly)
  (hasked : ∀ p ∈ q :: asked steps, p.root ∈ g.names.values)

include hleads hg hkind hasked

/-- A grammar is unfolded by a history of parses from names. -/
theorem Leads.unfolds : g.Unfolds g'.bare :=
  (hg.leads_sealed (fun shape h => (hkind shape h).contained) hleads
    fun p hp => hasked p (List.mem_cons_of_mem _ hp)).1

variable (hmodes : ∀ p ∈ q :: asked steps, ∀ p' ∈ q :: asked steps,
  p.root.handle.id = p'.root.handle.id → p.root.isCached = p'.root.isCached)

include hmodes

/-- After a history in which the parses of one recognizer all go through a cache or all do not,
the values of some parses are frozen, whatever more is built. -/
theorem Leads.exists_recorded_sealed (hh : g'.bare.Unfolds h) :
    h.sealed.OrderlyFrom (· ∈ g.names.values) ∧
      ∃ bodies, Realm bodies h.sealed (h.sealed.Reachable (· ∈ g.names.values)) ∧
        (∀ r, IsRootOf (q :: asked steps) r → h.sealed.Reachable (· ∈ g.names.values) r) ∧
        ∃ F, Recorded h.sealed (IsRootOf (q :: asked steps)) F (g'.onto h.sealed) := by
  obtain ⟨hunfolds, hsealed⟩ := hg.leads_sealed (fun shape h => (hkind shape h).contained) hleads
    fun p hp => hasked p (List.mem_cons_of_mem _ hp)
  obtain ⟨horderly, bodies, hrealm⟩ := hg.realm hkind (hunfolds.trans hh)
  exact ⟨horderly, bodies, hrealm, (hsealed h hh).exists_recorded hrealm horderly hasked hmodes⟩

variable (hcache : q.options.cache = true) (st : Setting V) (hinput : st.input = q.input)

include hcache hinput

/-- A parse that ends makes the attempts of a course in any setting, wherever all that it comes
to has been built. -/
theorem Leads.course_of_outermost {report : Report V α}
    (hreport : q.parse? g' limit = some report) :
    g'.bare.Unfolds report.grammar.bare ∧ ∀ h, report.grammar.bare.Unfolds h →
      ∃ n c, course h.sealed.target n st q.root .start = some c ∧
        Event.outermost 0 report.events = momentsOf (some 0) c.track := by
  obtain ⟨hm, hshadow⟩ := (q.parse?_foretold (fun shape h => (hkind shape h).contained) hg
    (hg.whole.names _ (hasked q List.mem_cons_self)) (hleads.unfolds hg hkind hasked)
      limit).exists_shadow hreport
  refine ⟨hm, fun h hh => ?_⟩
  obtain ⟨shadow, hparse, hshadow⟩ := hshadow h hh
  obtain ⟨horderly, bodies, hrealm, hreached, F, hrecorded⟩ :=
    hleads.exists_recorded_sealed hg hkind hasked hmodes (hm.trans hh)
  obtain ⟨n, c, hc, htold⟩ := hrecorded.course_of_outermost hrealm horderly hreached
    ⟨q, List.mem_cons_self, rfl⟩ hcache st hinput hparse
  refine ⟨n, c, hc, ?_⟩
  rw [← htold, ← Event.outermost_untallied, ← hshadow.events, Event.outermost_untallied]

/-- A parse ends when there is a course in some setting wherever enough has been built. -/
theorem Leads.exists_report_of_courses (hc : ∀ m, g'.bare.Unfolds m → ∃ b c, m.Unfolds b ∧
    course b.sealed.target limit st q.root .start = some c) :
    ∃ report, q.parse? g' limit = some report := by
  obtain ⟨report, hreport, -⟩ := (q.parse?_foretold (fun shape h => (hkind shape h).contained) hg
    (hg.whole.names _ (hasked q List.mem_cons_self)) (hleads.unfolds hg hkind hasked)
      limit).exists_report (P := fun _ => True) fun m hm => by
        obtain ⟨b, c, hb, hc⟩ := hc m hm
        obtain ⟨horderly, bodies, hrealm, hreached, F, hrecorded⟩ :=
          hleads.exists_recorded_sealed hg hkind hasked hmodes (hm.trans hb)
        obtain ⟨shadow, hshadow, -⟩ := hrecorded.outermost_of_course hrealm horderly hreached
          ⟨q, List.mem_cons_self, rfl⟩ hcache hinput hc
        exact ⟨b, hb, shadow, hshadow, trivial⟩
  exact ⟨report, hreport⟩

end Histories

/-- Two parses of one root and input with caching, after any two histories and with any
values, make the same attempts outside every cached recognizer, at the same positions and
with the same ordinals before and after.  They are the same up to the numbers of what was
built on the way: whatever the first history and parse have built, the second ones have or
would build when they go on.  Where the second history goes on from the first parse, these
numbers are the same.  Wherever a cached call does not raise, it moves the ordinal by one. -/
theorem Leads.parse?_aligned {g g₁ g₂ : Grammar V α} {steps₁ steps₂ : List (Step V α)}
    (hleads₁ : g.Leads steps₁ g₁) (hleads₂ : g.Leads steps₂ g₂) {q₁ q₂ : Query V α}
    (hg : g.BuiltOf Shape.Orderly) (hroot : q₁.root = q₂.root) (hinput : q₁.input = q₂.input)
    (hcache₁ : q₁.options.cache = true) (hcache₂ : q₂.options.cache = true)
    (hasked₁ : ∀ p ∈ q₁ :: asked steps₁, p.root ∈ g.names.values)
    (hasked₂ : ∀ p ∈ q₂ :: asked steps₂, p.root ∈ g.names.values)
    (hmodes₁ : ∀ p ∈ q₁ :: asked steps₁, ∀ p' ∈ q₁ :: asked steps₁,
      p.root.handle.id = p'.root.handle.id → p.root.isCached = p'.root.isCached)
    (hmodes₂ : ∀ p ∈ q₂ :: asked steps₂, ∀ p' ∈ q₂ :: asked steps₂,
      p.root.handle.id = p'.root.handle.id → p.root.isCached = p'.root.isCached) :
    (∀ limit report, q₁.parse? g₁ limit = some report →
      ∃ limit' report', q₂.parse? g₂ limit' = some report') ∧
    (∀ limit₁ limit₂ report₁ report₂, q₁.parse? g₁ limit₁ = some report₁ →
      q₂.parse? g₂ limit₂ = some report₂ →
      (∃ b M, report₂.grammar.bare.Unfolds b ∧ Matching.below g ≤ M ∧ M.OneToOne ∧
        report₁.grammar.bare.Includes Shape.Orderly M b ∧
        List.Forall₂ (Moment.Matches M) (Event.outermost 0 report₁.events)
          (Event.outermost 0 report₂.events)) ∧
      ∀ steps, report₁.grammar.Leads steps g₂ → (∀ p ∈ asked steps, p.root ∈ g.names.values) →
        List.Forall₂ (Moment.Matches (.below report₁.grammar))
          (Event.outermost 0 report₁.events) (Event.outermost 0 report₂.events)) ∧
    ∀ (limit : Nat) (ctx : Context V α) (r : Recognizer V α) (pos : Position) (run run' : Run V α)
      (n : Nat) (o : Outcome V α), r.isCached = true → run.ordinal? = some n →
      exec limit ctx r pos run = some (.ok o, run') → run'.ordinal? = some (n + 1) := by
  have hkind : ∀ shape : Shape V α (Recognizer V α), shape.outline.Orderly → shape.Orderly :=
    fun _ => Shape.orderly_outline.1
  have hnative := hg.tidy.whole.names _ (hasked₁ q₁ List.mem_cons_self)
  have hunfolds₁ := hleads₁.unfolds hg.tidy hkind hasked₁
  have hunfolds₂ := hleads₂.unfolds hg.tidy hkind hasked₂
  -- both parses make the attempts of a course in the setting of the second one
  have hfirst := fun limit report (hreport : q₁.parse? g₁ limit = some report) =>
    hleads₁.course_of_outermost hg.tidy hkind hasked₁ hmodes₁ hcache₁ q₂.setting hinput.symm hreport
  have hsecond := fun limit report (hreport : q₂.parse? g₂ limit = some report) =>
    hleads₂.course_of_outermost hg.tidy hkind hasked₂ hmodes₂ hcache₂ q₂.setting rfl hreport
  refine ⟨?_, ?_, fun _ _ _ _ _ _ _ _ hcached hn h => exec_of_cached hcached h hn⟩
  · intro limit report hreport
    obtain ⟨ha, hcourse⟩ := hfirst limit report hreport
    obtain ⟨n, c, hc, -⟩ := hcourse _ .refl
    refine ⟨n, hleads₂.exists_report_of_courses hg.tidy hkind hasked₂ hmodes₂ hcache₂
      q₂.setting rfl fun m hm => ?_⟩
    obtain ⟨b, M, c', hb, -, -, hc', -⟩ :=
      hg.tidy.exists_course (hunfolds₁.trans ha) hnative hc (hunfolds₂.trans hm)
    exact ⟨b, c', hb, hroot ▸ hc'⟩
  · intro limit₁ limit₂ report₁ report₂ hreport₁ hreport₂
    obtain ⟨ha, hcourse⟩ := hfirst limit₁ report₁ hreport₁
    obtain ⟨n, c, hc, htold⟩ := hcourse _ .refl
    obtain ⟨hm, hcourse'⟩ := hsecond limit₂ report₂ hreport₂
    -- the course of the first parse is that of the second one once enough has been built
    have hmoments : ∀ {b M}, report₂.grammar.bare.Unfolds b → q₁.root.Matches Shape.Orderly M
        q₁.root → report₁.grammar.bare.Includes Shape.Orderly M b →
        List.Forall₂ (Moment.Matches M) (Event.outermost 0 report₁.events)
          (Event.outermost 0 report₂.events) := by
      intro b M hb hmatches hincludes
      obtain ⟨c', hc', hmatch⟩ := hincludes.course (.plain _) hmatches hc
      obtain ⟨n', d, hd, htold'⟩ := hcourse' b hb
      obtain ⟨-, bodies, hrealm⟩ := hg.tidy.realm hkind (hunfolds₂.trans (hm.trans hb))
      cases course_unique hrealm.closed hrealm.steady
        (.root (hasked₂ q₂ List.mem_cons_self)) hd (hroot ▸ hc')
      rw [htold, htold']
      exact momentsOf_matches hmatch.track (some 0)
    constructor
    · obtain ⟨b, M, hb, hle, hone, hincludes⟩ :=
        hg.tidy.exists_includes (hunfolds₁.trans ha) (hunfolds₂.trans hm)
      exact ⟨b, M, hb, hle, hone, hincludes,
        hmoments hb (Recognizer.Matches.mono hle hnative) hincludes⟩
    · intro steps hsteps hasked
      obtain ⟨hlater, -⟩ := hsteps.foreseen (fun shape h => (hkind shape h).contained) hg.tidy
        (hunfolds₁.trans ha) fun p hp => hg.tidy.whole.names _ (hasked p hp)
      have htidy := hg.tidy.unfolds (hunfolds₁.trans ha)
      have hcount := (Precedes.unfolds hg.tidy (hunfolds₁.trans ha)).count_le
      have hsame := hmoments .refl (Recognizer.Native.mono hnative hcount)
        (htidy.includes (hlater.trans hm))
      rwa [below_bare] at hsame

/-- A parse that makes a store and one that replays what lies in it are aligned. -/
theorem slotPair_aligned : ∃ first second,
    (twoSlots 1 2).parse? slotPair.2 10 = some first ∧
    (first.grammar.stores.committed 0 (twoSlots 3 4).key 0).isSome = true ∧
    (twoSlots 3 4).parse? first.grammar 10 = some second ∧
    List.Forall₂ (Moment.Matches (.below first.grammar)) (Event.outermost 0 first.events)
      (Event.outermost 0 second.events) := by
  have hboth : ((twoSlots 1 2).parse? slotPair.2 10).any (fun first =>
      (first.grammar.stores.committed 0 (twoSlots 3 4).key 0).isSome &&
        ((twoSlots 3 4).parse? first.grammar 10).isSome) = true := by decide +kernel
  obtain ⟨first, hfirst, hboth⟩ := (Option.any_eq_true _ _).1 hboth
  obtain ⟨hcommitted, hsecond⟩ := Bool.and_eq_true_iff.1 hboth
  obtain ⟨second, hsecond⟩ := Option.isSome_iff_exists.1 hsecond
  have hleads : slotPair.2.Leads [.parse (twoSlots 1 2) first.ending] first.grammar :=
    .step .refl ⟨10, first, hfirst, rfl, rfl⟩
  have hroots : ∀ steps : List (Step Nat Nat), (∀ p ∈ asked steps, p = twoSlots 1 2) →
      ∀ a b, ∀ p ∈ twoSlots a b :: asked steps, p.root = slotPair.1 := by
    intro steps hsteps a b p hp
    rcases List.mem_cons.1 hp with rfl | hp
    · rfl
    · rw [hsteps p hp]
      rfl
  have hbefore := hroots [] (by simp [asked]) 1 2
  have hafter := hroots [.parse (twoSlots 1 2) first.ending] (by simp [asked, Step.query?]) 3 4
  have hroot : (twoSlots 1 2).root = (twoSlots 3 4).root := rfl
  have haligned := Leads.parse?_aligned .refl hleads
    (slotPair_built (fun _ _ _ _ => rfl) trivial trivial) hroot rfl rfl rfl
    (fun p hp => hbefore p hp ▸ slotPair_named) (fun p hp => hafter p hp ▸ slotPair_named)
    (fun p hp p' hp' _ => by rw [hbefore p hp, hbefore p' hp'])
    (fun p hp p' hp' _ => by rw [hafter p hp, hafter p' hp'])
  have hmoments := (haligned.2.1 10 10 first second hfirst hsecond).2 [] .refl (by simp [asked])
  exact ⟨first, second, hfirst, hcommitted, hsecond, hmoments⟩

end Grammar

end SlotGrammar
