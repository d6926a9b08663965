import SlotGrammar.Proofs.Lazy.Confluence
import SlotGrammar.Proofs.Lazy.Prospects

/-!
# Frozen values in lazily built grammars

After any history a parse ends as the plain run in which the outermost calls through a store
see the frozen values, whatever has been built on the way and in whatever order.

Main results:

- Theorem `Tidy.exists_course`: courses in plain settings are the same in other unfoldings.
- Theorem `Remembers.exists_courses`: so are courses with frozen values.
- Theorem `Leads.parse?_frozen`: a parse after a history sees the frozen values.
-/

namespace SlotGrammar

open Grammar

variable {V α : Type}

namespace Grammar

variable {T : Shape V α Unit → Prop} {g g' a b m : Grammar V α}

/-! ## Courses in other unfoldings -/

/-- A course is the same later on. -/
theorem Tidy.course_later (ha : a.Tidy T) (hb : a.Unfolds b) {limit : Nat} {st : Setting V}
    {r : Recognizer V α} (hr : r.Native T a) {pos : Position} {c : Course V α}
    (hc : course a.sealed.target limit st r pos = some c) :
    ∃ c', course b.sealed.target limit st r pos = some c' ∧ c.Matches (.below a) c' := by
  refine (ha.includes hb).course ⟨rfl, ?_⟩ hr hc
  rintro s _ ⟨rfl, -⟩
  rfl

/-- A course in a plain setting is the same, up to numbers, in every other unfolding once
enough has been built there. -/
theorem Tidy.exists_course (hg : g.Tidy T) (ha : g.Unfolds a) {limit : Nat} {view : View V}
    {r : Recognizer V α} (hr : r.Native T g) {pos : Position} {c : Course V α}
    (hc : course a.sealed.target limit view.plain r pos = some c) (hm : g.Unfolds m) :
    ∃ h M c', m.Unfolds h ∧ Matching.below g ≤ M ∧ M.OneToOne ∧
      course h.sealed.target limit view.plain r pos = some c' ∧ c.Matches M c' := by
  obtain ⟨h, M, hh, hle, hone, hincludes⟩ := hg.exists_includes ha hm
  obtain ⟨c', hc', hmatch⟩ := hincludes.course (.plain view) (Recognizer.Matches.mono hle hr) hc
  exact ⟨h, M, c', hh, hle, hone, hc', hmatch⟩

/-! ## What is remembered -/

/-- Whether a grammar that was unfolded on the way from a tidy one holds what was computed
with frozen values, whatever more is built. -/
structure Remembers (T : Shape V α Unit → Prop) (g : Grammar V α) (roots : Recognizer V α → Prop)
    (F : FrozenValues V) (g' : Grammar V α) : Prop where
  tidy : g.Tidy T
  orderly : ∀ shape : Shape V α (Recognizer V α), T shape.outline → shape.Orderly
  unfolds : g.Unfolds g'.bare
  named : ∀ r, roots r → r ∈ g.names.values
  recorded : ∀ h, g'.bare.Unfolds h → Recorded h.sealed roots F (g'.onto h.sealed)

namespace Remembers

variable {roots : Recognizer V α → Prop} {F : FrozenValues V} {q : Query V α} {limit : Nat}

theorem contained (h : Remembers T g roots F g') (shape : Shape V α (Recognizer V α))
    (hshape : T shape.outline) : shape.Contained :=
  (h.orderly shape hshape).contained

theorem native (h : Remembers T g roots F g') {r : Recognizer V α} (hr : roots r) : r.Native T g :=
  h.tidy.whole.names r (h.named r hr)

/-- A parse ends when there is a course wherever enough has been built, and as the course
does. -/
theorem parse?_of_courses (h : Remembers T g roots F g') (hroot : roots q.root)
    {P : Ending V α → Prop} (hc : ∀ m, g'.bare.Unfolds m → ∃ b c, m.Unfolds b ∧
      course b.sealed.target limit (q.under F) q.root .start = some c ∧ P c.ending) :
    ∃ report, q.parse? g' limit = some report ∧ P report.ending := by
  refine (q.parse?_foretold h.contained h.tidy (h.native hroot) h.unfolds limit).exists_report ?_
  intro m hm
  obtain ⟨b, c, hb, hc, hP⟩ := hc m hm
  obtain ⟨horderly, bodies, hrealm⟩ := h.tidy.realm h.orderly (h.unfolds.trans (hm.trans hb))
  obtain ⟨shadow, hshadow, hending, -⟩ :=
    (h.recorded b (hm.trans hb)).parse?_of_course hrealm horderly
      (fun r hr => .root (h.named r hr)) hroot hc
  exact ⟨b, hb, shadow, hshadow, hending ▸ hP⟩

/-- A parse that ends has a course where all that it comes to has been built. -/
theorem course_of_parse? (h : Remembers T g roots F g') (hroot : roots q.root)
    {report : Report V α} (hreport : q.parse? g' limit = some report) :
    g'.bare.Unfolds report.grammar.bare ∧ ∃ n c,
      course report.grammar.bare.sealed.target n (q.under F) q.root .start = some c ∧
      report.ending = c.ending := by
  obtain ⟨hm, hshadow⟩ := (q.parse?_foretold h.contained h.tidy (h.native hroot) h.unfolds
    limit).exists_shadow hreport
  obtain ⟨shadow, hparse, hshadow⟩ := hshadow _ .refl
  obtain ⟨horderly, bodies, hrealm⟩ := h.tidy.realm h.orderly (h.unfolds.trans hm)
  obtain ⟨n, c, hc, -, hending⟩ := (h.recorded _ hm).course_of_parse? hrealm horderly
    (fun r hr => .root (h.named r hr)) hroot hparse
  exact ⟨hm, n, c, hc, hshadow.ending ▸ hending⟩

/-- A run with frozen values ends when there is a course wherever enough has been built, and
as the course does. -/
theorem frozen?_of_courses (h : Remembers T g roots F g') (hroot : roots q.root)
    {P : Ending V α → Prop} (hc : ∀ m, g'.bare.Unfolds m → ∃ b c, m.Unfolds b ∧
      course b.sealed.target limit (q.under F) q.root .start = some c ∧ P c.ending) :
    ∃ report, q.frozen? F g' limit = some report ∧ P report.ending := by
  refine (q.frozen?_foretold h.contained h.tidy (h.native hroot) h.unfolds F limit).exists_report ?_
  intro m hm
  obtain ⟨b, c, hb, hc, hP⟩ := hc m hm
  obtain ⟨horderly, bodies, hrealm⟩ := h.tidy.realm h.orderly (h.unfolds.trans (hm.trans hb))
  have hending := q.frozen?_ending hrealm horderly (h.recorded b (hm.trans hb)).sound.later
    (.root (h.named _ hroot)) F limit
  rw [hc] at hending
  obtain ⟨shadow, hshadow, hsame⟩ := Option.map_eq_some_iff.1 hending
  exact ⟨b, hb, shadow, hshadow, hsame ▸ hP⟩

/-- A run with frozen values that ends has a course where all that it comes to has been
built. -/
theorem course_of_frozen? (h : Remembers T g roots F g') (hroot : roots q.root)
    {report : Report V α} (hreport : q.frozen? F g' limit = some report) :
    g'.bare.Unfolds report.grammar.bare ∧ ∃ n c,
      course report.grammar.bare.sealed.target n (q.under F) q.root .start = some c ∧
      report.ending = c.ending := by
  obtain ⟨hm, hshadow⟩ := (q.frozen?_foretold h.contained h.tidy (h.native hroot) h.unfolds F
    limit).exists_shadow hreport
  obtain ⟨shadow, hparse, hshadow⟩ := hshadow _ .refl
  obtain ⟨horderly, bodies, hrealm⟩ := h.tidy.realm h.orderly (h.unfolds.trans hm)
  have hending := q.frozen?_ending hrealm horderly (h.recorded _ hm).sound.later
    (.root (h.named _ hroot)) F limit
  rw [hparse] at hending
  obtain ⟨c, hc, hsame⟩ := Option.map_eq_some_iff.1 hending.symm
  exact ⟨hm, limit, c, hc, hshadow.ending ▸ hsame.symm⟩

/-- A course with frozen values ends the same in every other unfolding once enough has been
built there. -/
theorem exists_courses (h : Remembers T g roots F g') (hroot : roots q.root)
    (ha : g'.bare.Unfolds a) {c : Course V α}
    (hc : course a.sealed.target limit (q.under F) q.root .start = some c) :
    ∃ n, ∀ m, g'.bare.Unfolds m → ∃ b c', m.Unfolds b ∧
      course b.sealed.target n (q.under F) q.root .start = some c' ∧ c'.ending = c.ending := by
  have htidy := h.tidy.unfolds h.unfolds
  have hnative : q.root.Native T g'.bare :=
    (h.native hroot).mono (Precedes.unfolds h.tidy h.unfolds).count_le
  rcases (h.recorded g'.bare .refl).course_or_quiet hroot with ⟨-, n, c₀, hc₀⟩ | ⟨hsetting, -⟩
  · -- all that the course comes to was built when its values were frozen
    refine ⟨n, fun m hm => ?_⟩
    obtain ⟨x, hx, hmatch⟩ := htidy.course_later ha hnative hc₀
    obtain ⟨y, hy, hmatch'⟩ := htidy.course_later hm hnative hc₀
    obtain ⟨horderly, bodies, hrealm⟩ := h.tidy.realm h.orderly (h.unfolds.trans ha)
    cases course_unique hrealm.closed hrealm.steady (.root (h.named _ hroot)) hc hx
    exact ⟨m, y, .refl, hy, hmatch'.ending.trans hmatch.ending.symm⟩
  · -- nothing is frozen for the parse
    refine ⟨limit, fun m hm => ?_⟩
    rw [hsetting] at hc ⊢
    obtain ⟨b, M, c', hb, -, -, hc', hmatch⟩ := htidy.exists_course ha hnative hc hm
    exact ⟨b, c', hb, hc', hmatch.ending⟩

end Remembers

/-! ## Plain runs -/

section Plain

variable {q : Query V α} {limit : Nat}
  (hkind : ∀ shape : Shape V α (Recognizer V α), T shape.outline → shape.Orderly)

include hkind

theorem Tidy.plain?_ending (hg : g.Tidy T) (hroot : q.root ∈ g.names.values) (hb : g.Unfolds b)
    (limit : Nat) :
    (q.plain? (g.onto b.sealed) limit).map Report.ending =
      (course b.sealed.target limit q.setting q.root .start).map Course.ending := by
  obtain ⟨-, bodies, hrealm⟩ := hg.realm hkind hb
  rw [hg.onto_sealed hb]
  exact q.plain?_ending hrealm (.refl _) (.root hroot) limit

/-- A plain run ends when there is a course wherever enough has been built, and as the course
does. -/
theorem Tidy.plain?_of_courses (hg : g.Tidy T) (hroot : q.root ∈ g.names.values)
    {P : Ending V α → Prop} (hc : ∀ m, g.Unfolds m → ∃ b c, m.Unfolds b ∧
      course b.sealed.target limit q.setting q.root .start = some c ∧ P c.ending) :
    ∃ report, q.plain? g limit = some report ∧ P report.ending := by
  refine (q.plain?_foretold (fun shape h => (hkind shape h).contained) hg
    (hg.whole.names _ hroot) hg.unfolds_bare limit).exists_report ?_
  intro m hm
  obtain ⟨b, c, hb, hc, hP⟩ := hc m (hg.unfolds_bare.trans hm)
  have hending := hg.plain?_ending hkind hroot (hg.unfolds_bare.trans (hm.trans hb)) limit
  rw [hc] at hending
  obtain ⟨shadow, hshadow, hsame⟩ := Option.map_eq_some_iff.1 hending
  exact ⟨b, hb, shadow, hshadow, hsame ▸ hP⟩

/-- A plain run that ends has a course where all that it comes to has been built. -/
theorem Tidy.course_of_plain? (hg : g.Tidy T) (hroot : q.root ∈ g.names.values)
    {report : Report V α} (hreport : q.plain? g limit = some report) :
    ∃ m c, g.Unfolds m ∧ course m.sealed.target limit q.setting q.root .start = some c ∧
      report.ending = c.ending := by
  obtain ⟨hm, hshadow⟩ := (q.plain?_foretold (fun shape h => (hkind shape h).contained) hg
    (hg.whole.names _ hroot) hg.unfolds_bare limit).exists_shadow hreport
  obtain ⟨shadow, hparse, hshadow⟩ := hshadow _ .refl
  have hending := hg.plain?_ending hkind hroot (hg.unfolds_bare.trans hm) limit
  rw [hparse] at hending
  obtain ⟨c, hc, hsame⟩ := Option.map_eq_some_iff.1 hending.symm
  exact ⟨_, c, hg.unfolds_bare.trans hm, hc, hshadow.ending ▸ hsame.symm⟩

end Plain

/-! ## Histories -/

/-- After a history of parses from names, in which those of one recognizer are all through one
handle, the frozen values are remembered. -/
theorem Leads.remembers {steps : List (Step V α)} (hleads : g.Leads steps g') (hg : g.Tidy T)
    (hkind : ∀ shape : Shape V α (Recognizer V α), T shape.outline → shape.Orderly) {q : Query V α}
    (hasked : ∀ p ∈ q :: asked steps, p.root ∈ g.names.values)
    (hone : ∀ p ∈ q :: asked steps, ∀ p' ∈ q :: asked steps,
      p.root.handle.id = p'.root.handle.id → p.root.handle = p'.root.handle) :
    Remembers T g (IsRootOf (q :: asked steps)) (frozenBy steps) g' := by
  have hnamed : ∀ r, IsRootOf (q :: asked steps) r → r ∈ g.names.values := by
    rintro _ ⟨p, hp, rfl⟩
    exact hasked p hp
  obtain ⟨hunfolds, hsealed⟩ := hg.leads_sealed (fun shape h => (hkind shape h).contained) hleads
    fun p hp => hasked p (List.mem_cons_of_mem _ hp)
  refine ⟨hg, hkind, hunfolds, hnamed, fun h hh => ?_⟩
  obtain ⟨horderly, bodies, hrealm⟩ := hg.realm hkind (hunfolds.trans hh)
  exact Recorded.of_leads hrealm horderly (fun r hr => .root (hnamed r hr)) (forall_isRootOf hone)
    (hsealed h hh) fun p hp => ⟨p, List.mem_cons_of_mem _ hp, rfl⟩

/-- After every history a parse ends as the plain run in which the outermost calls through
a store see the values of the first matching parse with caching of the same root and
input since the store was cleared, and it matches, fails or raises as a plain run with any
values at all does, in the grammar before the history. -/
theorem Leads.parse?_frozen {steps : List (Step V α)} (hleads : g.Leads steps g') {q : Query V α}
    (hg : g.BuiltOf Shape.Orderly) (hasked : ∀ p ∈ q :: asked steps, p.root ∈ g.names.values)
    (hone : ∀ p ∈ q :: asked steps, ∀ p' ∈ q :: asked steps,
      p.root.handle.id = p'.root.handle.id → p.root.handle = p'.root.handle) :
    (∀ values : List V,
      (∀ limit report, ({ q with values } : Query V α).plain? g limit = some report →
        ∃ report', q.parse? g' limit = some report' ∧
          Ending.Alike False True report.ending report'.ending) ∧
      ∀ limit report, q.parse? g' limit = some report →
        ∃ limit' report', ({ q with values } : Query V α).plain? g limit' = some report' ∧
          Ending.Alike False True report'.ending report.ending) ∧
    (∀ limit report, q.frozen? (frozenBy steps) g' limit = some report →
      ∃ limit' report', q.parse? g' limit' = some report' ∧ report'.ending = report.ending) ∧
    ∀ limit report, q.parse? g' limit = some report →
      ∃ limit' report', q.frozen? (frozenBy steps) g' limit' = some report' ∧
        report'.ending = report.ending := by
  have hkind : ∀ shape : Shape V α (Recognizer V α), shape.outline.Orderly → shape.Orderly :=
    fun _ => Shape.orderly_outline.1
  have hremembers := hleads.remembers hg.tidy hkind hasked hone
  have hroot : IsRootOf (q :: asked steps) q.root := ⟨q, List.mem_cons_self, rfl⟩
  have hnamed := hremembers.named _ hroot
  have hnative := hremembers.native hroot
  -- values have no part in where and whether a course matches
  have hvalues : ∀ {b : Grammar V α} {limit : Nat} {st : Setting V} {c : Course V α}, g.Unfolds b →
      course b.sealed.target limit st q.root .start = some c → ∀ st' : Setting V,
      st.input = st'.input → st.window = st'.window →
      ∃ c', course b.sealed.target limit st' q.root .start = some c' ∧
        Ending.Alike False True c.ending c'.ending := by
    intro b limit st c hb hc st' hinput hwindow
    obtain ⟨-, bodies, hrealm⟩ := hg.tidy.realm hkind hb
    exact course_of_values hrealm (.root hnamed) hc st' hinput hwindow
  refine ⟨fun values => ⟨?_, ?_⟩, ?_, ?_⟩
  · intro limit report hplain
    have hother : ({ q with values } : Query V α).root ∈ g.names.values := hnamed
    obtain ⟨a, c, ha, hc, hending⟩ := hg.tidy.course_of_plain? hkind hother hplain
    refine hremembers.parse?_of_courses (P := Ending.Alike False True report.ending) hroot
      fun m hm => ?_
    obtain ⟨b, M, c', hb, -, -, hc', hmatch⟩ :=
      hg.tidy.exists_course ha hnative hc (hremembers.unfolds.trans hm)
    obtain ⟨d, hd, halike⟩ := hvalues (hremembers.unfolds.trans (hm.trans hb)) hc'
      (q.under (frozenBy steps)) rfl rfl
    rw [hmatch.ending] at halike
    exact ⟨b, d, hb, hd, hending ▸ halike⟩
  · intro limit report hparse
    obtain ⟨ha, n, c, hc, hending⟩ := hremembers.course_of_parse? hroot hparse
    have ha := hremembers.unfolds.trans ha
    obtain ⟨d, hd, halike⟩ := hvalues ha hc ({ q with values } : Query V α).setting rfl rfl
    have hother : ({ q with values } : Query V α).root ∈ g.names.values := hnamed
    refine ⟨n, hg.tidy.plain?_of_courses (P := (Ending.Alike False True · report.ending)) hkind
      hother fun m hm => ?_⟩
    obtain ⟨b, M, c', hb, -, -, hc', hmatch⟩ := hg.tidy.exists_course ha hnative hd hm
    refine ⟨b, c', hb, hc', ?_⟩
    rw [hending, hmatch.ending]
    exact halike.symm
  · intro limit report hfrozen
    obtain ⟨ha, n, c, hc, hending⟩ := hremembers.course_of_frozen? hroot hfrozen
    obtain ⟨n', hcourses⟩ := hremembers.exists_courses hroot ha hc
    rw [hending]
    exact ⟨n', hremembers.parse?_of_courses (P := (· = c.ending)) hroot hcourses⟩
  · intro limit report hparse
    obtain ⟨ha, n, c, hc, hending⟩ := hremembers.course_of_parse? hroot hparse
    obtain ⟨n', hcourses⟩ := hremembers.exists_courses hroot ha hc
    rw [hending]
    exact ⟨n', hremembers.frozen?_of_courses (P := (· = c.ending)) hroot hcourses⟩

/-- The first value stays that of the first parse, which made the store that it lies in, and
the second one is that of the new parse. -/
theorem slotPair_frozen : ∃ g,
    slotPair.2.Leads [.parse (twoSlots 1 2) (endsWith 1 2)] g ∧
    ∃ limit report, (twoSlots 3 4).parse? g limit = some report ∧
      report.ending = endsWith 1 4 := by
  have hfirst : ((twoSlots 1 2).parse? slotPair.2 10).any (fun first =>
      first.ending = endsWith 1 2 ∧
      ((twoSlots 3 4).frozen? (frozenBy [.parse (twoSlots 1 2) (endsWith 1 2)]) first.grammar
        10).any fun plain => plain.ending = endsWith 1 4) = true := by decide +kernel
  obtain ⟨first, hfirst, hruns⟩ := (Option.any_eq_true _ _).1 hfirst
  obtain ⟨hending, hplain⟩ := of_decide_eq_true hruns
  obtain ⟨plain, hplain, hsame⟩ := (Option.any_eq_true _ _).1 hplain
  have hleads : slotPair.2.Leads [.parse (twoSlots 1 2) (endsWith 1 2)] first.grammar :=
    .step .refl ⟨10, first, hfirst, hending, rfl⟩
  have hroots : ∀ p ∈ twoSlots 3 4 :: asked [Step.parse (twoSlots 1 2) (endsWith 1 2)],
      p.root = slotPair.1 := by
    simp [asked, Step.query?, twoSlots]
  have hfrozen := hleads.parse?_frozen (slotPair_built (fun _ _ _ _ => rfl) trivial trivial)
    (fun p hp => hroots p hp ▸ slotPair_named)
    fun p hp p' hp' _ => by rw [hroots p hp, hroots p' hp']
  obtain ⟨limit, report, hreport, hlast⟩ := hfrozen.2.1 10 plain hplain
  exact ⟨first.grammar, hleads, limit, report, hreport, hlast.trans (of_decide_eq_true hsame)⟩

end Grammar

end SlotGrammar
