import SlotGrammar.Proofs.Lazy.Freezing

/-!
# Reuse of matches in lazily built grammars

Once a parse with caching has matched, later ones with the same root and input replay all
their calls through a store, and come to nothing that has not been built.

Main results:

- Theorem `Serves.parse?_reuses`: a call with a cache works again only below a call
  through a store that was cleared.
-/

namespace SlotGrammar

variable {V α : Type}

/-! ## What was built is no work -/

/-- What events tell of the calls that work, those that tell of what was built do not. -/
theorem Event.works_untallied (running : List Handle) (events : List (Event V α)) :
    works running (untallied events) = works running events := by
  induction events generalizing running with
  | nil => rfl
  | cons event events ih =>
    cases event with
    | tallied label => exact ih running
    | _ => exact congrArg ((work? running _).toList ++ ·) (ih _)

namespace Grammar

section Again

variable {g g₁ g₂ : Grammar V α} {before after : List (Step V α)} {q₀ q : Query V α}
  {limit₀ : Nat} {first : Report V α} (hg : g.BuiltOf Shape.Orderly)
  (hbefore : g.Serves (· ∈ g.names.values) before g₁)
  (hfirst : q₀.parse? g₁ limit₀ = some first)
  (hafter : first.grammar.Serves (· ∈ g.names.values) after g₂)
  (hmatch₀ : first.ending.isMatch = true) (hkey : q.key = q₀.key)
  (hasked : ∀ p ∈ q :: q₀ :: asked (before ++ after), p.root ∈ g.names.values)
  (hone : ∀ p ∈ q :: q₀ :: asked (before ++ after), ∀ p' ∈ q :: q₀ :: asked (before ++ after),
    p.root.handle.id = p'.root.handle.id → p.root.handle = p'.root.handle)

include hg hbefore hfirst hafter hmatch₀ hkey hasked hone

/-- After a match, and whatever comes before and after it, the values of the first matches are
remembered, and with these values there is a course that matches for the same key. -/
theorem Serves.remembers :
    Remembers Shape.Orderly g (IsRootOf (q :: q₀ :: asked (before ++ after)))
        (frozenBy (before ++ [.parse q₀ first.ending] ++ after)) g₂ ∧
      ∃ limit c, course g₂.bare.sealed.target limit
          (q.under (frozenBy (before ++ [.parse q₀ first.ending] ++ after))) q.root .start =
        some c ∧ c.ending.isMatch = true := by
  have htidy := hg.tidy
  have hkind : ∀ shape : Shape V α (Recognizer V α), shape.outline.Orderly → shape.Orderly :=
    fun _ => Shape.orderly_outline.1
  have hcontained : ∀ shape : Shape V α (Recognizer V α), shape.outline.Orderly →
      shape.Contained := fun shape h => (hkind shape h).contained
  have hnative : ∀ p ∈ q :: q₀ :: asked (before ++ after), p.root.Native Shape.Orderly g :=
    fun p hp => htidy.whole.names _ (hasked p hp)
  -- the same history where all that it builds is there
  obtain ⟨hb, hbefore'⟩ := hbefore.foreseen hcontained htidy htidy.unfolds_bare htidy.whole.names
    fun p hp => hnative p (by simp [hp])
  obtain ⟨hf, hfirst'⟩ := (q₀.parse?_foretold hcontained htidy (hnative q₀ (by simp))
    (htidy.unfolds_bare.trans hb) limit₀).exists_shadow hfirst
  have hg₁ : g.Unfolds first.grammar.bare := (htidy.unfolds_bare.trans hb).trans hf
  obtain ⟨ha, hafter'⟩ := hafter.foreseen hcontained htidy hg₁ htidy.whole.names
    fun p hp => hnative p (by simp [hp])
  have hunfolds := hg₁.trans ha
  have hknown : ∀ h, g₂.bare.Unfolds h →
      Recorded h.sealed (IsRootOf (q :: q₀ :: asked (before ++ after)))
          (frozenBy (before ++ [.parse q₀ first.ending] ++ after)) (g₂.onto h.sealed) ∧
        ∃ limit c, course h.sealed.target limit
            (q.under (frozenBy (before ++ [.parse q₀ first.ending] ++ after))) q.root .start =
          some c ∧ c.ending.isMatch = true := by
    intro h hh
    obtain ⟨horderly, bodies, hrealm⟩ := htidy.realm hkind (hunfolds.trans hh)
    obtain ⟨shadow, hshadow, hsame⟩ := hfirst' h (ha.trans hh)
    have hstart := hbefore' h (hf.trans (ha.trans hh))
    rw [htidy.onto_sealed (hunfolds.trans hh)] at hstart
    exact Serves.exists_match hstart hshadow (hsame.grammar ▸ hafter' h hh) hrealm horderly
      (hsame.ending ▸ hmatch₀) hkey hasked hone (by rw [hsame.ending])
  refine ⟨⟨htidy, hkind, hunfolds, ?_, fun h hh => (hknown h hh).1⟩, (hknown _ .refl).2⟩
  rintro _ ⟨p, hp, rfl⟩
  exact hasked p hp

/-- Later parses for the same key match. -/
theorem Serves.exists_later_match :
    ∃ limit report, q.parse? g₂ limit = some report ∧ report.ending.isMatch = true := by
  obtain ⟨hremembers, limit, c, hc, hmatch⟩ :=
    Serves.remembers hg hbefore hfirst hafter hmatch₀ hkey hasked hone
  have hroot : IsRootOf (q :: q₀ :: asked (before ++ after)) q.root := ⟨q, List.mem_cons_self, rfl⟩
  obtain ⟨n, hcourses⟩ := hremembers.exists_courses hroot .refl hc
  obtain ⟨report, hreport, hending⟩ :=
    hremembers.parse?_of_courses (P := (· = c.ending)) hroot hcourses
  exact ⟨n, report, hreport, hending ▸ hmatch⟩

/-- The calls that work in a later match with caching do so below an outermost one through a
store that was cleared. -/
theorem Serves.works_cleared (hcache₀ : q₀.options.cache = true) (hcache : q.options.cache = true)
    {limit : Nat} {report : Report V α} (hreport : q.parse? g₂ limit = some report)
    (hmatch : report.ending.isMatch = true) :
    ∀ x ∈ Event.works [] report.events, ∃ s, x.2.caching = .active s ∧
      ∃ step ∈ after, step.clears s = true := by
  intro x hx
  obtain ⟨hremembers, -⟩ := Serves.remembers hg hbefore hfirst hafter hmatch₀ hkey hasked hone
  have hroot : IsRootOf (q :: q₀ :: asked (before ++ after)) q.root := ⟨q, List.mem_cons_self, rfl⟩
  obtain ⟨hm, hshadow⟩ := (q.parse?_foretold hremembers.contained hremembers.tidy
    (hremembers.native hroot) hremembers.unfolds limit).exists_shadow hreport
  obtain ⟨shadow, hparse, hshadow⟩ := hshadow _ .refl
  obtain ⟨horderly, bodies, hrealm⟩ :=
    hremembers.tidy.realm hremembers.orderly (hremembers.unfolds.trans hm)
  rw [← Event.works_untallied, ← hshadow.events, Event.works_untallied] at hx
  obtain ⟨s, hactive, hnone⟩ := (hremembers.recorded _ hm).works_unfrozen hrealm horderly
    (fun r hr => .root (hremembers.named r hr)) hroot hcache hparse (hshadow.ending ▸ hmatch) x hx
  rw [hkey] at hnone
  exact ⟨s, hactive, exists_clears hcache₀ hmatch₀ hnone⟩

end Again

/-- Once a parse with caching has matched, every later one for the same root and input
matches, after any history and with any values.  Each call with a cache that works in it
does so below an outermost one through a store that was cleared since.  If no store was
cleared, none works at all. -/
theorem Serves.parse?_reuses {g g₁ g₂ : Grammar V α} {before after : List (Step V α)}
    {q₀ q : Query V α} {limit₀ : Nat} {first : Report V α} (hg : g.BuiltOf Shape.Orderly)
    (hbefore : g.Serves (· ∈ g.names.values) before g₁)
    (hfirst : q₀.parse? g₁ limit₀ = some first)
    (hafter : first.grammar.Serves (· ∈ g.names.values) after g₂)
    (hcache₀ : q₀.options.cache = true) (hmatch₀ : first.ending.isMatch = true)
    (hcache : q.options.cache = true) (hkey : q.key = q₀.key)
    (hasked : ∀ p ∈ q :: q₀ :: asked (before ++ after), p.root ∈ g.names.values)
    (hone : ∀ p ∈ q :: q₀ :: asked (before ++ after), ∀ p' ∈ q :: q₀ :: asked (before ++ after),
      p.root.handle.id = p'.root.handle.id → p.root.handle = p'.root.handle) :
    (∃ limit report, q.parse? g₂ limit = some report ∧ report.ending.isMatch = true) ∧
    ∀ limit report, q.parse? g₂ limit = some report →
      (∀ x ∈ Event.works [] report.events, ∃ s, x.2.caching = .active s ∧
        ∃ step ∈ after, step.clears s = true) ∧
      ((∀ step ∈ after, ∀ s, step.clears s = false) →
        ∀ handle pos, .worked handle pos ∈ report.events → handle.caching.isActive = false) := by
  obtain ⟨n, report', hreport', hmatch'⟩ :=
    Serves.exists_later_match hg hbefore hfirst hafter hmatch₀ hkey hasked hone
  refine ⟨⟨n, report', hreport', hmatch'⟩, ?_⟩
  intro limit report hreport
  rw [← Query.parse?_unique hreport hreport'] at hmatch'
  have hworks := Serves.works_cleared hg hbefore hfirst hafter hmatch₀ hkey hasked hone hcache₀
    hcache hreport hmatch'
  refine ⟨hworks, ?_⟩
  intro hkept handle pos hworked
  rw [← Bool.not_eq_true]
  intro hactive
  obtain ⟨x, hx, -⟩ := Event.exists_mem_works hactive hworked []
  obtain ⟨s, -, step, hstep, hclears⟩ := hworks x hx
  rw [hkept step hstep s] at hclears
  cases hclears

/-- Two slots with text in front of them. -/
def misplacedSlots : Query Nat Nat := ⟨slotPair.1, ⟨[['a'], [], []]⟩, [5, 6], .standard⟩

/-- After a match, a failed parse of something else and an attempt without caching, the
cached slot of a pair does not work again for other values. -/
theorem slotPair_reuses : ∃ first failed alone report,
    (twoSlots 1 2).parse? slotPair.2 10 = some first ∧
    misplacedSlots.parse? first.grammar 10 = some failed ∧
    failed.grammar.exec? 10 slotPair.1 ⟨[[], [], []]⟩ [7, 8] {} .start = some alone ∧
    (twoSlots 3 4).parse? alone.grammar 10 = some report ∧
    ∀ handle pos, .worked handle pos ∈ report.events → handle.caching.isActive = false := by
  have hruns : ((twoSlots 1 2).parse? slotPair.2 10).any (fun first =>
      first.ending.isMatch && (misplacedSlots.parse? first.grammar 10).any fun failed =>
        (failed.grammar.exec? 10 slotPair.1 ⟨[[], [], []]⟩ [7, 8] {} .start).any fun alone =>
          ((twoSlots 3 4).parse? alone.grammar 10).isSome) = true := by decide +kernel
  obtain ⟨first, hfirst, hruns⟩ := (Option.any_eq_true _ _).1 hruns
  obtain ⟨hmatch, hruns⟩ := Bool.and_eq_true_iff.1 hruns
  obtain ⟨failed, hfailed, hruns⟩ := (Option.any_eq_true _ _).1 hruns
  obtain ⟨alone, halone, hruns⟩ := (Option.any_eq_true _ _).1 hruns
  obtain ⟨report, hreport⟩ := Option.isSome_iff_exists.1 hruns
  refine ⟨first, failed, alone, report, hfirst, hfailed, halone, hreport, ?_⟩
  have htakes : first.grammar.Takes (.parse misplacedSlots failed.ending) failed.grammar :=
    ⟨10, failed, hfailed, rfl, rfl⟩
  have hafter : first.grammar.Serves (· ∈ slotPair.2.names.values)
      [.parse misplacedSlots failed.ending] alone.grammar :=
    (Serves.refl.step htakes).alone slotPair_named halone
  have hroots : ∀ p ∈ twoSlots 3 4 :: twoSlots 1 2 ::
      asked ([] ++ [Step.parse misplacedSlots failed.ending]), p.root = slotPair.1 := by
    simp [asked, Step.query?, twoSlots, misplacedSlots]
  have hreuses := Serves.parse?_reuses (q := twoSlots 3 4)
    (slotPair_built (fun _ _ _ _ => rfl) trivial trivial) .refl
    hfirst hafter rfl hmatch rfl rfl (fun p hp => hroots p hp ▸ slotPair_named)
    fun p hp p' hp' _ => by rw [hroots p hp, hroots p' hp']
  exact (hreuses.2 10 report hreport).2 fun step hstep s => by
    rw [List.mem_singleton.1 hstep]
    rfl

end Grammar

end SlotGrammar
