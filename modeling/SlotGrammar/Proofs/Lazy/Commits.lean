import SlotGrammar.Proofs.Commits
import SlotGrammar.Proofs.Lazy.Freezing

/-!
# What a match commits in lazily built grammars

A parse that matches with caching leaves one outcome for each call through a store that is
not inside another cached call, also where the recognizers of the calls, and their stores,
have only been made on the way.

Main results:

- Theorem `Leads.parse?_commits`: what lies under the trace of a match.
-/

namespace SlotGrammar

variable {V α : Type}

/-- Events that tell of what was built are no calls. -/
theorem Event.cachedCalls_untallied (depth : Nat) (events : List (Event V α)) :
    cachedCalls depth (untallied events) = cachedCalls depth events := by
  induction events generalizing depth with
  | nil => rfl
  | cons event events ih =>
    cases event with
    | called handle pos ordinal => exact ih _
    | replied handle pos ordinal ending =>
      show cachedCalls depth (.replied handle pos ordinal ending :: untallied events) = _
      unfold cachedCalls
      cases handle.caching with
      | active s => exact congrArg (_ ++ ·) (ih _)
      | _ => exact ih _
    | _ => exact ih depth

namespace Grammar

/-- What lies in the stores is there too where more is built. -/
theorem committed_onto (g h : Grammar V α) :
    (g.onto h).stores.committed = g.stores.committed :=
  Stores.committed_padded _ _

section Match

variable {T : Shape V α Unit → Prop} {g g' h : Grammar V α} {steps : List (Step V α)}
  {q : Query V α} {limit : Nat} {report : Report V α} (hg : g.Tidy T)
  (hkind : ∀ shape : Shape V α (Recognizer V α), T shape.outline → shape.Orderly ∧ shape.Blind)

include hg hkind

/-- What is blind below its names stays so when it unfolds. -/
theorem Tidy.blindBelow_sealed (hh : g.Unfolds h) : h.sealed.BlindBelow (· ∈ g.names.values) := by
  intro r hr _ handle shape hreach
  have hin := hreach.mem (closed_reachable _ _) fun _ h => h ▸ hr
  exact (hkind shape (hg.kind_of_reachable hh hin)).2

/-- A run without caching makes the attempts of a course, once all that these come to is
built. -/
theorem Tidy.uncached_tells (hnamed : q.root ∈ g.names.values) (hh : g.Unfolds h)
    {a : Grammar V α} (hsound : h.sealed.Sound (fun _ => True) a) {c : Course V α}
    (hc : course h.sealed.target limit q.setting q.root .start = some c) :
    ∃ plain, q.uncached.parse? a limit = some plain ∧ plain.ending = c.ending ∧
      Event.Tells plain.events none c.track := by
  obtain ⟨horderly, bodies, hrealm⟩ := hg.realm (fun shape h => (hkind shape h).1) hh
  exact q.uncached.parse?_tells hrealm horderly hsound rfl (.root hnamed) hc

variable (hleads : g.Leads steps g') (hasked : ∀ p ∈ q :: asked steps, p.root ∈ g.names.values)
  (hone : ∀ p ∈ q :: asked steps, ∀ p' ∈ q :: asked steps,
    p.root.handle.id = p'.root.handle.id → p.root.handle = p'.root.handle)
  (hcache : q.options.cache = true) (hreport : q.parse? g' limit = some report)
  (hmatch : report.ending.isMatch = true)

include hleads hasked hone hcache hreport hmatch

/-- What lies under the trace of a match is told by a course, wherever all is built that the
match came to. -/
theorem Leads.committed_sealed : g.Unfolds report.grammar.bare ∧
    ∀ h, report.grammar.bare.Unfolds h →
      h.sealed.Sound (fun _ => True) (report.grammar.onto h.sealed) ∧
      ∃ n c, course h.sealed.target n q.setting q.root .start = some c ∧
        report.ending = c.ending ∧ (∀ slot ∈ c.tape, slot.IsSettled) ∧
        (∀ s n o, report.grammar.stores.committed s q.key n = some o ↔
          c.tape[n]? = some (.settled s o)) ∧
        ∀ s key n, key ≠ q.key →
          report.grammar.stores.committed s key n = g'.stores.committed s key n := by
  have horderly : ∀ shape : Shape V α (Recognizer V α), T shape.outline → shape.Orderly :=
    fun shape h => (hkind shape h).1
  have hcontained : ∀ shape : Shape V α (Recognizer V α), T shape.outline → shape.Contained :=
    fun shape h => (horderly shape h).contained
  obtain ⟨hunfolds, hsealed⟩ := hg.leads_sealed hcontained hleads
    fun p hp => hasked p (List.mem_cons_of_mem _ hp)
  obtain ⟨hm, hshadow⟩ := (q.parse?_foretold hcontained hg
    (hg.whole.names _ (hasked q List.mem_cons_self)) hunfolds limit).exists_shadow hreport
  refine ⟨hunfolds.trans hm, fun h hh => ?_⟩
  have hlast := hunfolds.trans (hm.trans hh)
  obtain ⟨horderly, bodies, hrealm⟩ := hg.realm horderly hlast
  obtain ⟨shadow, hparse, hsame⟩ := hshadow h hh
  have hiff := (hsealed h (hm.trans hh)).committed_iff hrealm hasked horderly
    (hg.blindBelow_sealed hkind hlast) hone hcache hparse (hsame.ending ▸ hmatch)
  rw [hsame.grammar, hsame.ending, committed_onto, committed_onto] at hiff
  exact hiff

end Match

/-- After a match with caching the outcomes under its trace are those of the calls through
a store, outside every cached recognizer, that a run without caching makes: the outcome at
an ordinal is that of the call with this number, and lies in the store of that call.
Other traces are left alone.  The run is made in the grammar as the match leaves it, where the
stores of all these calls are. -/
theorem Leads.parse?_commits {g g' : Grammar V α} {steps : List (Step V α)}
    (hleads : g.Leads steps g') {q : Query V α}
    (hg : g.BuiltOf fun shape => shape.Orderly ∧ shape.Blind)
    (hasked : ∀ p ∈ q :: asked steps, p.root ∈ g.names.values)
    (hone : ∀ p ∈ q :: asked steps, ∀ p' ∈ q :: asked steps,
      p.root.handle.id = p'.root.handle.id → p.root.handle = p'.root.handle)
    (hcache : q.options.cache = true) {limit : Nat} {report : Report V α}
    (hreport : q.parse? g' limit = some report) (hmatch : report.ending.isMatch = true) :
    (∃ limit' plain, q.uncached.parse? report.grammar limit' = some plain) ∧
    ∀ limit' plain, q.uncached.parse? report.grammar limit' = some plain →
      plain.ending = report.ending ∧
      (∀ call ∈ Event.cachedCalls 0 plain.events, call.2.isSome = true) ∧
      (∀ s n o, report.grammar.stores.committed s q.key n = some o ↔
        (Event.cachedCalls 0 plain.events)[n]? = some (s, some o)) ∧
      ∀ s key n, key ≠ q.key →
        report.grammar.stores.committed s key n = g'.stores.committed s key n := by
  have htidy := hg.tidy
  have hkind : ∀ shape : Shape V α (Recognizer V α),
      shape.outline.Orderly ∧ shape.outline.Blind → shape.Orderly ∧ shape.Blind :=
    fun _ h => ⟨Shape.orderly_outline.1 h.1, Shape.blind_outline.1 h.2⟩
  have hnamed := hasked q List.mem_cons_self
  have hnative := htidy.whole.names _ hnamed
  obtain ⟨hlast, hcommitted⟩ :=
    hleads.committed_sealed htidy hkind hasked hone hcache hreport hmatch
  have hforetold := fun n =>
    q.uncached.parse?_foretold (fun shape h => (hkind shape h).1.contained) htidy hnative hlast n
  refine ⟨?_, ?_⟩
  · -- the course of the match is still there when more is built, and so is a run
    obtain ⟨-, n, c, hc, -⟩ := hcommitted _ .refl
    obtain ⟨plain, hplain, -⟩ := (hforetold n).exists_report (P := fun _ => True) fun m hm => by
      obtain ⟨c', hc', -⟩ := (htidy.unfolds hlast).course_later hm
        (hnative.mono (Precedes.unfolds htidy hlast).count_le) hc
      obtain ⟨shadow, hshadow, -⟩ :=
        htidy.uncached_tells hkind hnamed (hlast.trans hm) (hcommitted m hm).1 hc'
      exact ⟨m, .refl, shadow, hshadow, trivial⟩
    exact ⟨n, plain, hplain⟩
  · intro limit' plain hplain
    obtain ⟨hh, hshadow⟩ := (hforetold limit').exists_shadow hplain
    obtain ⟨shadow, hparse, hsame⟩ := hshadow _ .refl
    obtain ⟨hsound, n, c, hc, hending, hsettled, hslots, hothers⟩ := hcommitted _ hh
    obtain ⟨plain', hplain', hending', hlog⟩ :=
      htidy.uncached_tells hkind hnamed (hlast.trans hh) hsound hc
    obtain rfl := Query.parse?_unique hparse hplain'
    rw [← Event.cachedCalls_untallied, ← hsame.events, Event.cachedCalls_untallied,
      hlog.cachedCalls_eq]
    refine ⟨?_, calls_isSome hsettled, ?_, hothers⟩
    · rw [← hsame.ending, hending', hending]
    · intro s n o
      rw [hslots]
      exact (calls_getElem? hsettled n s o).symm

/-! ## An example -/

/-- A letter through a store, which is made when the letter is first attempted, and a slot. -/
def lateLetter : Recognizer Nat Nat × Grammar Nat Nat :=
  Grammar.add {} "entry" (.sequence [.deferred "letter" (.cached true (.literal ['a'])), .nextSlot])

/-- The letter with a slot behind it. -/
def lateLetterBeforeSlot : Query Nat Nat := ⟨lateLetter.1, ⟨[['a'], []]⟩, [1], .standard⟩

theorem lateLetter_built :
    lateLetter.2.BuiltOf fun shape => shape.Orderly ∧ shape.Blind := by
  refine .add .empty "entry" (.make ⟨trivial, trivial⟩ fun p hp => ?_)
  rcases List.mem_cons.1 hp with rfl | hp
  · exact .deferred (.cached (.make ⟨fun _ _ _ _ => rfl, fun _ _ _ _ => rfl⟩ fun _ h => by cases h))
  · rw [List.mem_singleton.1 hp]
    exact .make ⟨fun _ _ _ _ => rfl, fun _ _ _ _ => rfl⟩ fun _ h => by cases h

/-- After a match the letter lies at the first ordinal, and nothing else under the trace. -/
theorem lateLetter_commits : ∃ report,
    lateLetterBeforeSlot.parse? lateLetter.2 10 = some report ∧
    ∀ s n o, report.grammar.stores.committed s lateLetterBeforeSlot.key n = some o ↔
      [(0, some (some ⟨.text ['a'], ⟨0, 1⟩⟩))][n]? = some (s, some o) := by
  have hruns : (lateLetterBeforeSlot.parse? lateLetter.2 10).any (fun report =>
      report.ending.isMatch &&
        (lateLetterBeforeSlot.uncached.parse? report.grammar 10).any fun plain =>
          Event.cachedCalls 0 plain.events =
          [(0, some (some ⟨.text ['a'], ⟨0, 1⟩⟩))]) = true := by decide +kernel
  obtain ⟨report, hreport, hruns⟩ := (Option.any_eq_true _ _).1 hruns
  obtain ⟨hmatch, hplain⟩ := Bool.and_eq_true_iff.1 hruns
  obtain ⟨plain, hplain, hcalls⟩ := (Option.any_eq_true _ _).1 hplain
  have hroots : ∀ p ∈ lateLetterBeforeSlot :: asked ([] : List (Step Nat Nat)),
      p.root = lateLetter.1 := by
    simp [asked, lateLetterBeforeSlot]
  have hnamed : lateLetter.1 ∈ lateLetter.2.names.values := List.mem_cons_self
  have hcommits := Leads.parse?_commits .refl lateLetter_built (fun p hp => hroots p hp ▸ hnamed)
    (fun p hp p' hp' _ => by rw [hroots p hp, hroots p' hp']) rfl hreport hmatch
  obtain ⟨-, -, hslots, -⟩ := hcommits.2 10 plain hplain
  rw [of_decide_eq_true hcalls] at hslots
  exact ⟨report, hreport, hslots⟩

end Grammar

end SlotGrammar
