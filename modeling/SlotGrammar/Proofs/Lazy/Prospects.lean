import SlotGrammar.Proofs.Lazy.Foresight
import SlotGrammar.Proofs.Reuse

/-!
# Histories foreseen

What is asked of a grammar, and a whole history, comes to the same where all that is built on
the way is there already.

Main results:

- Theorem `Query.parse?_foretold`: a parse ends and records the same.
- Theorem `Leads.foreseen`: a history leads to the same.
-/

namespace SlotGrammar

open Grammar

variable {V α : Type}

/-! ## Kinds of shapes -/

/-- What is orderly is contained. -/
theorem Shape.Orderly.contained {ρ : Type} {shape : Shape V α ρ} (h : shape.Orderly) :
    shape.Contained := by
  cases shape <;> first | exact h | trivial

/-- A shape is orderly when its outline is: the parts have no say in it. -/
theorem Shape.orderly_outline {ρ : Type} {shape : Shape V α ρ} :
    shape.outline.Orderly ↔ shape.Orderly := by
  cases shape <;> exact .rfl

/-- A shape is blind to the values when its outline is. -/
theorem Shape.blind_outline {ρ : Type} {shape : Shape V α ρ} :
    shape.outline.Blind ↔ shape.Blind := by
  cases shape <;> exact .rfl

/-! ## Reports -/

/-- Whether two reports are the same, but for what is there in one of the grammars. -/
structure Report.Shadow (g : Grammar V α) (report shadow : Report V α) : Prop where
  ending : shadow.ending = report.ending
  grammar : shadow.grammar = report.grammar.onto g
  events : Event.untallied shadow.events = Event.untallied report.events

/-- Whether what is asked of a grammar comes to the same where all that is built for it, and
maybe more, is there. -/
def Grammar.Foretells (g : Grammar V α) (ask : Grammar V α → Option (Report V α)) : Prop :=
  ∃ m, g.bare.Unfolds m ∧ (∀ report, ask g = some report → report.grammar.bare = m) ∧
    ∀ h, m.Unfolds h → Option.Rel (Report.Shadow h.sealed) (ask g) (ask (g.onto h.sealed))

namespace Grammar.Foretells

variable {g : Grammar V α} {ask : Grammar V α → Option (Report V α)}

/-- What is reported is reported where more is there. -/
theorem exists_shadow (h : g.Foretells ask) {report : Report V α} (hreport : ask g = some report) :
    g.bare.Unfolds report.grammar.bare ∧ ∀ h, report.grammar.bare.Unfolds h →
      ∃ shadow, ask (g.onto h.sealed) = some shadow ∧ report.Shadow h.sealed shadow := by
  obtain ⟨m, hm, hend, hsame⟩ := h
  obtain rfl := hend report hreport
  refine ⟨hm, fun h hh => ?_⟩
  have hrel := hsame h hh
  rw [hreport] at hrel
  exact exists_of_rel_some hrel

/-- What is reported wherever enough is there is reported. -/
theorem exists_report (h : g.Foretells ask) {P : Ending V α → Prop}
    (henough : ∀ m, g.bare.Unfolds m → ∃ h, m.Unfolds h ∧
      ∃ shadow, ask (g.onto h.sealed) = some shadow ∧ P shadow.ending) :
    ∃ report, ask g = some report ∧ P report.ending := by
  obtain ⟨m, hm, -, hsame⟩ := h
  obtain ⟨h, hh, shadow, hshadow, hP⟩ := henough m hm
  have hrel := hsame h hh
  rw [hshadow] at hrel
  obtain ⟨report, hreport, hshadow⟩ := exists_of_rel_some_right hrel
  exact ⟨report, hreport, hshadow.ending ▸ hP⟩

end Grammar.Foretells

section Asking

variable {g g' : Grammar V α} {act : Act V α (Outcome V α)}
  {see : Run V α → List (Snapshot V α)}

/-- What is reported of an action is the same where all that it builds is there. -/
theorem Act.Foreseen.foretells (h : Act.Foreseen g act see) (hg' : g.Unfolds g'.bare) :
    g'.Foretells act.report? := by
  obtain ⟨m, hm, hend, hsame⟩ := h { grammar := g' } hg'
  refine ⟨m, hm, ?_, ?_⟩
  · intro report hreport
    obtain ⟨x, hx, rfl⟩ := Option.map_eq_some_iff.1 hreport
    exact hend x hx
  · intro h hh
    obtain ⟨hrel, -⟩ := hsame h { grammar := g'.onto h.sealed } hh ⟨rfl, rfl, rfl⟩
    unfold Act.report?
    generalize act { grammar := g' } = x at hrel ⊢
    generalize act { grammar := g'.onto h.sealed } = y at hrel ⊢
    cases hrel with
    | none => exact .none
    | @some x y hrel =>
      refine .some ⟨hrel.1, hrel.2.grammar, ?_⟩
      show Event.untallied y.2.log.reverse = Event.untallied x.2.log.reverse
      unfold Event.untallied
      rw [List.filter_reverse, List.filter_reverse]
      exact congrArg List.reverse hrel.2.log

end Asking

section Asking

variable {T : Shape V α Unit → Prop}
  (hkind : ∀ shape : Shape V α (Recognizer V α), T shape.outline → shape.Contained)
  {g g' : Grammar V α} {q : Query V α}

/-- The context of a query about a native root is native. -/
theorem Query.context_native (hroot : q.root.Native T g) : q.context.Native T g := by
  intro r hr
  rw [List.mem_singleton.1 hr]
  exact hroot

include hkind

/-- A parse comes to the same where all that it builds is there. -/
theorem Query.parse?_foretold (hg : g.Tidy T) (hroot : q.root.Native T g)
    (hg' : g.Unfolds g'.bare) (limit : Nat) : g'.Foretells (q.parse? · limit) :=
  ((exec_foreseen hkind limit ⟨{ root := q.root, input := q.input }, []⟩ .start hg
    (q.context_native hroot) hroot).inSession q.context q.root).foretells hg'

/-- A plain parse comes to the same where all that it builds is there. -/
theorem Query.plain?_foretold (hg : g.Tidy T) (hroot : q.root.Native T g)
    (hg' : g.Unfolds g'.bare) (limit : Nat) : g'.Foretells (q.plain? · limit) :=
  ((execPlain_foreseen hkind limit ⟨{ root := q.root, input := q.input }, []⟩ .start hg
    (q.context_native hroot) hroot).inSession q.context q.root).foretells hg'

/-- So does a parse with frozen values. -/
theorem Query.frozen?_foretold (hg : g.Tidy T) (hroot : q.root.Native T g)
    (hg' : g.Unfolds g'.bare) (F : FrozenValues V) (limit : Nat) :
    g'.Foretells (q.frozen? F · limit) :=
  ((execFrozen_foreseen hkind _ limit ⟨{ root := q.root, input := q.input }, []⟩ .start hg
    (q.context_native hroot) hroot).inSession q.context q.root).foretells hg'

/-- So does an attempt by itself. -/
theorem Grammar.exec?_foretold (hg : g.Tidy T) {root : Recognizer V α} (hroot : root.Native T g)
    (hg' : g.Unfolds g'.bare) (limit : Nat) (input : Fragments) (values : List V)
    (window : ErrorWindow) (pos : Position) :
    g'.Foretells (exec? · limit root input values window pos) := by
  have hctx : Context.Native T g ⟨input, values, { errorWindow := window }, [root]⟩ := by
    intro r hr
    rw [List.mem_singleton.1 hr]
    exact hroot
  exact (exec_foreseen hkind limit ⟨{ root, input }, []⟩ pos hg hctx hroot).foretells hg'

end Asking

/-! ## Histories -/

namespace Grammar

variable {T : Shape V α Unit → Prop} {g g' g'' h : Grammar V α}

/-- A tidy grammar unfolds to itself without its log. -/
theorem Tidy.unfolds_bare (hg : g.Tidy T) : g.Unfolds g.bare := by
  rw [hg.bare]

/-- What is recorded in a grammar in which nothing is recorded makes no difference. -/
theorem Tidy.onto_sealed (hg : g.Tidy T) (hunfolds : g.Unfolds h) : g.onto h.sealed = h.sealed := by
  have hh := hg.unfolds hunfolds
  have hle : g.stores.size ≤ h.stores.size := (Precedes.unfolds hg hunfolds).count_le .store
  have hsession : ∀ {a : Grammar V α}, a.bare = a → a.nextSession = 0 :=
    fun ha => (congrArg nextSession ha).symm
  have hblank : ∀ {a : Grammar V α}, a.bare = a → a.stores = Array.replicate a.stores.size {} :=
    fun ha => (congrArg stores ha).symm
  have hstores : Stores.padded g.stores h.sealed.stores.size = h.sealed.stores := by
    show Stores.padded g.stores h.stores.size = h.stores
    rw [hblank hg.bare, hblank hh.bare]
    show Array.replicate _ _ ++ Array.replicate _ _ = Array.replicate _ _
    rw [Array.replicate_append_replicate, Array.size_replicate, Array.size_replicate,
      Nat.add_sub_cancel' hle]
  unfold onto
  rw [hstores, hsession hg.bare, ← hsession hh.bare]
  rfl

/-- Traces may be dropped before or after the stores are joined on. -/
theorem onto_dropTraces (t : Recognizer V α) :
    (g'.dropTraces t).onto h = (g'.onto h).dropTraces t := by
  unfold dropTraces
  cases t.handle.caching.store? with
  | none => rfl
  | some s =>
    unfold onto
    dsimp only
    rw [Stores.padded_modify (.inr rfl)]

/-- Traces may be dropped before or after the log. -/
theorem bare_dropTraces (g : Grammar V α) (t : Recognizer V α) :
    (g.dropTraces t).bare = g.bare := by
  unfold dropTraces
  cases t.handle.caching.store? with
  | none => rfl
  | some s => simp [bare]

section Foreseen

variable (hkind : ∀ shape : Shape V α (Recognizer V α), T shape.outline → shape.Contained)

include hkind

/-- A step leads to the same where all that is built is there. -/
theorem Takes.foreseen (hg : g.Tidy T) (hg' : g.Unfolds g'.bare) {step : Step V α}
    (hstep : g'.Takes step g'') (hasked : ∀ p ∈ step.query?, p.root.Native T g) :
    g'.bare.Unfolds g''.bare ∧ ∀ h, g''.bare.Unfolds h →
      (g'.onto h.sealed).Takes step (g''.onto h.sealed) := by
  cases step with
  | clear t =>
    cases hstep
    rw [bare_dropTraces]
    exact ⟨.refl, fun h _ => onto_dropTraces t⟩
  | parse q ending =>
    obtain ⟨limit, report, hreport, rfl, rfl⟩ := hstep
    obtain ⟨hunfolds, hshadow⟩ :=
      (Query.parse?_foretold hkind hg (hasked q rfl) hg' limit).exists_shadow hreport
    refine ⟨hunfolds, fun h hh => ?_⟩
    obtain ⟨shadow, hparse, hshadow⟩ := hshadow h hh
    exact ⟨limit, shadow, hparse, hshadow.ending, hshadow.grammar⟩

/-- A history leads to the same where all that is built is there. -/
theorem Leads.foreseen (hg : g.Tidy T) (hg' : g.Unfolds g'.bare) {steps : List (Step V α)}
    (hleads : g'.Leads steps g'') (hasked : ∀ p ∈ asked steps, p.root.Native T g) :
    g'.bare.Unfolds g''.bare ∧ ∀ h, g''.bare.Unfolds h →
      (g'.onto h.sealed).Leads steps (g''.onto h.sealed) := by
  induction hleads with
  | refl => exact ⟨.refl, fun _ _ => .refl⟩
  | step _ hstep ih =>
    obtain ⟨hunfolds, hleads⟩ := ih fun p hp => hasked p (by simp [hp])
    obtain ⟨hlast, htakes⟩ := hstep.foreseen hkind hg (hg'.trans hunfolds)
      fun p hp => hasked p (mem_asked_append_of_query? hp)
    exact ⟨hunfolds.trans hlast, fun h hh => (hleads h (hlast.trans hh)).step (htakes h hh)⟩

/-- So does a history with attempts by themselves. -/
theorem Serves.foreseen (hg : g.Tidy T) (hg' : g.Unfolds g'.bare)
    {roots : Recognizer V α → Prop} (hroots : ∀ r, roots r → r.Native T g)
    {steps : List (Step V α)} (hserves : g'.Serves roots steps g'')
    (hasked : ∀ p ∈ asked steps, p.root.Native T g) :
    g'.bare.Unfolds g''.bare ∧ ∀ h, g''.bare.Unfolds h →
      (g'.onto h.sealed).Serves roots steps (g''.onto h.sealed) := by
  induction hserves with
  | refl => exact ⟨.refl, fun _ _ => .refl⟩
  | step _ hstep ih =>
    obtain ⟨hunfolds, hserves⟩ := ih fun p hp => hasked p (by simp [hp])
    obtain ⟨hlast, htakes⟩ := hstep.foreseen hkind hg (hg'.trans hunfolds)
      fun p hp => hasked p (mem_asked_append_of_query? hp)
    exact ⟨hunfolds.trans hlast, fun h hh => (hserves h (hlast.trans hh)).step (htakes h hh)⟩
  | @alone steps g' root limit input values window pos report _ hroot hreport ih =>
    obtain ⟨hunfolds, hserves⟩ := ih hasked
    obtain ⟨hlast, hshadow⟩ := (exec?_foretold hkind hg (hroots root hroot) (hg'.trans hunfolds)
      limit input values window pos).exists_shadow hreport
    refine ⟨hunfolds.trans hlast, fun h hh => ?_⟩
    obtain ⟨shadow, hexec, hshadow⟩ := hshadow h hh
    rw [← hshadow.grammar]
    exact (hserves h (hlast.trans hh)).alone hroot hexec

/-- A history of parses from names leads to the same in all that unfolds from where it ends. -/
theorem Tidy.leads_sealed (hg : g.Tidy T) {steps : List (Step V α)} (hleads : g.Leads steps g')
    (hasked : ∀ p ∈ asked steps, p.root ∈ g.names.values) :
    g.Unfolds g'.bare ∧ ∀ h, g'.bare.Unfolds h → h.sealed.Leads steps (g'.onto h.sealed) := by
  obtain ⟨hunfolds, hsealed⟩ :=
    hleads.foreseen hkind hg hg.unfolds_bare fun p hp => hg.whole.names _ (hasked p hp)
  refine ⟨hg.unfolds_bare.trans hunfolds, fun h hh => ?_⟩
  have hleads := hsealed h hh
  rwa [hg.onto_sealed (hg.unfolds_bare.trans (hunfolds.trans hh))] at hleads

end Foreseen

/-! ## An example -/

/-- The values of two slots.  The first goes through a store, which is made when the slot is
first attempted. -/
def slotPair : Recognizer Nat Nat × Grammar Nat Nat :=
  Grammar.add {} "pair" (.sequence [.deferred "first" (.cached true .slotValue), .slotValue])

/-- Two slots, filled with two values. -/
def twoSlots (first second : Nat) : Query Nat Nat :=
  ⟨slotPair.1, ⟨[[], [], []]⟩, [first, second], .standard⟩

/-- How the two slots are parsed to two values. -/
def endsWith (first second : Nat) : Ending Nat Nat :=
  .ok (some ⟨.list [.present (.value first), .present (.value second)], ⟨2, 0⟩⟩)

theorem slotPair_built {T : Shape Nat Nat Unit → Prop} (hslot : T (.leaf .nextSlot))
    (hmapped : T (.mapped Expr.lookUpSlot ())) (hsequence : T (.sequence [(), ()])) :
    slotPair.2.BuiltOf T := by
  have hvalue : ∀ binds, (Expr.slotValue : Expr Nat Nat).Proper T binds := by
    refine fun binds => .make hmapped fun p hp => ?_
    rw [List.mem_singleton.1 hp]
    exact .make hslot fun _ h => by cases h
  refine .add .empty "pair" (.make hsequence fun p hp => ?_)
  rcases List.mem_cons.1 hp with rfl | hp
  · exact .deferred (.cached (hvalue false))
  · rw [List.mem_singleton.1 hp]
    exact hvalue true

/-- The pair has a name. -/
theorem slotPair_named : slotPair.1 ∈ slotPair.2.names.values := List.mem_cons_self

end Grammar

end SlotGrammar
