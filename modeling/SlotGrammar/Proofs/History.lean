import SlotGrammar.Proofs.Plain

/-!
# Histories

A grammar is used by parses and by clearing what recognizers keep, in any order.  What
holds of the outcomes in the stores is kept by every step, so it holds after every
history that starts from a grammar in which nothing is recorded.

Main results:

- Theorem `Sound.of_leads`: what every step keeps holds after a history.
- Theorem `plain?_ending`: a plain parse ends as its course.
-/

namespace SlotGrammar

variable {V α : Type}

/-! ## Steps -/

/-- One use of a grammar. -/
inductive Step (V α : Type) where
  /-- A parse that ended as given. -/
  | parse (q : Query V α) (ending : Ending V α)
  /-- What a recognizer keeps is cleared. -/
  | clear (target : Recognizer V α)

/-- What a step asks, if it is a parse. -/
def Step.query? : Step V α → Option (Query V α)
  | parse q _ => some q
  | clear _ => none

/-- The parses among some steps. -/
def asked (steps : List (Step V α)) : List (Query V α) := steps.filterMap Step.query?

@[simp]
theorem asked_append (steps steps' : List (Step V α)) :
    asked (steps ++ steps') = asked steps ++ asked steps' :=
  List.filterMap_append

/-- What the last step asks is among what is asked. -/
theorem mem_asked_append_of_query? {steps : List (Step V α)} {step : Step V α} {p : Query V α}
    (h : p ∈ step.query?) : p ∈ asked (steps ++ [step]) := by
  rw [asked_append]
  exact List.mem_append_right _ (List.mem_filterMap.2 ⟨_, List.mem_singleton.2 rfl, h⟩)

/-- Whether one of some parses starts from a recognizer. -/
def IsRootOf (queries : List (Query V α)) (r : Recognizer V α) : Prop :=
  ∃ p ∈ queries, p.root = r

/-- What relates any two parses relates what they start from. -/
theorem forall_isRootOf {queries : List (Query V α)} {R : Recognizer V α → Recognizer V α → Prop}
    (h : ∀ p ∈ queries, ∀ p' ∈ queries, R p.root p'.root) :
    ∀ r r', IsRootOf queries r → IsRootOf queries r' → R r r' := by
  rintro _ _ ⟨p, hp, rfl⟩ ⟨p', hp', rfl⟩
  exact h p hp p' hp'

namespace Grammar

/-- Whether a step leads from one state of a grammar to another. -/
def Takes (g : Grammar V α) : Step V α → Grammar V α → Prop
  | .parse q ending, g' =>
    ∃ limit report, q.parse? g limit = some report ∧ report.ending = ending ∧ report.grammar = g'
  | .clear t, g' => g' = g.dropTraces t

/-- Whether some steps lead from one state of a grammar to another. -/
inductive Leads (g : Grammar V α) : List (Step V α) → Grammar V α → Prop where
  | refl : Leads g [] g
  | step {steps : List (Step V α)} {step : Step V α} {g' g'' : Grammar V α}
      (h : Leads g steps g') (hstep : g'.Takes step g'') : Leads g (steps ++ [step]) g''

end Grammar

/-! ## Sound states of a grammar -/

/-- Whether a state of a grammar between two steps is sound. -/
abbrev Grammar.Sound (base : Grammar V α) (J : Entries V α → Prop) (g : Grammar V α) : Prop :=
  SlotGrammar.Sound base J { grammar := g }

/-- A run that is over leaves a sound state of the grammar. -/
theorem Sound.grammar {base : Grammar V α} {J : Entries V α → Prop} {run : Run V α}
    (h : Sound base J run) : base.Sound J run.grammar :=
  ⟨h.later, h.size_eq, h.allowed, h.fresh, fun ses hses => by cases hses⟩

/-- What may lie in the stores is a matter of what does. -/
theorem Grammar.Sound.of_allowed {base g : Grammar V α} {J J' : Entries V α → Prop}
    (h : base.Sound J g) (hallowed : J' g.stores.committed) : base.Sound J' g :=
  ⟨h.later, h.size_eq, hallowed, h.fresh, fun ses hses => by cases hses⟩

/-- A grammar in which nothing is recorded is a sound state of itself. -/
theorem sound_of_blank {g : Grammar V α} (hblank : g.Blank) {J : Entries V α → Prop}
    (hempty : J fun _ _ _ => none) : g.Sound J g := by
  have hcommitted : g.stores.committed = fun _ _ _ => none := by
    funext s key n
    unfold Stores.committed
    cases hs : g.stores[s]? with
    | none => rfl
    | some store =>
      rw [hblank s store hs]
      rfl
  refine ⟨.refl g, rfl, ?_, ?_, ?_⟩
  · show J g.stores.committed
    rw [hcommitted]
    exact hempty
  · intro s id n _
    show Stores.pending g.stores s id n = none
    unfold Stores.pending
    cases hs : g.stores[s]? with
    | none => rfl
    | some store =>
      rw [hblank s store hs]
      rfl
  · intro ses hses
    cases hses

section Steps

variable {bodies : Bodies V α} {base : Grammar V α} {P starts : Recognizer V α → Prop}
  {J : Entries V α → Prop}

/-- A step leads to a sound state again. -/
theorem Grammar.Sound.step (hrealm : Realm bodies base P) (hregime : Regime base.target P starts J)
    (hclear : ∀ entries s, J entries → J fun s' key n => if s' = s then none else entries s' key n)
    {g g' : Grammar V α} (hok : base.Sound J g) {step : Step V α} (hstep : g.Takes step g')
    (hasked : ∀ q ∈ step.query?, P q.root ∧ ∀ r, q.Starts base.target r → starts r) :
    base.Sound J g' := by
  cases step with
  | clear t =>
    cases hstep
    have hcleared : _ ∧ Moves J False _ _ [] :=
      dropTraces_moves (t := t) (fun s _ => hclear _ s hok.allowed) hok
    exact hcleared.1.grammar
  | parse q ending =>
    obtain ⟨limit, report, hreport, -, rfl⟩ := hstep
    obtain ⟨run, hrun, hgrammar, -⟩ := Query.parse?_eq_some.1 hreport
    obtain ⟨hP, hstarts⟩ := hasked q rfl
    rw [hgrammar]
    exact (parse_ends hrealm hregime (fun _ => hstarts _ (.inl rfl)) hP rfl rfl
      (Setting.isPlain_plain _) (fun r h => hstarts r (.inr h)) hok hrun).1.grammar

/-- What every step keeps holds after a history. -/
theorem Grammar.Sound.of_leads (hrealm : Realm bodies base P)
    (hregime : Regime base.target P starts J)
    (hclear : ∀ entries s, J entries → J fun s' key n => if s' = s then none else entries s' key n)
    {g g' : Grammar V α} (hok : base.Sound J g) {steps : List (Step V α)}
    (hleads : g.Leads steps g')
    (hasked : ∀ q ∈ asked steps, P q.root ∧ ∀ r, q.Starts base.target r → starts r) :
    base.Sound J g' := by
  induction hleads with
  | refl => exact hok
  | step _ hstep ih =>
    have hold := ih fun q hq => hasked q (by simp [hq])
    exact hold.step hrealm hregime hclear hstep
      fun q hq => hasked q (mem_asked_append_of_query? hq)

end Steps

/-! ## Plain parses -/

/-- Asks a grammar, all caches ignored. -/
def Query.plain? (q : Query V α) (g : Grammar V α) (limit : Nat) : Option (Report V α) :=
  g.parsePlain? limit q.root q.input q.values q.options

/-- A plain parse ends when there is a course, and as the course does. -/
theorem Query.plain?_ending {bodies : Bodies V α} {base : Grammar V α}
    {P : Recognizer V α → Prop} (hrealm : Realm bodies base P) {g : Grammar V α}
    (hlater : base.Later g) {q : Query V α} (hroot : P q.root) (limit : Nat) :
    (q.plain? g limit).map Report.ending =
      (course base.target limit q.setting q.root .start).map Course.ending := by
  have hheld : ∀ h ∈ q.context.held, base.Keeps h := by
    intro h hh
    rw [List.mem_singleton.1 hh]
    exact (hrealm.sound q.root hroot).2
  have hmirrors : Mirrors base (execPlain limit q.context q.root .start)
      (course base.target limit q.setting q.root .start) :=
    execPlain_mirrors hrealm limit (Setting.isPlain_plain _) rfl hheld hroot
  refine Eq.trans ?_ (hmirrors.inSession q.context q.root { grammar := g } hlater).1
  unfold plain? Grammar.parsePlain? Act.report?
  rw [Option.map_map]
  rfl

/-! ## Grammars that offer recognizers -/

namespace Grammar

/-- Whether a grammar was built, whatever it builds later is there already, and some
recognizers have names in it. -/
structure Offers (g : Grammar V α) (roots : Recognizer V α → Prop) : Prop where
  built : g.Built
  supplied : g.Supplied
  named : ∀ r, roots r → r ∈ g.names.values

/-- What some parses start from is reached from it. -/
theorem reachable_of_isRootOf {g : Grammar V α} {roots : Recognizer V α → Prop}
    {queries : List (Query V α)} (h : ∀ p ∈ queries, roots p.root) :
    ∀ r, IsRootOf queries r → g.Reachable roots r := by
  rintro _ ⟨p, hp, rfl⟩
  exact .root (h p hp)

/-- Whether no value decides where something matches that is reached from some
recognizers. -/
def SteadyFrom (g : Grammar V α) (roots : Recognizer V α → Prop) : Prop :=
  ∀ handle shape, g.Reachable roots (.node handle shape) → shape.Steady

/-- What is reached from recognizers that a grammar offers is well formed. -/
theorem Offers.realm {g : Grammar V α} {roots : Recognizer V α → Prop} (h : g.Offers roots)
    (hsteady : g.SteadyFrom roots) :
    ∃ bodies, Realm bodies g (g.Reachable roots) := by
  obtain ⟨bodies, hg⟩ := h.built.formed
  exact ⟨bodies, hg, h.supplied, closed_reachable g roots, fun r hr => hr.sound hg h.named, hsteady⟩

end Grammar

/-! ## An example -/

/-- A letter through a store, and then the value that fills a slot. -/
def letterAndValue : Recognizer Nat Nat × Grammar Nat Nat :=
  Grammar.add {} "entry" (.sequence [.cached true (.literal ['a']), .slotValue])

/-- The letter with a slot behind it, filled with one value. -/
def letterBeforeSlot (value : Nat) : Query Nat Nat :=
  ⟨letterAndValue.1, ⟨[['a'], []]⟩, [value], .standard⟩

/-- How the letter and the slot are matched. -/
def letterAndValueMatch (value : Nat) : Match Nat Nat :=
  ⟨.list [.text ['a'], .present (.value value)], ⟨1, 0⟩⟩

theorem letterAndValue_over {r : Recognizer Nat Nat} (h : letterAndValue.1.Over r) :
    r = letterAndValue.1 ∨ r = .node ⟨0, 1, .active 0, []⟩ (.leaf (.find (.literal ['a']))) ∨
      r = .node ⟨3, 3, .never, []⟩
        (.mapped Expr.lookUpSlot (.node ⟨2, 2, .never, []⟩ (.leaf .nextSlot))) ∨
      r = .node ⟨2, 2, .never, []⟩ (.leaf .nextSlot) := by
  have hroot : letterAndValue.1 = .node ⟨4, 4, .never, []⟩ (.sequence [
    .node ⟨0, 1, .active 0, []⟩ (.leaf (.find (.literal ['a']))),
    .node ⟨3, 3, .never, []⟩
      (.mapped Expr.lookUpSlot (.node ⟨2, 2, .never, []⟩ (.leaf .nextSlot)))]) := rfl
  rw [hroot] at h ⊢
  simpa [Recognizer.over_node_iff, Shape.parts] using h

theorem letterAndValue_offers : letterAndValue.2.Offers (· = letterAndValue.1) := by
  refine ⟨.add .empty _ _, ?_, ?_⟩
  · intro cell label e scope h
    have hnone : letterAndValue.2.deferrals = #[] := rfl
    rw [hnone] at h
    cases h
  · rintro r rfl
    exact List.mem_cons_self

/-- What is reached in the example. -/
theorem letterAndValue_reachable {r : Recognizer Nat Nat}
    (h : letterAndValue.2.Reachable (· = letterAndValue.1) r) : letterAndValue.1.Over r := by
  refine h.over ?_
  intro handle l hlink
  rcases letterAndValue_over hlink with h | h | h | h <;> cases h

end SlotGrammar
