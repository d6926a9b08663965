import Mathlib.Data.List.Forall2
import SlotGrammar.Proofs.Course

/-!
# Courses that are alike

Interpolated values reach the tree of a match and nothing else, as long as no leaf
reads them.  So the courses of one recognizer with different values, error windows
and limits attempt the same recognizers at the same positions, and end in the same
way up to trees and quoted texts.  The trees are equal too where no transform reads
the values, or where the values are the same.

Main results:

- Theorem `Script.alike_script`: the scripts of a shape in two views are alike.
- Theorem `course_alike`: the courses of a recognizer in two settings are alike.
- Theorem `course_mono`: a course is found under every greater limit.
-/

namespace SlotGrammar

variable {V α : Type}

/-! ## Endings, slots and marks -/

/-- Whether two attempts end alike: with trees that are equal if they are to be
`exact`, and with errors that are equal if they quote the `same` window. -/
inductive Ending.Alike (exact same : Prop) : Ending V α → Ending V α → Prop where
  | failed : Alike exact same (.ok none) (.ok none)
  | matched {m m' : Match V α} (hstop : m.stop = m'.stop) (htree : exact → m.tree = m'.tree) :
      Alike exact same (.ok (some m)) (.ok (some m'))
  | raised {e e' : ParseError} (h : same → e = e') : Alike exact same (.error e) (.error e')

/-- Whether two slots are alike, with equal outcomes in the stores that are `sure`. -/
inductive Slot.Alike (sure : StoreId → Prop) : Slot V α → Slot V α → Prop where
  | settled {s : StoreId} {o o' : Outcome V α}
      (h : Ending.Alike (sure s) True (.ok o) (.ok o')) :
      Alike sure (.settled s o) (.settled s o')
  | raised (s : StoreId) : Alike sure (.raised s) (.raised s)
  | passed : Alike sure .passed .passed

/-- Whether two marks are alike: of one attempt, with slots that are alike. -/
inductive Mark.Alike (sure : StoreId → Prop) : Mark V α → Mark V α → Prop where
  | entered (handle : Handle) (pos : Position) :
      Alike sure (.entered handle pos) (.entered handle pos)
  | left (handle : Handle) (pos : Position) {slots slots' : List (Slot V α)}
      (h : List.Forall₂ (Slot.Alike sure) slots slots') :
      Alike sure (.left handle pos slots) (.left handle pos slots')

/-- Whether two courses are alike. -/
structure Course.Alike (exact same : Prop) (sure : StoreId → Prop) (c c' : Course V α) : Prop where
  ending : Ending.Alike exact same c.ending c'.ending
  track : List.Forall₂ (Mark.Alike sure) c.track c'.track

namespace Ending.Alike

variable {exact same exact' same' : Prop} {e e' : Ending V α}

theorem refl (e : Ending V α) : Ending.Alike exact same e e := by
  rcases e with e | _ | m
  · exact .raised fun _ => rfl
  · exact .failed
  · exact .matched rfl fun _ => rfl

/-- Likeness of endings goes both ways. -/
theorem symm (h : Ending.Alike exact same e e') : Ending.Alike exact same e' e := by
  cases h with
  | failed => exact .failed
  | matched hstop htree => exact .matched hstop.symm fun h => (htree h).symm
  | raised h => exact .raised fun hs => (h hs).symm

/-- Endings that are alike are so when less is asked. -/
theorem mono (h : Ending.Alike exact same e e') (hexact : exact' → exact) (hsame : same' → same) :
    Ending.Alike exact' same' e e' := by
  cases h with
  | failed => exact .failed
  | matched hstop htree => exact .matched hstop fun h => htree (hexact h)
  | raised h => exact .raised fun hs => h (hsame hs)

/-- Endings that are alike in every respect are equal. -/
theorem eq (h : Ending.Alike exact same e e') (hexact : exact) (hsame : same) : e = e' := by
  cases h with
  | failed => rfl
  | @matched m m' hstop htree =>
    cases m
    cases m'
    cases hstop
    cases htree hexact
    rfl
  | raised h => rw [h hsame]

end Ending.Alike

/-- Slots that are alike everywhere are equal. -/
theorem Slot.Alike.eq {sure : StoreId → Prop} {slot slot' : Slot V α}
    (h : Slot.Alike sure slot slot') (hsure : ∀ s, sure s) : slot = slot' := by
  cases h with
  | @settled s o o' h =>
    have heq := h.eq (hsure s) trivial
    cases heq
    rfl
  | raised s => rfl
  | passed => rfl

/-- Marks that are alike are the same where all stores are sure. -/
theorem Mark.Alike.eq {sure : StoreId → Prop} {mark mark' : Mark V α}
    (h : Mark.Alike sure mark mark') (hsure : ∀ s, sure s) : mark = mark' := by
  cases h with
  | entered handle pos => rfl
  | @left handle pos slots slots' h =>
    have heq : slots = slots' := by
      induction h with
      | nil => rfl
      | cons hslot _ ih => rw [hslot.eq hsure, ih]
    rw [heq]

theorem Slot.Alike.refl {sure : StoreId → Prop} (slot : Slot V α) : Slot.Alike sure slot slot := by
  cases slot with
  | settled s o => exact .settled (.refl _)
  | raised s => exact .raised s
  | passed => exact .passed

theorem Mark.Alike.refl {sure : StoreId → Prop} (mark : Mark V α) : Mark.Alike sure mark mark := by
  cases mark with
  | entered handle pos => exact .entered handle pos
  | left handle pos slots => exact .left handle pos (List.forall₂_same.2 fun slot _ => .refl slot)

namespace Course.Alike

variable {exact same : Prop} {sure : StoreId → Prop} {c c' : Course V α}

theorem refl (c : Course V α) : Course.Alike exact same sure c c :=
  ⟨.refl _, List.forall₂_same.2 fun mark _ => .refl mark⟩

/-- Courses that are alike in every respect are equal. -/
theorem eq (h : Course.Alike exact same sure c c') (hexact : exact) (hsame : same)
    (hsure : ∀ s, sure s) : c = c' := by
  have htrack : c.track = c'.track := by
    have := h.track
    generalize c.track = track at this
    generalize c'.track = track' at this
    induction this with
    | nil => rfl
    | cons hmark _ ih => rw [hmark.eq hsure, ih]
  cases c
  cases c'
  cases h.ending.eq hexact hsame
  cases htrack
  rfl

/-- The slots of courses that are alike are alike. -/
theorem tape (h : Course.Alike exact same sure c c') :
    List.Forall₂ (Slot.Alike sure) c.tape c'.tape := by
  have := h.track
  unfold Course.tape
  generalize c.track = track at this
  generalize c'.track = track' at this
  induction this with
  | nil => exact .nil
  | cons hmark _ ih =>
    rw [tapeOf_cons, tapeOf_cons]
    refine List.rel_append ?_ ih
    cases hmark with
    | entered handle pos => exact .nil
    | left handle pos h => exact h

/-- Courses one after the other are alike when both are. -/
theorem andThen {d d' : Course V α} {exact' : Prop} (h : Course.Alike exact' same sure c c')
    (hd : Course.Alike exact same sure d d') :
    Course.Alike exact same sure (c.andThen d) (c'.andThen d') :=
  ⟨hd.ending, List.rel_append h.track hd.track⟩

end Course.Alike

/-! ## Scripts -/

/-- Whether two scripts attempt the same parts and go on alike after endings that are
alike.  The first one may reach its limit earlier. -/
inductive Script.Alike (parts : List (Recognizer V α)) (exact : Recognizer V α → Prop)
    (whole same : Prop) : Script V α → Script V α → Prop where
  | ended {ending ending' : Ending V α} (h : Ending.Alike whole same ending ending') :
      Alike parts exact whole same (ended ending) (ended ending')
  | exhausted (script : Script V α) : Alike parts exact whole same exhausted script
  | call {p : Recognizer V α} {pos : Position} {next next' : Ending V α → Script V α}
      (hp : p ∈ parts)
      (hnext : ∀ e e', Ending.Alike (exact p) same e e' →
        Alike parts exact whole same (next e) (next' e')) :
      Alike parts exact whole same (call p pos next) (call p pos next')
  | nest {sub : Subparse V} {p : Recognizer V α} {next next' : Ending V α → Script V α}
      (hp : p ∈ parts)
      (hnext : ∀ e e', Ending.Alike (exact p) True e e' →
        Alike parts exact whole same (next e) (next' e')) :
      Alike parts exact whole same (nest sub p next) (nest sub p next')
  | clear {t : Recognizer V α} {next next' : Script V α}
      (hnext : Alike parts exact whole same next next') :
      Alike parts exact whole same (clear t next) (clear t next')
  | note {event : Event V α} {next next' : Script V α}
      (hnext : Alike parts exact whole same next next') :
      Alike parts exact whole same (note event next) (note event next')
  | probe {label : String} {p : Recognizer V α} {pos : Position} (hp : p ∈ parts)
      (hexact : whole → exact p) :
      Alike parts exact whole same (probe label p pos) (probe label p pos)

namespace Script

variable {parts : List (Recognizer V α)} {exact : Recognizer V α → Prop} {whole same : Prop}

/-- Two attempts that do not match are alike. -/
theorem alike_done_none : Alike parts exact whole same (done none) (done none) := .ended .failed

/-- Two matches that stop at the same place are alike. -/
theorem alike_done_some {m m' : Match V α} (hstop : m.stop = m'.stop)
    (htree : whole → m.tree = m'.tree) :
    Alike parts exact whole same (done (some m)) (done (some m')) :=
  .ended (.matched hstop htree)

/-- Scripts that pass errors through go on alike when they do so after matches that
are alike and after failures. -/
theorem alike_onOutcome {p : Recognizer V α} (hp : p ∈ parts) {pos : Position}
    {next next' : Outcome V α → Script V α}
    (hfailed : Alike parts exact whole same (next none) (next' none))
    (hmatched : ∀ m m' : Match V α, m.stop = m'.stop → (exact p → m.tree = m'.tree) →
      Alike parts exact whole same (next (some m)) (next' (some m'))) :
    Alike parts exact whole same (onOutcome p pos next) (onOutcome p pos next') := by
  refine .call hp ?_
  intro e e' h
  cases h with
  | failed => exact hfailed
  | matched hstop htree => exact hmatched _ _ hstop htree
  | raised h => exact .ended (.raised h)

/-- A part that is attempted last ends the script as it ends itself. -/
theorem alike_last {p : Recognizer V α} (hp : p ∈ parts) (hexact : whole → exact p)
    {pos : Position} :
    Alike parts exact whole same (onOutcome p pos done) (onOutcome p pos done) :=
  alike_onOutcome hp alike_done_none fun _ _ hstop htree =>
    alike_done_some hstop fun h => htree (hexact h)

/-- Parts in order are alike when what follows them is. -/
theorem alike_inOrder {ps : List (Recognizer V α)} (hps : ∀ p ∈ ps, p ∈ parts)
    (hexact : whole → ∀ p ∈ ps, exact p) {pos : Position}
    {next next' : Option (List (Tree V α) × Position) → Script V α}
    (hfailed : Alike parts exact whole same (next none) (next' none))
    (hmatched : ∀ trees trees' stop, (whole → trees = trees') →
      Alike parts exact whole same (next (some (trees, stop))) (next' (some (trees', stop)))) :
    Alike parts exact whole same (inOrder ps pos next) (inOrder ps pos next') := by
  induction ps generalizing pos next next' with
  | nil => exact hmatched _ _ _ fun _ => rfl
  | cons p ps ih =>
    refine alike_onOutcome (hps p List.mem_cons_self) hfailed ?_
    intro m m' hstop htree
    simp only [hstop]
    refine ih (fun q hq => hps q (List.mem_cons_of_mem _ hq))
      (fun h q hq => hexact h q (List.mem_cons_of_mem _ hq)) hfailed ?_
    intro trees trees' stop htrees
    refine hmatched _ _ _ ?_
    intro h
    rw [htree (hexact h p List.mem_cons_self), htrees h]

/-- The first of some parts that matches is alike. -/
theorem alike_firstOf {ps : List (Recognizer V α)} (hps : ∀ p ∈ ps, p ∈ parts)
    (hexact : whole → ∀ p ∈ ps, exact p) {pos : Position} :
    Alike parts exact whole same (firstOf ps pos) (firstOf ps pos) := by
  induction ps with
  | nil => exact alike_done_none
  | cons p ps ih =>
    refine alike_onOutcome (hps p List.mem_cons_self) ?_ ?_
    · exact ih (fun q hq => hps q (List.mem_cons_of_mem _ hq))
        fun h q hq => hexact h q (List.mem_cons_of_mem _ hq)
    · intro m m' hstop htree
      exact alike_done_some hstop fun h => htree (hexact h p List.mem_cons_self)

/-- Whether a step goes on alike when what comes after it does. -/
def Step.Alike (parts : List (Recognizer V α)) (exact : Recognizer V α → Prop)
    (whole same : Prop) (step : Step V α) : Prop :=
  ∀ (pos : Position) (next next' : Outcome V α → Script V α),
    Script.Alike parts exact whole same (next none) (next' none) →
    (∀ m m' : Match V α, m.stop = m'.stop → (whole → m.tree = m'.tree) →
      Script.Alike parts exact whole same (next (some m)) (next' (some m'))) →
    Script.Alike parts exact whole same (step pos next) (step pos next')

/-- An attempt of a part is a step that is alike. -/
theorem alike_step {p : Recognizer V α} (hp : p ∈ parts) (hexact : whole → exact p) :
    Step.Alike parts exact whole same (onOutcome p) := by
  intro pos next next' hfailed hmatched
  refine alike_onOutcome hp hfailed ?_
  intro m m' hstop htree
  exact hmatched m m' hstop fun h => htree (hexact h)

/-- A part after a delimiter is a step that is alike. -/
theorem alike_after {d p : Recognizer V α} (hd : d ∈ parts) (hp : p ∈ parts)
    (hexact : whole → exact p) : (after d p).Alike parts exact whole same := by
  intro pos next next' hfailed hmatched
  refine alike_onOutcome hd hfailed ?_
  intro m m' hstop htree
  simp only [hstop]
  exact alike_step hp hexact _ _ _ hfailed hmatched

/-- A chain of steps that are alike is alike, under a greater limit too. -/
theorem alike_chain {step : Step V α} (hstep : step.Alike parts exact whole same)
    {limit limit' : Nat} (hlimit : limit ≤ limit') {pos : Position}
    {next next' : List (Tree V α) → Position → Script V α}
    (hnext : ∀ trees trees' stop, (whole → trees = trees') →
      Alike parts exact whole same (next trees stop) (next' trees' stop)) :
    Alike parts exact whole same (chain step limit pos next) (chain step limit' pos next') := by
  induction limit generalizing limit' pos next next' with
  | zero => exact .exhausted _
  | succ limit ih =>
    obtain ⟨limit', rfl⟩ : ∃ k, limit' = k + 1 := ⟨limit' - 1, by omega⟩
    refine hstep _ _ _ (hnext _ _ _ fun _ => rfl) ?_
    intro m m' hstop htree
    simp only [hstop]
    by_cases hlt : pos < m'.stop
    · simp only [hlt, if_true]
      refine ih (by omega) ?_
      intro trees trees' stop htrees
      refine hnext _ _ _ ?_
      intro h
      rw [htree h, htrees h]
    · simp only [hlt, if_false]
      exact hnext _ _ _ fun _ => rfl

/-- A repetition of steps that are alike is alike. -/
theorem alike_repetition {first step : Step V α} (hfirst : first.Alike parts exact whole same)
    (hstep : step.Alike parts exact whole same) {limit limit' : Nat} (hlimit : limit ≤ limit')
    {pos : Position} :
    Alike parts exact whole same (repetition limit first step pos)
      (repetition limit' first step pos) := by
  refine hfirst _ _ _ alike_done_none ?_
  intro m m' hstop htree
  simp only [hstop]
  by_cases hlt : pos < m'.stop
  · simp only [hlt, if_true]
    refine alike_chain hstep hlimit ?_
    intro trees trees' stop htrees
    refine alike_done_some rfl ?_
    intro h
    rw [htree h, htrees h]
  · simp only [hlt, if_false]
    exact alike_done_none

end Script

/-! ## Shapes that do not look at the values -/

namespace Shape

/-- Whether a shape does not let the values decide whether and where it matches. -/
def Steady {ρ : Type} : Shape V α ρ → Prop
  | .leaf l => ∀ (input : Fragments) (values values' : List V) (pos : Position),
      l.outcome input values pos = l.outcome input values' pos
  | _ => True

/-- Whether a shape does not read the values at all. -/
def Blind {ρ : Type} : Shape V α ρ → Prop
  | .mapped transform _ => ∀ (tree : Tree V α) (values values' : List V),
      transform tree values = transform tree values'
  | shape => shape.Steady

/-- A shape that reads no values is steady. -/
theorem Blind.steady {ρ : Type} {shape : Shape V α ρ} (h : shape.Blind) : shape.Steady := by
  cases shape <;> first | exact h | trivial

end Shape

namespace Script

variable {exact : Recognizer V α → Prop} {whole same : Prop}

/-- The scripts of a shape in two views of one input are alike. -/
theorem alike_script {limit limit' : Nat} (hlimit : limit ≤ limit') {view view' : View V}
    (hinput : view.input = view'.input) (hsame : same → view.window = view'.window)
    {shape : Shape V α (Recognizer V α)} (hsteady : view.values = view'.values ∨ shape.Steady)
    (hexact : whole → ∀ p ∈ shape.parts, exact p)
    (hblind : whole → view.values = view'.values ∨ shape.Blind) (pos : Position) :
    Alike shape.parts exact whole same (shape.script limit view pos)
      (shape.script limit' view' pos) := by
  obtain ⟨input, values, window⟩ := view
  obtain ⟨input', values', window'⟩ := view'
  cases hinput
  cases shape with
  | leaf l =>
    have houtcome : l.outcome input values pos = l.outcome input values' pos := by
      rcases hsteady with hvalues | hsteady
      · cases hvalues
        rfl
      · exact hsteady input values values' pos
    rw [Shape.script, Shape.script, houtcome]
    exact .ended (.refl _)
  | mapped transform p =>
    refine alike_onOutcome (by simp [Shape.parts]) alike_done_none ?_
    intro m m' hstop htree
    refine alike_done_some hstop ?_
    intro h
    have htrees := htree (hexact h p (by simp [Shape.parts]))
    show transform m.tree values = transform m'.tree values'
    rcases hblind h with hvalues | hblind
    · cases hvalues
      rw [htrees]
    · rw [htrees]
      exact hblind _ _ _
  | sequence ps =>
    refine alike_inOrder (fun p hp => hp) hexact alike_done_none ?_
    intro trees trees' stop htrees
    refine alike_done_some rfl ?_
    intro h
    rw [htrees h]
  | choice ps => exact alike_firstOf (fun p hp => hp) hexact
  | optional p =>
    refine alike_onOutcome (by simp [Shape.parts]) (alike_done_some rfl fun _ => rfl) ?_
    intro m m' hstop htree
    refine alike_done_some hstop ?_
    intro h
    show Tree.present m.tree = Tree.present m'.tree
    rw [htree (hexact h p (by simp [Shape.parts]))]
  | required p =>
    refine alike_onOutcome (by simp [Shape.parts]) (.note (.ended (.raised ?_))) ?_
    · intro h
      cases hsame h
      rfl
    · intro m m' hstop htree
      exact alike_done_some hstop fun h => htree (hexact h p (by simp [Shape.parts]))
  | conditional t p q =>
    refine alike_onOutcome (by simp [Shape.parts]) ?_ ?_
    · exact alike_last (by simp [Shape.parts]) fun h => hexact h q (by simp [Shape.parts])
    · intro m m' hstop htree
      exact alike_last (by simp [Shape.parts]) fun h => hexact h p (by simp [Shape.parts])
  | repeated p =>
    have hstep : Step.Alike [p] exact whole same (onOutcome p) :=
      alike_step (by simp) fun h => hexact h p (by simp [Shape.parts])
    exact alike_repetition hstep hstep hlimit
  | separated p d =>
    have hp : whole → exact p := fun h => hexact h p (by simp [Shape.parts])
    exact alike_repetition (alike_step (by simp [Shape.parts]) hp)
      (alike_after (by simp [Shape.parts]) (by simp [Shape.parts]) hp) hlimit
  | butNot p q =>
    refine alike_onOutcome (by simp [Shape.parts]) ?_ fun _ _ _ _ => alike_done_none
    exact alike_last (by simp [Shape.parts]) fun h => hexact h p (by simp [Shape.parts])
  | catching p =>
    refine .call (by simp [Shape.parts]) ?_
    intro e e' h
    cases h with
    | failed => exact alike_done_none
    | matched hstop htree =>
      exact alike_done_some hstop fun h => htree (hexact h p (by simp [Shape.parts]))
    | raised _ => exact alike_done_none
  | nested sub p =>
    refine .nest (by simp [Shape.parts]) ?_
    intro e e' h
    cases h with
    | failed => exact alike_done_none
    | @matched m m' hstop htree =>
      refine alike_done_some rfl ?_
      intro h
      exact htree (hexact h p (by simp [Shape.parts]))
    | raised h =>
      cases h trivial
      exact .ended (.refl _)
  | clearing t p =>
    refine .clear (alike_last (by simp [Shape.parts]) ?_)
    exact fun h => hexact h p (by simp [Shape.parts])
  | counted label p =>
    refine .note (alike_last (by simp [Shape.parts]) ?_)
    exact fun h => hexact h p (by simp [Shape.parts])
  | probed label p =>
    exact .probe (by simp [Shape.parts]) fun h => hexact h p (by simp [Shape.parts])

/-- Scripts that are alike have courses that are alike. -/
theorem Alike.course {parts : List (Recognizer V α)} {script script' : Script V α}
    (h : Script.Alike parts exact whole same script script') {guide guide' : Guide V α}
    {st st' : Setting V} {sure : StoreId → Prop}
    (hsub : ∀ p ∈ parts, ∀ pos c, guide st p pos = some c →
      ∃ c', guide' st' p pos = some c' ∧ Course.Alike (exact p) same sure c c')
    (hnest : ∀ p ∈ parts, ∀ sub c, guide (st.nested sub) p .start = some c →
      ∃ c', guide' (st'.nested sub) p .start = some c' ∧
        Ending.Alike (exact p) True c.ending c'.ending)
    {c : Course V α} (hc : script.course guide st = some c) :
    ∃ c', script'.course guide' st' = some c' ∧ Course.Alike whole same sure c c' := by
  induction h generalizing c with
  | ended h =>
    cases hc
    exact ⟨_, rfl, h, .nil⟩
  | exhausted script => cases hc
  | call hp hnext ih =>
    obtain ⟨c₁, hc₁, hc⟩ := Option.bind_eq_some_iff.1 hc
    obtain ⟨c₂, hc₂, rfl⟩ := Option.map_eq_some_iff.1 hc
    obtain ⟨d₁, hd₁, halike₁⟩ := hsub _ hp _ _ hc₁
    obtain ⟨d₂, hd₂, halike₂⟩ := ih _ _ halike₁.ending hc₂
    refine ⟨d₁.andThen d₂, ?_, halike₁.andThen halike₂⟩
    exact Option.bind_eq_some_iff.2 ⟨d₁, hd₁, Option.map_eq_some_iff.2 ⟨d₂, hd₂, rfl⟩⟩
  | nest hp hnext ih =>
    obtain ⟨c₁, hc₁, hc⟩ := Option.bind_eq_some_iff.1 hc
    obtain ⟨d₁, hd₁, halike₁⟩ := hnest _ hp _ _ hc₁
    obtain ⟨d₂, hd₂, halike₂⟩ := ih _ _ halike₁ hc
    exact ⟨d₂, Option.bind_eq_some_iff.2 ⟨d₁, hd₁, hd₂⟩, halike₂⟩
  | clear _ ih => exact ih hc
  | note _ ih => exact ih hc
  | probe hp hexact =>
    obtain ⟨d, hd, halike⟩ := hsub _ hp _ _ hc
    exact ⟨d, hd, halike.ending.mono hexact id, halike.track⟩

end Script
/-! ## Courses -/

section Courses

variable {ρ : Targets V α} {P B : Recognizer V α → Prop}

/-- Whether the trees of a recognizer are the same in two settings: the values are the
same, or the recognizer is one of those that read none. -/
def Setting.Exact (B : Recognizer V α → Prop) (st st' : Setting V) (r : Recognizer V α) : Prop :=
  st.values = st'.values ∧ st.frozen = st'.frozen ∨ B r

/-- Whether the calls through a store come to the same in two settings: they see the
same values, or the cached recognizers read none. -/
def Setting.Sure (P B : Recognizer V α → Prop) (st st' : Setting V) (s : StoreId) : Prop :=
  st.frozen s = st'.frozen s ∨ ∀ r, P r → r.isCached = true → B r

namespace Setting

variable {st st' : Setting V} {r : Recognizer V α}

/-- What holds below a call for the settings around it. -/
theorem Exact.below (h : Exact B st st' r) (caching : Caching) :
    Exact B (st.below caching) (st'.below caching) r := by
  cases caching with
  | active s =>
    refine h.imp_left ?_
    rintro ⟨-, hfrozen⟩
    show st.frozen s = st'.frozen s ∧ (fun _ => st.frozen s) = fun _ => st'.frozen s
    rw [hfrozen]
    exact ⟨rfl, rfl⟩
  | never => exact h
  | paused s => exact h

/-- A parse inside makes the same values of values that are the same. -/
theorem Exact.nested {sub : Subparse V} (h : Exact B st st' r) :
    Exact B (st.nested sub) (st'.nested sub) r := by
  refine h.imp_left ?_
  rintro ⟨hvalues, -⟩
  show sub.values st.values = sub.values st'.values ∧
    (fun _ => sub.values st.values) = fun _ => sub.values st'.values
  rw [hvalues]
  exact ⟨rfl, rfl⟩

/-- A call through a store that is sure comes to the same trees. -/
theorem Sure.exact_within {s : StoreId} (h : Sure P B st st' s) (hr : P r)
    (hcached : r.isCached = true) : Exact B (st.within s) (st'.within s) r := by
  refine h.imp ?_ fun hB => hB r hr hcached
  intro hfrozen
  show st.frozen s = st'.frozen s ∧ (fun _ => st.frozen s) = fun _ => st'.frozen s
  rw [hfrozen]
  exact ⟨rfl, rfl⟩

/-- A call sees the input of the parse. -/
theorem below_input (st : Setting V) (caching : Caching) : (st.below caching).input = st.input := by
  cases caching <;> rfl

/-- A call sees the window of the parse. -/
theorem below_window (st : Setting V) (caching : Caching) :
    (st.below caching).window = st.window := by
  cases caching <;> rfl

end Setting

/-- Calls of one recognizer are alike when what it does itself is. -/
theorem Course.Alike.around {st st' : Setting V} {r : Recognizer V α} (hr : P r) {same : Prop}
    {c c' : Course V α} (pos : Position)
    (h : Course.Alike (Setting.Exact B (st.below r.handle.caching) (st'.below r.handle.caching) r)
      same (Setting.Sure P B (st.below r.handle.caching) (st'.below r.handle.caching)) c c') :
    Course.Alike (Setting.Exact B st st' r) same (Setting.Sure P B st st')
      (c.around r.handle pos) (c'.around r.handle pos) := by
  have hcached : r.isCached = r.handle.caching.isActive := rfl
  unfold Course.around
  cases hcaching : r.handle.caching with
  | active s =>
    rw [hcaching] at h hcached
    refine ⟨h.ending.mono (fun hexact => hexact.below (.active s)) id, ?_⟩
    refine .cons (.entered _ _) (.cons (.left _ _ ?_) .nil)
    have htape := h.tape
    have hending := h.ending
    unfold Course.slotsThrough
    generalize c.ending = ending at hending
    generalize c'.ending = ending' at hending
    cases hending with
    | failed => exact .cons (.settled .failed) .nil
    | matched hstop htree =>
      refine .cons (.settled (.matched hstop ?_)) .nil
      intro hsure
      exact htree (hsure.exact_within hr hcached)
    | raised he =>
      refine .cons (.raised s) ?_
      generalize c.tape = tape at htape
      generalize c'.tape = tape' at htape
      induction htape with
      | nil => exact .nil
      | cons _ _ ih => exact .cons .passed ih
  | never =>
    rw [hcaching] at h
    exact ⟨h.ending, .cons (.entered _ _) (List.rel_append h.track (.cons (.left _ _ .nil) .nil))⟩
  | paused s =>
    rw [hcaching] at h
    exact ⟨h.ending, .cons (.entered _ _) (List.rel_append h.track (.cons (.left _ _ .nil) .nil))⟩

/-- The courses of a recognizer in two settings of one input are alike. -/
theorem course_alike (hP : Closed ρ P)
    (hsteady : ∀ handle shape, P (.node handle shape) → shape.Steady) (hB : Closed ρ B)
    (hblind : ∀ handle shape, B (.node handle shape) → shape.Blind) {limit limit' : Nat}
    (hlimit : limit ≤ limit') {st st' : Setting V} (hinput : st.input = st'.input) {same : Prop}
    (hsame : same → st.window = st'.window) {r : Recognizer V α} (hr : P r) {pos : Position}
    {c : Course V α} (hc : course ρ limit st r pos = some c) :
    ∃ c', course ρ limit' st' r pos = some c' ∧
      Course.Alike (Setting.Exact B st st' r) same (Setting.Sure P B st st') c c' := by
  induction limit generalizing limit' st st' same r pos c with
  | zero => cases hc
  | succ limit ih =>
    obtain ⟨limit', rfl⟩ : ∃ k, limit' = k + 1 := ⟨limit' - 1, by omega⟩
    have hle : limit ≤ limit' := by omega
    obtain ⟨w, hw, rfl⟩ := course_succ_eq_some.1 hc
    have hinput' : (st.below r.handle.caching).input = (st'.below r.handle.caching).input := by
      rw [Setting.below_input, Setting.below_input, hinput]
    have hsame' : same →
        (st.below r.handle.caching).window = (st'.below r.handle.caching).window := by
      intro h
      rw [Setting.below_window, Setting.below_window, hsame h]
    suffices hwork : ∃ w', r.workCourse ρ (course ρ limit') limit'
        (st'.below r.handle.caching) pos =
        some w' ∧ Course.Alike
          (Setting.Exact B (st.below r.handle.caching) (st'.below r.handle.caching) r) same
          (Setting.Sure P B (st.below r.handle.caching) (st'.below r.handle.caching)) w w' by
      obtain ⟨w', hw', halike⟩ := hwork
      exact ⟨_, course_succ_eq_some.2 ⟨w', hw', rfl⟩, halike.around hr pos⟩
    generalize st.below r.handle.caching = inner at hw hinput' hsame' ⊢
    generalize st'.below r.handle.caching = inner' at hinput' hsame' ⊢
    cases r with
    | link handle l =>
      rw [Recognizer.workCourse] at hw ⊢
      cases hl : ρ l with
      | none =>
        rw [hl] at hw
        cases hw
        exact ⟨_, rfl, .refl _, .nil⟩
      | some target =>
        rw [hl] at hw
        obtain ⟨w', hw', halike⟩ := ih hle hinput' hsame' (hP.target hr hl) hw
        refine ⟨w', hw', halike.ending.mono ?_ id, halike.track⟩
        exact fun h => h.imp_right fun hB' => hB.target hB' hl
    | node handle shape =>
      rw [Recognizer.workCourse] at hw ⊢
      have hexact : Setting.Exact B inner inner' (.node handle shape) →
          ∀ p ∈ shape.parts, Setting.Exact B inner inner' p :=
        fun h p hp => h.imp_right fun hB' => hB.part hB' hp
      have hscript : Script.Alike shape.parts (Setting.Exact B inner inner')
          (Setting.Exact B inner inner' (.node handle shape)) same
          (shape.script limit inner.toView pos) (shape.script limit' inner'.toView pos) :=
        Script.alike_script hle hinput' hsame' (.inr (hsteady handle shape hr)) hexact
          (fun h => h.imp (fun hvalues => hvalues.1) fun hB' => hblind handle shape hB') pos
      refine hscript.course ?_ ?_ hw
      · intro p hp pos c hc
        exact ih hle hinput' hsame' (hP.part hr hp) hc
      · intro p hp sub c hc
        have hinput : (inner.nested sub).input = (inner'.nested sub).input := rfl
        have hwindow : True → (inner.nested sub).window = (inner'.nested sub).window :=
          fun _ => rfl
        obtain ⟨c', hc', halike⟩ := ih hle hinput hwindow (hP.part hr hp) hc
        exact ⟨c', hc', halike.ending.mono (fun h => h.nested) id⟩

/-- A course is found under every greater limit. -/
theorem course_mono (hP : Closed ρ P)
    (hsteady : ∀ handle shape, P (.node handle shape) → shape.Steady) {limit limit' : Nat}
    (hlimit : limit ≤ limit') {st : Setting V} {r : Recognizer V α} (hr : P r) {pos : Position}
    {c : Course V α} (hc : course ρ limit st r pos = some c) :
    course ρ limit' st r pos = some c := by
  have hnone : Closed ρ fun _ : Recognizer V α => False := ⟨fun h _ => h, fun h _ => h⟩
  have hwindow : True → st.window = st.window := fun _ => rfl
  obtain ⟨c', hc', halike⟩ := course_alike hP hsteady hnone (fun _ _ h => h.elim) hlimit rfl
    hwindow hr hc
  rw [hc', halike.eq (.inl ⟨rfl, rfl⟩) trivial fun s => .inl rfl]

/-- An attempt has one course, whatever the limit. -/
theorem course_unique (hP : Closed ρ P)
    (hsteady : ∀ handle shape, P (.node handle shape) → shape.Steady) {limit limit' : Nat}
    {st : Setting V} {r : Recognizer V α} (hr : P r) {pos : Position} {c c' : Course V α}
    (hc : course ρ limit st r pos = some c) (hc' : course ρ limit' st r pos = some c') :
    c = c' := by
  have hmax := course_mono hP hsteady (Nat.le_max_left limit limit') hr hc
  rw [course_mono hP hsteady (Nat.le_max_right limit limit') hr hc'] at hmax
  exact (Option.some.inj hmax).symm

end Courses

end SlotGrammar
