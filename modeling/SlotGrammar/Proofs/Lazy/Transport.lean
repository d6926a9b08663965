import SlotGrammar.Proofs.Lazy.Sealing

/-!
# Courses in other grammars

A recognizer has the same course, up to numbers, in a grammar that has under matching numbers
all that its own grammar has, and maybe more.  For a course that comes to an end never comes to
what has not been built.

Main results:

- Theorem `Script.over_script`: the scripts of a shape over matching parts are the same.
- Theorem `Includes.course`: so are courses in a grammar that has as much.
-/

namespace SlotGrammar

open Grammar

variable {V α : Type}

/-! ## Scripts over other parts -/

namespace Script

variable {R : Recognizer V α → Recognizer V α → Prop}

/-- Whether two scripts are the same, but for their parts, which are related. -/
inductive Over (R : Recognizer V α → Recognizer V α → Prop) : Script V α → Script V α → Prop where
  | ended (ending : Ending V α) : Over R (ended ending) (ended ending)
  | exhausted : Over R exhausted exhausted
  | call {p p' : Recognizer V α} {pos : Position} {next next' : Ending V α → Script V α}
      (hp : R p p') (hnext : ∀ ending, Over R (next ending) (next' ending)) :
      Over R (call p pos next) (call p' pos next')
  | nest {sub : Subparse V} {p p' : Recognizer V α} {next next' : Ending V α → Script V α}
      (hp : R p p') (hnext : ∀ ending, Over R (next ending) (next' ending)) :
      Over R (nest sub p next) (nest sub p' next')
  | clear {t t' : Recognizer V α} {next next' : Script V α} (hnext : Over R next next') :
      Over R (clear t next) (clear t' next')
  | note {event : Event V α} {next next' : Script V α} (hnext : Over R next next') :
      Over R (note event next) (note event next')
  | probe {label : String} {p p' : Recognizer V α} {pos : Position} (hp : R p p') :
      Over R (probe label p pos) (probe label p' pos)

/-- Related parts with related continuations make related scripts. -/
theorem over_onOutcome {p p' : Recognizer V α} (hp : R p p') {pos : Position}
    {next next' : Outcome V α → Script V α}
    (hnext : ∀ outcome, Over R (next outcome) (next' outcome)) :
    Over R (onOutcome p pos next) (onOutcome p' pos next') := by
  refine .call hp fun ending => ?_
  cases ending with
  | error e => exact .ended _
  | ok outcome => exact hnext outcome

/-- Parts in order are related when the parts are, one by one. -/
theorem over_inOrder {ps ps' : List (Recognizer V α)} (hps : List.Forall₂ R ps ps') {pos : Position}
    {next next' : Option (List (Tree V α) × Position) → Script V α}
    (hnext : ∀ rest, Over R (next rest) (next' rest)) :
    Over R (inOrder ps pos next) (inOrder ps' pos next') := by
  induction hps generalizing pos next next' with
  | nil => exact hnext _
  | cons hp _ ih =>
    refine over_onOutcome hp fun outcome => ?_
    cases outcome with
    | none => exact hnext none
    | some first =>
      refine ih fun rest => ?_
      cases rest with
      | none => exact hnext none
      | some rest => exact hnext _

/-- The first of some parts is related when the parts are, one by one. -/
theorem over_firstOf {ps ps' : List (Recognizer V α)} (hps : List.Forall₂ R ps ps')
    (pos : Position) : Over R (firstOf ps pos) (firstOf ps' pos) := by
  induction hps with
  | nil => exact .ended _
  | cons hp _ ih =>
    refine over_onOutcome hp fun outcome => ?_
    cases outcome with
    | none => exact ih
    | some found => exact .ended _

/-- Whether two steps of repetitions are the same when what comes after them is. -/
def Step.Over (R : Recognizer V α → Recognizer V α → Prop) (step step' : Step V α) : Prop :=
  ∀ pos next next', (∀ outcome, Script.Over R (next outcome) (next' outcome)) →
    Script.Over R (step pos next) (step' pos next')

/-- One related part is one related step. -/
theorem over_step {p p' : Recognizer V α} (hp : R p p') :
    Step.Over R (onOutcome p) (onOutcome p') :=
  fun _ _ _ hnext => over_onOutcome hp hnext

/-- A related delimiter and a related main part are one related step. -/
theorem over_after {d d' p p' : Recognizer V α} (hd : R d d') (hp : R p p') :
    Step.Over R (after d p) (after d' p') := by
  intro pos next next' hnext
  refine over_onOutcome hd fun outcome => ?_
  cases outcome with
  | none => exact hnext none
  | some found => exact over_onOutcome hp hnext

/-- Chains of related steps are related. -/
theorem over_chain {step step' : Step V α} (hstep : step.Over R step') (limit : Nat)
    {pos : Position} {next next' : List (Tree V α) → Position → Script V α}
    (hnext : ∀ trees stop, Over R (next trees stop) (next' trees stop)) :
    Over R (chain step limit pos next) (chain step' limit pos next') := by
  induction limit generalizing pos next next' with
  | zero => exact .exhausted
  | succ limit ih =>
    refine hstep _ _ _ fun outcome => ?_
    cases outcome with
    | none => exact hnext _ _
    | some found =>
      by_cases hlt : pos < found.stop
      · simp only [hlt, if_true]
        exact ih fun trees stop => hnext _ _
      · simp only [hlt, if_false]
        exact hnext _ _

/-- Repetitions of related steps are related. -/
theorem over_repetition {first first' step step' : Step V α} (hfirst : first.Over R first')
    (hstep : step.Over R step') (limit : Nat) (pos : Position) :
    Over R (repetition limit first step pos) (repetition limit first' step' pos) := by
  refine hfirst _ _ _ fun outcome => ?_
  cases outcome with
  | none => exact .ended _
  | some found =>
    by_cases hlt : pos < found.stop
    · simp only [hlt, if_true]
      exact over_chain hstep limit fun _ _ => .ended _
    · simp only [hlt, if_false]
      exact .ended _

/-- The scripts of a shape over related parts are the same. -/
theorem over_script (limit : Nat) (view : View V) {shape : Shape V α (Recognizer V α)}
    {ps : List (Recognizer V α)} (h : List.Forall₂ R shape.parts ps) (pos : Position) :
    Over R (shape.script limit view pos) ((shape.withParts ps).script limit view pos) := by
  cases shape with
  | leaf l =>
    cases h
    exact .ended _
  | mapped transform p =>
    rcases h with _ | ⟨hp, _ | _⟩
    exact over_onOutcome hp fun _ => .ended _
  | sequence parts =>
    refine over_inOrder h fun rest => ?_
    cases rest <;> exact .ended _
  | choice parts => exact over_firstOf h pos
  | optional p =>
    rcases h with _ | ⟨hp, _ | _⟩
    refine over_onOutcome hp fun outcome => ?_
    cases outcome <;> exact .ended _
  | required p =>
    rcases h with _ | ⟨hp, _ | _⟩
    refine over_onOutcome hp fun outcome => ?_
    cases outcome with
    | none => exact .note (.ended _)
    | some found => exact .ended _
  | conditional t p q =>
    rcases h with _ | ⟨ht, _ | ⟨hp, _ | ⟨hq, _ | _⟩⟩⟩
    refine over_onOutcome ht fun outcome => ?_
    cases outcome with
    | none => exact over_onOutcome hq fun _ => .ended _
    | some found => exact over_onOutcome hp fun _ => .ended _
  | repeated p =>
    rcases h with _ | ⟨hp, _ | _⟩
    exact over_repetition (over_step hp) (over_step hp) limit pos
  | separated p d =>
    rcases h with _ | ⟨hp, _ | ⟨hd, _ | _⟩⟩
    exact over_repetition (over_step hp) (over_after hd hp) limit pos
  | butNot p q =>
    rcases h with _ | ⟨hp, _ | ⟨hq, _ | _⟩⟩
    refine over_onOutcome hq fun outcome => ?_
    cases outcome with
    | none => exact over_onOutcome hp fun _ => .ended _
    | some found => exact .ended _
  | catching p =>
    rcases h with _ | ⟨hp, _ | _⟩
    refine .call hp fun ending => ?_
    cases ending <;> exact .ended _
  | nested sub p =>
    rcases h with _ | ⟨hp, _ | _⟩
    refine .nest hp fun ending => ?_
    cases ending <;> exact .ended _
  | clearing t p =>
    rcases h with _ | ⟨ht, _ | ⟨hp, _ | _⟩⟩
    exact .clear (over_onOutcome hp fun _ => .ended _)
  | counted label p =>
    rcases h with _ | ⟨hp, _ | _⟩
    exact .note (over_onOutcome hp fun _ => .ended _)
  | probed label p =>
    rcases h with _ | ⟨hp, _ | _⟩
    exact .probe hp

end Script

/-! ## Courses up to numbers -/

variable {T : Shape V α Unit → Prop} {M : Matching}

/-- Whether two slots are the same, in matching stores. -/
inductive Slot.Matches (M : Matching) : Slot V α → Slot V α → Prop where
  | settled {s s' : StoreId} {outcome : Outcome V α} (h : M .store s s') :
      Matches M (.settled s outcome) (.settled s' outcome)
  | raised {s s' : StoreId} (h : M .store s s') : Matches M (.raised s) (.raised s')
  | passed : Matches M .passed .passed

/-- Whether two marks are the same, for matching handles. -/
inductive Mark.Matches (M : Matching) : Mark V α → Mark V α → Prop where
  | entered {handle handle' : Handle} {pos : Position} (h : handle.Matches M handle') :
      Matches M (.entered handle pos) (.entered handle' pos)
  | left {handle handle' : Handle} {pos : Position} {slots slots' : List (Slot V α)}
      (h : handle.Matches M handle') (hslots : List.Forall₂ (Slot.Matches M) slots slots') :
      Matches M (.left handle pos slots) (.left handle' pos slots')

/-- Whether two courses are the same up to numbers. -/
structure Course.Matches (M : Matching) (c c' : Course V α) : Prop where
  ending : c'.ending = c.ending
  track : List.Forall₂ (Mark.Matches M) c.track c'.track

/-- Whether recognizers see the same in two settings, and the calls through matching stores
do. -/
structure Setting.Matches (M : Matching) (st st' : Setting V) : Prop where
  view : st'.toView = st.toView
  frozen : ∀ s s', M .store s s' → st'.frozen s' = st.frozen s

namespace Setting.Matches

variable {st st' : Setting V}

/-- In plain settings it is enough to see the same. -/
theorem plain (view : View V) : Setting.Matches M view.plain view.plain :=
  ⟨rfl, fun _ _ _ => rfl⟩

/-- Settings stay matched inside a nested parse. -/
theorem nested (h : st.Matches M st') (sub : Subparse V) :
    Setting.Matches M (st.nested sub) (st'.nested sub) := by
  have hsame : st'.nested sub = st.nested sub := by
    unfold View.nested
    rw [h.view]
  rw [hsame]
  exact .plain _

/-- Settings stay matched below matched caching. -/
theorem below (h : st.Matches M st') {caching caching' : Caching}
    (hcaching : caching.Matches M caching') :
    Setting.Matches M (st.below caching) (st'.below caching') := by
  cases hcaching with
  | never => exact h
  | paused _ => exact h
  | @active s s' hs =>
    have hsame : st'.within s' = st.within s := by
      unfold Setting.within
      rw [h.frozen s s' hs, h.view]
    show Setting.Matches M (st.within s) (st'.within s')
    rw [hsame]
    exact .plain _

end Setting.Matches

/-- Matching marks add matching slots. -/
theorem tapeOf_matches {marks marks' : List (Mark V α)}
    (h : List.Forall₂ (Mark.Matches M) marks marks') :
    List.Forall₂ (Slot.Matches M) (tapeOf marks) (tapeOf marks') := by
  induction h with
  | nil => exact .nil
  | cons hmark _ ih =>
    rw [tapeOf_cons, tapeOf_cons]
    refine List.rel_append ?_ ih
    cases hmark with
    | entered _ => exact .nil
    | left _ hslots => exact hslots

namespace Course.Matches

variable {c c' d d' : Course V α}

/-- Matched caching composes. -/
theorem andThen (h : c.Matches M c') (h' : d.Matches M d') :
    (c.andThen d).Matches M (c'.andThen d') :=
  ⟨h'.ending, List.rel_append h.track h'.track⟩

/-- Matching courses have matching slots. -/
theorem tape (h : c.Matches M c') : List.Forall₂ (Slot.Matches M) c.tape c'.tape :=
  tapeOf_matches h.track

/-- The slots that matched caching goes through are matched, one by one. -/
theorem slotsThrough (h : c.Matches M c') {s s' : StoreId} (hs : M .store s s') :
    List.Forall₂ (Slot.Matches M) (c.slotsThrough s) (c'.slotsThrough s') := by
  unfold Course.slotsThrough
  rw [h.ending]
  cases c.ending with
  | ok outcome => exact .cons (.settled hs) .nil
  | error e =>
    refine .cons (.raised hs) ?_
    rw [List.forall₂_map_left_iff, List.forall₂_map_right_iff]
    exact h.tape.imp fun _ _ _ => .passed

/-- Caching around matched handles is matched. -/
theorem around (h : c.Matches M c') {handle handle' : Handle} (hh : handle.Matches M handle')
    (pos : Position) : (c.around handle pos).Matches M (c'.around handle' pos) := by
  refine ⟨by rw [Course.around_ending, Course.around_ending, h.ending], ?_⟩
  have hinside : List.Forall₂ (Mark.Matches M)
      (.entered handle pos :: (c.track ++ [.left handle pos []]))
      (.entered handle' pos :: (c'.track ++ [.left handle' pos []])) :=
    .cons (.entered hh) (List.rel_append h.track (.cons (.left hh .nil) .nil))
  unfold Course.around
  have hcaching := hh.caching
  generalize handle.caching = caching at hcaching
  generalize handle'.caching = caching' at hcaching
  cases hcaching with
  | never => exact hinside
  | paused _ => exact hinside
  | active hs => exact .cons (.entered hh) (.cons (.left hh (h.slotsThrough hs)) .nil)

end Course.Matches

/-- Scripts over parts with matching courses have matching courses. -/
theorem Script.Over.course {R : Recognizer V α → Recognizer V α → Prop} {guide guide' : Guide V α}
    (h : ∀ (p p' : Recognizer V α) (st st' : Setting V) (pos : Position) (c : Course V α), R p p' →
      st.Matches M st' → guide st p pos = some c →
      ∃ c', guide' st' p' pos = some c' ∧ c.Matches M c')
    {script script' : Script V α} (hscript : script.Over R script') {st st' : Setting V}
    (hst : st.Matches M st') {c : Course V α} (hc : script.course guide st = some c) :
    ∃ c', script'.course guide' st' = some c' ∧ c.Matches M c' := by
  induction hscript generalizing c with
  | ended ending =>
    cases hc
    exact ⟨_, rfl, rfl, .nil⟩
  | exhausted => cases hc
  | call hp _ ih =>
    obtain ⟨c₁, hc₁, hc⟩ := Option.bind_eq_some_iff.1 hc
    obtain ⟨c₂, hc₂, rfl⟩ := Option.map_eq_some_iff.1 hc
    obtain ⟨d₁, hd₁, h₁⟩ := h _ _ _ _ _ _ hp hst hc₁
    obtain ⟨d₂, hd₂, h₂⟩ := ih c₁.ending hc₂
    refine ⟨d₁.andThen d₂, ?_, h₁.andThen h₂⟩
    rw [Script.course, hd₁, Option.bind_some, h₁.ending, hd₂]
    rfl
  | nest hp _ ih =>
    obtain ⟨c₁, hc₁, hc⟩ := Option.bind_eq_some_iff.1 hc
    obtain ⟨d₁, hd₁, h₁⟩ := h _ _ _ _ _ _ hp (hst.nested _) hc₁
    obtain ⟨d₂, hd₂, h₂⟩ := ih c₁.ending hc
    refine ⟨d₂, ?_, h₂⟩
    rw [Script.course, hd₁, Option.bind_some, h₁.ending, hd₂]
  | clear _ ih => exact ih hc
  | note _ ih => exact ih hc
  | probe hp => exact h _ _ _ _ _ _ hp hst hc

/-- Recognizers that match have courses that match, where matching links lead to what matches,
unless what they lead to never comes to an end. -/
theorem course_of_matches {ρ ρ' : Targets V α}
    (hnone : ∀ {l l' : Link}, l.Matches M l' → ρ l = none → ρ' l' = none)
    (htarget : ∀ {l l' : Link} {t : Recognizer V α}, l.Matches M l' → ρ l = some t →
      (∃ t', ρ' l' = some t' ∧ t.Matches T M t') ∨ ∀ limit st pos, course ρ limit st t pos = none)
    {limit : Nat} {st st' : Setting V} (hst : st.Matches M st') {r r' : Recognizer V α}
    (hr : r.Matches T M r') {pos : Position} {c : Course V α}
    (hc : course ρ limit st r pos = some c) :
    ∃ c', course ρ' limit st' r' pos = some c' ∧ c.Matches M c' := by
  -- both courses have the same limit, and parts and targets are attempted with a lower one
  induction limit generalizing st st' r r' pos c with
  | zero => cases hc
  | succ limit ih =>
    obtain ⟨w, hw, rfl⟩ := course_succ_eq_some.1 hc
    have hbelow := hst.below hr.handle.caching
    have hwork : ∃ w', r'.workCourse ρ' (course ρ' limit) limit (st'.below r'.handle.caching) pos =
        some w' ∧ w.Matches M w' := by
      cases hr with
      | @node handle handle' shape ps hhandle hkind hlength hparts =>
        have hparts : List.Forall₂ (Recognizer.Matches T M) shape.parts ps :=
          List.forall₂_iff_zip.2 ⟨hlength.symm, fun hx => hparts _ hx⟩
        have hscript := Script.over_script limit (st.below handle.caching).toView hparts pos
        rw [Recognizer.workCourse, hbelow.view]
        have hparts : ∀ (p p' : Recognizer V α) (st st' : Setting V) (pos : Position)
            (c : Course V α), p.Matches T M p' → st.Matches M st' →
            course ρ limit st p pos = some c →
            ∃ c', course ρ' limit st' p' pos = some c' ∧ c.Matches M c' :=
          fun _ _ _ _ _ _ hp hst hc => ih hst hp hc
        exact hscript.course hparts hbelow hw
      | @link handle handle' l l' hhandle hl =>
        rw [Recognizer.workCourse] at hw ⊢
        cases hρ : ρ l with
        | none =>
          rw [hρ] at hw
          cases hw
          rw [hnone hl hρ]
          exact ⟨_, rfl, rfl, .nil⟩
        | some t =>
          rw [hρ] at hw
          rcases htarget hl hρ with ⟨t', ht', hmatch⟩ | hloop
          · rw [ht']
            exact ih hbelow hmatch hw
          · have hloops : course ρ limit _ t pos = some w := hw
            rw [hloop] at hloops
            cases hloops
    obtain ⟨w', hw', hmatch⟩ := hwork
    exact ⟨_, course_succ_eq_some.2 ⟨w', hw', rfl⟩, hmatch.around hr.handle pos⟩

/-! ## Grammars that include others -/

namespace Grammar

variable {a b : Grammar V α}

/-- Whether a grammar has under matching numbers all that another one has, and the same
definitions live in both. -/
structure Includes (T : Shape V α Unit → Prop) (M : Matching) (a b : Grammar V α) : Prop where
  definition_lt : ∀ c c', M .definition c c' → c < a.definitions.size ∧ c' < b.definitions.size
  deferral_lt : ∀ c c', M .deferral c c' → c < a.deferrals.size ∧ c' < b.deferrals.size
  definitions : ∀ c c', M .definition c c' →
    Option.Rel (Recognizer.Matches T M) a.definitions[c]?.join b.definitions[c']?.join
  settled : ∀ (c c' : Nat) (r : Recognizer V α), M .deferral c c' →
    a.deferrals[c]? = some (.settled r) →
    ∃ r', b.deferrals[c']? = some (.settled r') ∧ r.Matches T M r'
  kept_iff : ∀ c c', M .definition c c' → (b.Kept (.definition c') ↔ a.Kept (.definition c))

/-- A grammar includes what it has been unfolded from. -/
theorem Tidy.includes (ha : a.Tidy T) (h : a.Unfolds b) : a.Includes T (.below a) b := by
  have hprecedes := Precedes.unfolds ha h
  refine ⟨?_, ?_, ?_, ?_, ?_⟩
  · rintro c _ ⟨rfl, hc⟩
    exact ⟨hc, Nat.lt_of_lt_of_le hc (hprecedes.count_le .definition)⟩
  · rintro c _ ⟨rfl, hc⟩
    exact ⟨hc, Nat.lt_of_lt_of_le hc (hprecedes.count_le .deferral)⟩
  · rintro c _ ⟨rfl, hc⟩
    rw [hprecedes.definitions c hc]
    cases hr : a.definitions[c]?.join with
    | none => exact .none
    | some r => exact .some (ha.whole.definitions c r (Option.join_eq_some_iff.1 hr))
  · rintro c _ r ⟨rfl, -⟩ hr
    exact ⟨r, hprecedes.settled c r hr, ha.whole.settled c r hr⟩
  · rintro c _ ⟨rfl, hc⟩
    exact hprecedes.kept_iff (Nat.not_le_of_lt hc)

namespace Includes

/-- Definitions that match live alike, and are the same up to numbers. -/
theorem definition? (h : a.Includes T M b) {c c' : Nat} (hc : M .definition c c') :
    Option.Rel (Recognizer.Matches T M) (a.sealed.definition? [] c)
      (b.sealed.definition? [] c') := by
  obtain ⟨hlt, hlt'⟩ := h.definition_lt c c' hc
  rw [a.precedes_sealed.definition?_eq (T := T) (by simp) hlt,
    b.precedes_sealed.definition?_eq (T := T) (by simp) hlt']
  have halive : b.isAlive [] c' = a.isAlive [] c := by
    rw [Bool.eq_iff_iff, isAlive_iff_kept (by simp), isAlive_iff_kept (by simp), h.kept_iff c c' hc]
  unfold Grammar.definition?
  rw [halive]
  split
  · exact h.definitions c c' hc
  · exact .none

/-- Matching links lead to what matches, or to what has not been built. -/
theorem target (h : a.Includes T M b) {l l' : Link} (hl : l.Matches M l') :
    Option.Rel (Recognizer.Matches T M) (a.sealed.target l) (b.sealed.target l') ∨
      a.sealed.target l = some a.loop := by
  cases hl with
  | unbound => exact .inl .none
  | @definition c c' hc =>
    left
    obtain ⟨hlt, hlt'⟩ := h.definition_lt c c' hc
    show Option.Rel _ a.sealed.definitions[c]?.join b.sealed.definitions[c']?.join
    rw [sealed_definition_lt hlt, sealed_definition_lt hlt']
    exact h.definitions c c' hc
  | self hc => exact .inl (h.definition? hc)
  | @deferred c c' hc =>
    obtain ⟨hlt, -⟩ := h.deferral_lt c c' hc
    have hd := Array.getElem?_eq_getElem hlt
    rw [target_deferred, target_deferred, sealed_deferral, sealed_deferral, hd]
    cases hcell : a.deferrals[c] with
    | awaiting label e scope => exact .inr rfl
    | settled r =>
      rw [hcell] at hd
      obtain ⟨r', hr', hmatch⟩ := h.settled c c' r hc hd
      rw [hr']
      exact .inl (.some hmatch)

/-- Recognizers that match have courses that match, in a grammar that includes another one. -/
theorem course (h : a.Includes T M b) {limit : Nat} {st st' : Setting V} (hst : st.Matches M st')
    {r r' : Recognizer V α} (hr : r.Matches T M r') {pos : Position} {c : Course V α}
    (hc : course a.sealed.target limit st r pos = some c) :
    ∃ c', SlotGrammar.course b.sealed.target limit st' r' pos = some c' ∧ c.Matches M c' := by
  refine course_of_matches (T := T) ?_ ?_ hst hr hc
  · intro l l' hl hnone
    rcases h.target hl with hrel | hloop
    · rw [hnone] at hrel
      exact eq_none_of_rel_none hrel
    · rw [hnone] at hloop
      cases hloop
  · intro l l' t hl ht
    rcases h.target hl with hrel | hloop
    · rw [ht] at hrel
      exact .inl (exists_of_rel_some hrel)
    · rw [ht] at hloop
      cases hloop
      exact .inr (course_loop a)

end Includes

end Grammar

end SlotGrammar
