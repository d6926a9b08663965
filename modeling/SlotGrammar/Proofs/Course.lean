import SlotGrammar.Proofs.Script

/-!
# Courses

The course of an attempt is what the attempt comes to when nothing is recorded and
nothing is replayed: how it ends, which recognizers it attempts outside every cached
one, and for which of these an ordinal is reserved.  It is a function of the
recognizer and of what the recognizer can see.  The calls through each store may be
given values of their own; everything below such a call sees these.

Main results:

- Theorem `tape_around`: what a call adds to the ordinals of its session.
- Theorem `settled_of_tape`: without a recognizer that catches errors, the ordinals of
  an attempt that does not raise all have an outcome.
-/

namespace SlotGrammar

variable {V α : Type}

/-! ## Settings -/

/-- What recognizers can see, and which values the calls through a store see. -/
structure Setting (V : Type) extends View V where
  frozen : StoreId → List V

/-- The setting in which every call sees the values of the parse. -/
def View.plain (view : View V) : Setting V := ⟨view, fun _ => view.values⟩

/-- The setting of a parse inside a run. -/
def View.nested (view : View V) (sub : Subparse V) : Setting V :=
  View.plain ⟨sub.input, sub.values view.values, sub.options.errorWindow⟩

namespace Setting

/-- The setting below a call through a store: everything sees the values of the call. -/
def within (st : Setting V) (s : StoreId) : Setting V :=
  View.plain ⟨st.input, st.frozen s, st.window⟩

/-- The setting below a call of a recognizer with the given caching. -/
def below (st : Setting V) : Caching → Setting V
  | .active s => st.within s
  | _ => st

/-- Whether every call sees the values of the parse. -/
def IsPlain (st : Setting V) : Prop := ∀ s, st.frozen s = st.values

/-- Where every call sees the values of the parse the setting is plain. -/
theorem isPlain_plain (view : View V) : view.plain.IsPlain := fun _ => rfl

/-- Below a call through a store the setting is plain. -/
theorem isPlain_within (st : Setting V) (s : StoreId) : (st.within s).IsPlain := fun _ => rfl

/-- A call that sees the values of the parse sees them all the way down. -/
theorem within_toView {st : Setting V} {s : StoreId} (h : st.frozen s = st.values) :
    (st.within s).toView = st.toView := by
  show (⟨st.input, st.frozen s, st.window⟩ : View V) = ⟨st.input, st.values, st.window⟩
  rw [h]

end Setting

/-! ## Slots and marks -/

/-- What is known of an ordinal that an attempt reserves. -/
inductive Slot (V α : Type) where
  /-- The call through the store comes to the outcome. -/
  | settled (store : StoreId) (outcome : Outcome V α)
  /-- The call through the store raises an error. -/
  | raised (store : StoreId)
  /-- The ordinal is reserved below a call that raises an error. -/
  | passed

/-- What is seen of an attempt of a recognizer outside every cached one. -/
inductive Mark (V α : Type) where
  /-- The attempt starts. -/
  | entered (handle : Handle) (pos : Position)
  /-- The attempt has ended; the slots are those of its own call. -/
  | left (handle : Handle) (pos : Position) (slots : List (Slot V α))

/-- The slots that a mark adds. -/
def Mark.slots : Mark V α → List (Slot V α)
  | entered _ _ => []
  | left _ _ slots => slots

/-- The slots that a list of marks adds. -/
def tapeOf (marks : List (Mark V α)) : List (Slot V α) := marks.flatMap Mark.slots

@[simp]
theorem tapeOf_nil : tapeOf ([] : List (Mark V α)) = [] := rfl

@[simp]
theorem tapeOf_append (marks marks' : List (Mark V α)) :
    tapeOf (marks ++ marks') = tapeOf marks ++ tapeOf marks' :=
  List.flatMap_append

@[simp]
theorem tapeOf_cons (mark : Mark V α) (marks : List (Mark V α)) :
    tapeOf (mark :: marks) = mark.slots ++ tapeOf marks := rfl

/-! ## Courses -/

/-- What an attempt comes to. -/
structure Course (V α : Type) where
  ending : Ending V α
  track : List (Mark V α)

namespace Course

/-- The slots of the ordinals that an attempt reserves. -/
def tape (c : Course V α) : List (Slot V α) := tapeOf c.track

/-- One course after another, with the ending of the second one. -/
def andThen (c c' : Course V α) : Course V α := ⟨c'.ending, c.track ++ c'.track⟩

/-- The slots of a call through a store: its own, and those below it when it raises. -/
def slotsThrough (s : StoreId) (c : Course V α) : List (Slot V α) :=
  match c.ending with
  | .ok outcome => [.settled s outcome]
  | .error _ => .raised s :: c.tape.map fun _ => .passed

/-- The course of a call, given the course of what it does itself. -/
def around (handle : Handle) (pos : Position) (c : Course V α) : Course V α :=
  match handle.caching with
  | .active s => ⟨c.ending, [.entered handle pos, .left handle pos (slotsThrough s c)]⟩
  | _ => ⟨c.ending, .entered handle pos :: c.track ++ [.left handle pos []]⟩

/-- Courses one after the other reserve ordinals one after the other. -/
@[simp]
theorem tape_andThen (c c' : Course V α) : (c.andThen c').tape = c.tape ++ c'.tape :=
  tapeOf_append _ _

/-- A call ends as what it does itself. -/
@[simp]
theorem around_ending (handle : Handle) (pos : Position) (c : Course V α) :
    (c.around handle pos).ending = c.ending := by
  unfold around
  cases handle.caching <;> rfl

/-- A call through a store adds its own slots, and any other call adds none. -/
theorem tape_around (handle : Handle) (pos : Position) (c : Course V α) :
    (c.around handle pos).tape =
      match handle.caching with
      | .active s => slotsThrough s c
      | _ => c.tape := by
  unfold around tape
  cases handle.caching <;> simp [Mark.slots]

end Course

/-- A way to know the courses of attempts. -/
abbrev Guide (V α : Type) := Setting V → Recognizer V α → Position → Option (Course V α)

/-- The course of a script, given the courses of the attempts in it. -/
def Script.course (guide : Guide V α) (st : Setting V) : Script V α → Option (Course V α)
  | ended ending => some ⟨ending, []⟩
  | exhausted => none
  | call p pos next =>
    (guide st p pos).bind fun c => ((next c.ending).course guide st).map c.andThen
  | nest sub p next =>
    (guide (st.nested sub) p .start).bind fun c => (next c.ending).course guide st
  | clear _ next => next.course guide st
  | note _ next => next.course guide st
  | probe _ p pos => guide st p pos

/-- The recognizers that links lead to. -/
abbrev Targets (V α : Type) := Link → Option (Recognizer V α)

/-- The course of what a recognizer does itself, given the courses of others. -/
def Recognizer.workCourse (ρ : Targets V α) (guide : Guide V α) (limit : Nat) (st : Setting V) :
    Recognizer V α → Position → Option (Course V α)
  | .node _ shape, pos => (shape.script limit st.toView pos).course guide st
  | .link _ target, pos =>
    match ρ target with
    | some r => guide st r pos
    | none => some ⟨.error .unresolved, []⟩

/-- The course of an attempt, with a limit on the nesting of attempts. -/
def course (ρ : Targets V α) : Nat → Guide V α
  | 0, _, _, _ => none
  | limit + 1, st, r, pos =>
    (r.workCourse ρ (course ρ limit) limit (st.below r.handle.caching) pos).map
      (Course.around r.handle pos)

theorem course_succ (ρ : Targets V α) (limit : Nat) (st : Setting V) (r : Recognizer V α)
    (pos : Position) :
    course ρ (limit + 1) st r pos =
      (r.workCourse ρ (course ρ limit) limit (st.below r.handle.caching) pos).map
        (Course.around r.handle pos) := rfl

/-- The course of an attempt is the course of what the recognizer does itself. -/
theorem course_succ_eq_some {ρ : Targets V α} {limit : Nat} {st : Setting V} {r : Recognizer V α}
    {pos : Position} {c : Course V α} :
    course ρ (limit + 1) st r pos = some c ↔
      ∃ w, r.workCourse ρ (course ρ limit) limit (st.below r.handle.caching) pos = some w ∧
        c = w.around r.handle pos := by
  rw [course_succ, Option.map_eq_some_iff]
  exact exists_congr fun w => and_congr_right fun _ => eq_comm

/-! ## Parses inside -/

mutual

/-- Whether an attempt comes to start a parse of a recognizer with caching, when nothing is
replayed.  The attempt need not end. -/
inductive Nests (ρ : Targets V α) :
    Setting V → Recognizer V α → Position → Recognizer V α → Prop where
  | node {st : Setting V} {handle : Handle} {shape : Shape V α (Recognizer V α)} {pos : Position}
      {q : Recognizer V α} (limit : Nat)
      (h : Script.Nests ρ (st.below handle.caching)
        (shape.script limit (st.below handle.caching).toView pos) q) :
      Nests ρ st (.node handle shape) pos q
  | link {st : Setting V} {handle : Handle} {l : Link} {r : Recognizer V α} {pos : Position}
      {q : Recognizer V α} (hr : ρ l = some r) (h : Nests ρ (st.below handle.caching) r pos q) :
      Nests ρ st (.link handle l) pos q

/-- Whether a script comes to start a parse of a recognizer with caching. -/
inductive Script.Nests (ρ : Targets V α) :
    Setting V → Script V α → Recognizer V α → Prop where
  | call {st : Setting V} {p : Recognizer V α} {pos : Position} {next : Ending V α → Script V α}
      {q : Recognizer V α} (h : Nests ρ st p pos q) : Script.Nests ρ st (.call p pos next) q
  | afterCall {st : Setting V} {p : Recognizer V α} {pos : Position}
      {next : Ending V α → Script V α} {q : Recognizer V α} {limit : Nat} {c : Course V α}
      (hc : course ρ limit st p pos = some c) (h : Script.Nests ρ st (next c.ending) q) :
      Script.Nests ρ st (.call p pos next) q
  | started {st : Setting V} {sub : Subparse V} {p : Recognizer V α}
      {next : Ending V α → Script V α} (hcache : sub.options.cache = true) :
      Script.Nests ρ st (.nest sub p next) p
  | inside {st : Setting V} {sub : Subparse V} {p : Recognizer V α}
      {next : Ending V α → Script V α} {q : Recognizer V α}
      (h : Nests ρ (st.nested sub) p .start q) : Script.Nests ρ st (.nest sub p next) q
  | afterNest {st : Setting V} {sub : Subparse V} {p : Recognizer V α}
      {next : Ending V α → Script V α} {q : Recognizer V α} {limit : Nat} {c : Course V α}
      (hc : course ρ limit (st.nested sub) p .start = some c)
      (h : Script.Nests ρ st (next c.ending) q) : Script.Nests ρ st (.nest sub p next) q
  | clear {st : Setting V} {t : Recognizer V α} {next : Script V α} {q : Recognizer V α}
      (h : Script.Nests ρ st next q) : Script.Nests ρ st (.clear t next) q
  | note {st : Setting V} {event : Event V α} {next : Script V α} {q : Recognizer V α}
      (h : Script.Nests ρ st next q) : Script.Nests ρ st (.note event next) q
  | probe {st : Setting V} {label : String} {p : Recognizer V α} {pos : Position}
      {q : Recognizer V α} (h : Nests ρ st p pos q) : Script.Nests ρ st (.probe label p pos) q

end

/-- Whether what a recognizer does itself comes to start a parse of a recognizer with
caching. -/
def Recognizer.WorkNests (ρ : Targets V α) (st : Setting V) :
    Recognizer V α → Position → Recognizer V α → Prop
  | .node _ shape, pos, q => ∃ limit, Script.Nests ρ st (shape.script limit st.toView pos) q
  | .link _ target, pos, q => ∃ r, ρ target = some r ∧ Nests ρ st r pos q

/-- What a recognizer starts in its own logic an attempt of it starts. -/
theorem Nests.of_work {ρ : Targets V α} {st : Setting V} {r q : Recognizer V α} {pos : Position}
    (h : r.WorkNests ρ (st.below r.handle.caching) pos q) : Nests ρ st r pos q := by
  cases r with
  | node handle shape =>
    obtain ⟨limit, h⟩ := h
    exact .node limit h
  | link handle l =>
    obtain ⟨r, hr, h⟩ := h
    exact .link hr h

/-! ## What a shape does with its parts -/

/-- Whether a shape does nothing but attempt its parts. -/
def Shape.Simple {ρ : Type} : Shape V α ρ → Prop
  | .required _ => False
  | .catching _ => False
  | .nested _ _ => False
  | .clearing _ _ => False
  | .counted _ _ => False
  | .probed _ _ => False
  | _ => True

namespace Script

/-- Whether a script attempts only parts of a shape, as the shape says, and passes
errors through unless the shape catches them. -/
inductive Within (shape : Shape V α (Recognizer V α)) : Script V α → Prop where
  | ended (ending : Ending V α) : Within shape (ended ending)
  | exhausted : Within shape exhausted
  | call {p : Recognizer V α} {pos : Position} {next : Ending V α → Script V α}
      (hp : p ∈ shape.parts)
      (hpass : (∀ e, next (.error e) = .ended (.error e)) ∨ shape = .catching p)
      (hnext : ∀ ending, Within shape (next ending)) : Within shape (call p pos next)
  | nest {sub : Subparse V} {p : Recognizer V α} {next : Ending V α → Script V α}
      (hshape : shape = .nested sub p) (hnext : ∀ ending, Within shape (next ending)) :
      Within shape (nest sub p next)
  | clear {t p : Recognizer V α} {next : Script V α} (hshape : shape = .clearing t p)
      (hnext : Within shape next) : Within shape (clear t next)
  | note {event : Event V α} {next : Script V α}
      (hevent : (∃ pos, event = .missed pos) ∨ ∃ label, event = .tallied label)
      (hnext : Within shape next) : Within shape (note event next)
  | probe {label : String} {p : Recognizer V α} {pos : Position}
    (hshape : shape = .probed label p) :
      Within shape (probe label p pos)

variable {shape : Shape V α (Recognizer V α)}

/-- A script that ends with an outcome attempts no part. -/
theorem within_done (outcome : Outcome V α) : Within shape (done outcome) := .ended _

/-- An attempt of a part is as the shape says when what follows is. -/
theorem within_onOutcome {p : Recognizer V α} {pos : Position} {next : Outcome V α → Script V α}
    (hp : p ∈ shape.parts) (hnext : ∀ outcome, Within shape (next outcome)) :
    Within shape (onOutcome p pos next) := by
  refine .call hp (.inl fun _ => rfl) ?_
  intro ending
  cases ending with
  | error e => exact .ended _
  | ok outcome => exact hnext outcome

/-- Whether a script only attempts some parts, passes their errors through and ends with an
outcome. -/
inductive Simple (parts : List (Recognizer V α)) : Script V α → Prop where
  | done (outcome : Outcome V α) : Simple parts (done outcome)
  | exhausted : Simple parts exhausted
  | onOutcome {p : Recognizer V α} {pos : Position} {next : Outcome V α → Script V α}
      (hp : p ∈ parts) (hnext : ∀ outcome, Simple parts (next outcome)) :
      Simple parts (onOutcome p pos next)

section Simplicity

variable {parts : List (Recognizer V α)}

/-- Parts in order are simple when what follows them is. -/
theorem simple_inOrder {ps : List (Recognizer V α)} (hps : ∀ p ∈ ps, p ∈ parts) {pos : Position}
    {next : Option (List (Tree V α) × Position) → Script V α}
    (hnext : ∀ rest, Simple parts (next rest)) : Simple parts (inOrder ps pos next) := by
  induction ps generalizing pos next with
  | nil => exact hnext _
  | cons p ps ih =>
    refine .onOutcome (hps p List.mem_cons_self) ?_
    intro outcome
    cases outcome with
    | none => exact hnext none
    | some first =>
      refine ih (fun q hq => hps q (List.mem_cons_of_mem _ hq)) ?_
      intro rest
      cases rest with
      | none => exact hnext none
      | some rest => exact hnext _

/-- The first of some parts that matches is simple. -/
theorem simple_firstOf {ps : List (Recognizer V α)} (hps : ∀ p ∈ ps, p ∈ parts)
    (pos : Position) : Simple parts (firstOf ps pos) := by
  induction ps with
  | nil => exact .done none
  | cons p ps ih =>
    refine .onOutcome (hps p List.mem_cons_self) ?_
    intro outcome
    cases outcome with
    | none => exact ih fun q hq => hps q (List.mem_cons_of_mem _ hq)
    | some found => exact .done (some found)

/-- Whether a step is simple when what comes after it is. -/
def Step.Simple (parts : List (Recognizer V α)) (step : Step V α) : Prop :=
  ∀ pos next, (∀ outcome, Script.Simple parts (next outcome)) → Script.Simple parts (step pos next)

/-- An attempt of a part is a simple step. -/
theorem simple_step {p : Recognizer V α} (hp : p ∈ parts) : Step.Simple parts (onOutcome p) :=
  fun _ _ hnext => .onOutcome hp hnext

/-- A part after a delimiter is a simple step. -/
theorem simple_after {d p : Recognizer V α} (hd : d ∈ parts) (hp : p ∈ parts) :
    (after d p).Simple parts := by
  intro pos next hnext
  refine .onOutcome hd ?_
  intro outcome
  cases outcome with
  | none => exact hnext none
  | some found => exact .onOutcome hp hnext

/-- A chain of simple steps is simple when what follows it is. -/
theorem simple_chain {step : Step V α} (hstep : step.Simple parts) (limit : Nat) {pos : Position}
    {next : List (Tree V α) → Position → Script V α}
    (hnext : ∀ trees stop, Simple parts (next trees stop)) :
    Simple parts (chain step limit pos next) := by
  induction limit generalizing pos next with
  | zero => exact .exhausted
  | succ limit ih =>
    refine hstep _ _ ?_
    intro outcome
    cases outcome with
    | none => exact hnext _ _
    | some found =>
      by_cases hlt : pos < found.stop
      · simp only [hlt, if_true]
        exact ih fun trees stop => hnext _ _
      · simp only [hlt, if_false]
        exact hnext _ _

/-- A repetition of simple steps is simple. -/
theorem simple_repetition {first step : Step V α} (hfirst : first.Simple parts)
    (hstep : step.Simple parts) (limit : Nat) (pos : Position) :
    Simple parts (repetition limit first step pos) := by
  refine hfirst _ _ ?_
  intro outcome
  cases outcome with
  | none => exact .done none
  | some found =>
    by_cases hlt : pos < found.stop
    · simp only [hlt, if_true]
      exact simple_chain hstep limit fun _ _ => .done _
    · simp only [hlt, if_false]
      exact .done none

end Simplicity

/-- A simple shape has a simple script. -/
theorem simple_script (limit : Nat) (view : View V) {shape : Shape V α (Recognizer V α)}
    (h : shape.Simple) (pos : Position) : Simple shape.parts (shape.script limit view pos) := by
  cases shape with
  | leaf l => exact .done _
  | mapped transform p => exact .onOutcome (by simp [Shape.parts]) fun _ => .done _
  | sequence ps =>
    refine simple_inOrder (fun p hp => hp) ?_
    intro rest
    cases rest with
    | none => exact .done none
    | some x => exact .done _
  | choice ps => exact simple_firstOf (fun p hp => hp) pos
  | optional p =>
    refine .onOutcome (by simp [Shape.parts]) ?_
    intro outcome
    cases outcome with
    | none => exact .done _
    | some found => exact .done _
  | conditional t p q =>
    refine .onOutcome (by simp [Shape.parts]) ?_
    intro outcome
    cases outcome with
    | none => exact .onOutcome (by simp [Shape.parts]) .done
    | some found => exact .onOutcome (by simp [Shape.parts]) .done
  | repeated p =>
    exact simple_repetition (simple_step (by simp [Shape.parts]))
      (simple_step (by simp [Shape.parts])) limit pos
  | separated p d =>
    exact simple_repetition (simple_step (by simp [Shape.parts]))
      (simple_after (by simp [Shape.parts]) (by simp [Shape.parts])) limit pos
  | butNot p q =>
    refine .onOutcome (by simp [Shape.parts]) ?_
    intro outcome
    cases outcome with
    | none => exact .onOutcome (by simp [Shape.parts]) .done
    | some found => exact .done none
  | _ => exact h.elim

/-- A simple script attempts parts as every shape says. -/
theorem Within.of_simple {script : Script V α} (h : Simple shape.parts script) :
    Within shape script := by
  induction h with
  | done outcome => exact within_done outcome
  | exhausted => exact .exhausted
  | onOutcome hp _ ih => exact within_onOutcome hp ih

/-- The script of a shape attempts the parts of the shape. -/
theorem within_script (limit : Nat) (view : View V) (shape : Shape V α (Recognizer V α))
    (pos : Position) : Within shape (shape.script limit view pos) := by
  cases shape with
  | required p =>
    refine within_onOutcome (by simp [Shape.parts]) ?_
    intro outcome
    cases outcome with
    | none => exact .note (.inl ⟨_, rfl⟩) (.ended _)
    | some found => exact within_done _
  | catching p =>
    refine .call (by simp [Shape.parts]) (.inr rfl) ?_
    intro ending
    cases ending with
    | error e => exact within_done _
    | ok outcome => exact within_done _
  | nested sub p =>
    refine .nest rfl ?_
    intro ending
    cases ending with
    | error e => exact .ended _
    | ok outcome => exact within_done _
  | clearing t p => exact .clear rfl (within_onOutcome (by simp [Shape.parts]) within_done)
  | counted label p =>
    exact .note (.inr ⟨label, rfl⟩) (within_onOutcome (by simp [Shape.parts]) within_done)
  | probed label p => exact .probe rfl
  | _ =>
    apply Within.of_simple
    apply simple_script
    trivial

/-- A script has the same course when more is known of the courses of its parts. -/
theorem Within.course_le {script : Script V α} (hscript : script.Within shape)
    {guide guide' : Guide V α}
    (h : ∀ p ∈ shape.parts, ∀ st pos c, guide st p pos = some c → guide' st p pos = some c)
    {st : Setting V} {c : Course V α} (hc : script.course guide st = some c) :
    script.course guide' st = some c := by
  induction hscript generalizing c with
  | ended ending => exact hc
  | exhausted => cases hc
  | @call p pos next hp _ _ ih =>
    obtain ⟨c₁, hc₁, hc⟩ := Option.bind_eq_some_iff.1 hc
    obtain ⟨c₂, hc₂, rfl⟩ := Option.map_eq_some_iff.1 hc
    refine Option.bind_eq_some_iff.2 ⟨c₁, h p hp st pos c₁ hc₁, ?_⟩
    exact Option.map_eq_some_iff.2 ⟨c₂, ih c₁.ending hc₂, rfl⟩
  | @nest sub p next hshape _ ih =>
    obtain ⟨c₁, hc₁, hc⟩ := Option.bind_eq_some_iff.1 hc
    have hp : p ∈ shape.parts := by simp [hshape, Shape.parts]
    exact Option.bind_eq_some_iff.2 ⟨c₁, h p hp _ _ c₁ hc₁, ih c₁.ending hc⟩
  | clear _ _ ih => exact ih hc
  | note _ _ ih => exact ih hc
  | @probe label p pos hshape => exact h p (by simp [hshape, Shape.parts]) st pos c hc

end Script

/-! ## Closed sets of recognizers -/

/-- Whether a set of recognizers contains the parts and the targets of its members. -/
structure Closed (ρ : Targets V α) (P : Recognizer V α → Prop) : Prop where
  part : ∀ {handle : Handle} {shape : Shape V α (Recognizer V α)} {p : Recognizer V α},
    P (.node handle shape) → p ∈ shape.parts → P p
  target : ∀ {handle : Handle} {l : Link} {r : Recognizer V α},
    P (.link handle l) → ρ l = some r → P r

mutual

/-- A recognizer that a parse inside starts from is the part of a recognizer that parses
another input with caching. -/
theorem Nests.reached {ρ : Targets V α} {P : Recognizer V α → Prop} (hP : Closed ρ P)
    {st : Setting V} {r q : Recognizer V α} {pos : Position} :
    Nests ρ st r pos q → P r →
      ∃ handle sub, P (.node handle (.nested sub q)) ∧ sub.options.cache = true
  | .node _ h, hr => Script.Nests.reached hP h hr (Script.within_script _ _ _ _)
  | .link hl h, hr => Nests.reached hP h (hP.target hr hl)

theorem Script.Nests.reached {ρ : Targets V α} {P : Recognizer V α → Prop} (hP : Closed ρ P)
    {st : Setting V} {script : Script V α} {q : Recognizer V α} {handle : Handle}
    {shape : Shape V α (Recognizer V α)} :
    Script.Nests ρ st script q → P (.node handle shape) → script.Within shape →
      ∃ handle sub, P (.node handle (.nested sub q)) ∧ sub.options.cache = true
  | .call h, hr, .call hp _ _ => Nests.reached hP h (hP.part hr hp)
  | .afterCall _ h, hr, .call _ _ hnext => Script.Nests.reached hP h hr (hnext _)
  | .started hcache, hr, .nest hshape _ => ⟨handle, _, hshape ▸ hr, hcache⟩
  | .inside h, hr, .nest hshape _ =>
    Nests.reached hP h (hP.part hr (by simp [hshape, Shape.parts]))
  | .afterNest _ h, hr, .nest _ hnext => Script.Nests.reached hP h hr (hnext _)
  | .clear h, hr, .clear _ hnext => Script.Nests.reached hP h hr hnext
  | .note h, hr, .note _ hnext => Script.Nests.reached hP h hr hnext
  | .probe h, hr, .probe hshape =>
    Nests.reached hP h (hP.part hr (by simp [hshape, Shape.parts]))

end

/-- Whether an ordinal has an outcome. -/
def Slot.IsSettled : Slot V α → Prop
  | settled _ _ => True
  | _ => False

/-- Where nothing catches errors, the parts of a script that ends without an error end so
themselves, so that their ordinals have outcomes. -/
theorem Script.settled_of_tape {shape : Shape V α (Recognizer V α)}
    (hcatch : ∀ p, shape ≠ .catching p) {guide : Guide V α} {st : Setting V}
    (hparts : ∀ p ∈ shape.parts, ∀ pos c outcome, guide st p pos = some c →
      c.ending = .ok outcome → ∀ slot ∈ c.tape, slot.IsSettled)
    {script : Script V α} (hscript : script.Within shape) {w : Course V α}
    (hw : script.course guide st = some w) {outcome : Outcome V α}
    (hok : w.ending = .ok outcome) : ∀ slot ∈ w.tape, slot.IsSettled := by
  induction hscript generalizing w with
  | ended ending =>
    cases hw
    simp [Course.tape]
  | exhausted => cases hw
  | @call p pos next hp hpass _ ih =>
    obtain ⟨c₁, hc₁, hw⟩ := Option.bind_eq_some_iff.1 hw
    obtain ⟨c₂, hc₂, rfl⟩ := Option.map_eq_some_iff.1 hw
    have hpass : ∀ e, next (.error e) = .ended (.error e) := hpass.resolve_right (hcatch p)
    rw [Course.tape_andThen]
    intro slot hslot
    rcases List.mem_append.1 hslot with hfirst | hlater
    · cases hend : c₁.ending with
      | error e =>
        rw [hend, hpass] at hc₂
        cases hc₂
        cases hok
      | ok outcome => exact hparts p hp pos c₁ outcome hc₁ hend slot hfirst
    · exact ih c₁.ending hc₂ hok slot hlater
  | nest _ _ ih =>
    obtain ⟨c₁, -, hw⟩ := Option.bind_eq_some_iff.1 hw
    exact ih c₁.ending hw hok
  | clear _ _ ih => exact ih hw hok
  | note _ _ ih => exact ih hw hok
  | @probe label p pos hshape => exact hparts p (by simp [hshape, Shape.parts]) pos w _ hw hok

/-- Without a recognizer that catches errors, the ordinals of an attempt that does
not raise all have an outcome. -/
theorem settled_of_tape {ρ : Targets V α} {P : Recognizer V α → Prop} (hP : Closed ρ P)
    (hcatch : ∀ handle p, ¬ P (.node handle (.catching p))) {limit : Nat} {st : Setting V}
    {r : Recognizer V α} (hr : P r) {pos : Position} {c : Course V α}
    (hc : course ρ limit st r pos = some c) {outcome : Outcome V α} (hok : c.ending = .ok outcome) :
    ∀ slot ∈ c.tape, slot.IsSettled := by
  induction limit generalizing st r pos c outcome with
  | zero => cases hc
  | succ limit ih =>
    obtain ⟨w, hw, rfl⟩ := course_succ_eq_some.1 hc
    rw [Course.around_ending] at hok
    have hwork : ∀ slot ∈ w.tape, slot.IsSettled := by
      cases r with
      | link handle l =>
        rw [Recognizer.workCourse] at hw
        cases hl : ρ l with
        | none =>
          rw [hl] at hw
          cases hw
          cases hok
        | some r =>
          rw [hl] at hw
          exact ih (hP.target hr hl) hw hok
      | node handle shape =>
        rw [Recognizer.workCourse] at hw
        refine Script.settled_of_tape ?_ ?_ (Script.within_script _ _ _ _) hw hok
        · rintro p rfl
          exact hcatch handle p hr
        · exact fun p hp pos c outcome hc hok => ih (hP.part hr hp) hc hok
    rw [Course.tape_around]
    cases hcaching : r.handle.caching with
    | never => exact hwork
    | paused s => exact hwork
    | active s =>
      show ∀ slot ∈ Course.slotsThrough s w, slot.IsSettled
      rw [Course.slotsThrough, hok]
      intro slot hslot
      rw [List.mem_singleton.1 hslot]
      trivial

end SlotGrammar
