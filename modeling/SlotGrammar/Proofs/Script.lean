import SlotGrammar.Run.Parse

/-!
# Scripts

The logic of a shape is a dialogue with its parts: it attempts a part, looks at how
that ended, and goes on.  A script writes the dialogue down as data, so that what
holds of every step of a run is proved by induction on the script, once for all
shapes.

Main results:

- Theorem `play_script`: playing the script of a shape is attempting the shape.
-/

namespace SlotGrammar

variable {V α : Type}

/-! ## Laws of actions -/

namespace Act

variable {β γ : Type}

/-- What an action in two parts does from a state. -/
theorem bind_apply (act : Act V α β) (next : β → Act V α γ) (run : Run V α) :
    (act >>= next) run =
      (act run).bind fun r =>
        match r.1 with
        | .error e => some (.error e, r.2)
        | .ok b => next b r.2 := by
  dsimp only [bind]
  rcases act run with _ | ⟨_ | _, _⟩ <;> rfl

instance : LawfulMonad (Act V α) := LawfulMonad.mk' _
  (by
    intro β act
    funext run
    show (act >>= fun b => pure b) run = act run
    rw [bind_apply]
    rcases act run with _ | ⟨_ | _, _⟩ <;> rfl)
  (fun _ _ => rfl)
  (by
    intro β γ δ act next last
    funext run
    rw [bind_apply, bind_apply, bind_apply]
    rcases act run with _ | ⟨_ | b, mid⟩
    · rfl
    · rfl
    · exact (bind_apply (next b) last mid).symm)

/-- Going on with the result of an action is looking at how it ended and raising its
error again. -/
theorem bind_eq_attempt_bind (act : Act V α β) (next : β → Act V α γ) :
    act >>= next = act.attempt >>= fun ending =>
      match ending with
      | .ok b => next b
      | .error e => raise e := by
  funext run
  rw [bind_apply, bind_apply, attempt_apply]
  rcases act run with _ | ⟨_ | _, _⟩ <;> rfl

end Act

/-! ## Scripts -/

/-- What a recognizer can see of the parse that it runs in. -/
structure View (V : Type) where
  input : Fragments
  values : List V
  window : ErrorWindow

/-- What recognizers can see in a context. -/
def Context.view (ctx : Context V α) : View V := ⟨ctx.input, ctx.values, ctx.options.errorWindow⟩

/-- The rest of an attempt: what it does next, and how it goes on after each way in
which that may end. -/
inductive Script (V α : Type) where
  /-- The attempt has ended. -/
  | ended (ending : Ending V α)
  /-- The attempt goes deeper than its limit. -/
  | exhausted
  /-- Attempts a part. -/
  | call (part : Recognizer V α) (pos : Position) (next : Ending V α → Script V α)
  /-- Parses another input. -/
  | nest (sub : Subparse V) (part : Recognizer V α) (next : Ending V α → Script V α)
  /-- Drops the outcomes of a recognizer. -/
  | clear (target : Recognizer V α) (next : Script V α)
  /-- Notes an event. -/
  | note (event : Event V α) (next : Script V α)
  /-- Attempts a part as its last step, and notes the ordinals around that. -/
  | probe (label : String) (part : Recognizer V α) (pos : Position)

namespace Script

/-- Plays a script, given a way to attempt recognizers. -/
def play (attempt : Attempt V α) (ctx : Context V α) : Script V α → Act V α (Outcome V α)
  | ended ending => Act.endAs ending
  | exhausted => Act.exhausted
  | call p pos next => do
    let ending ← (attempt ctx p pos).attempt
    (next ending).play attempt ctx
  | nest sub p next => do
    let inner := ctx.inside sub p
    let ending ← (Act.inSession inner p (attempt inner p .start)).attempt
    (next ending).play attempt ctx
  | clear t next => do
    Act.onGrammar fun g => ((), g.dropTraces t)
    next.play attempt ctx
  | note event next => do
    Act.note event
    next.play attempt ctx
  | probe label p pos => Part.probed label (attempt ctx p) pos

/-- Ends with an outcome. -/
def done (outcome : Outcome V α) : Script V α := ended (.ok outcome)

/-- Goes on with an outcome and passes an error through. -/
def pass (next : Outcome V α → Script V α) : Ending V α → Script V α
  | .ok outcome => next outcome
  | .error e => ended (.error e)

/-- Attempts a part and goes on with its outcome. -/
def onOutcome (part : Recognizer V α) (pos : Position) (next : Outcome V α → Script V α) :
    Script V α :=
  call part pos (pass next)

/-- Every part in order, each from where the one before it stopped. -/
def inOrder : List (Recognizer V α) → Position →
    (Option (List (Tree V α) × Position) → Script V α) → Script V α
  | [], pos, next => next (some ([], pos))
  | p :: ps, pos, next => onOutcome p pos fun outcome =>
    match outcome with
    | none => next none
    | some first => inOrder ps first.stop fun rest =>
      match rest with
      | none => next none
      | some (trees, stop) => next (some (first.tree :: trees, stop))

/-- The first part that matches. -/
def firstOf : List (Recognizer V α) → Position → Script V α
  | [], _ => done none
  | p :: ps, pos => onOutcome p pos fun outcome =>
    match outcome with
    | some found => done (some found)
    | none => firstOf ps pos

/-- A step of a repetition, with how it goes on after it. -/
abbrev Step (V α : Type) := Position → (Outcome V α → Script V α) → Script V α

/-- The steps from a position on, as long as each one moves the cursor forward. -/
def chain (step : Step V α) : Nat → Position → (List (Tree V α) → Position → Script V α) →
    Script V α
  | 0, _, _ => exhausted
  | limit + 1, pos, next => step pos fun outcome =>
    match outcome with
    | none => next [] pos
    | some found =>
      if pos < found.stop then
        chain step limit found.stop fun trees stop => next (found.tree :: trees) stop
      else next [] pos

/-- A first step and then further ones, as long as each moves the cursor forward. -/
def repetition (limit : Nat) (first step : Step V α) (pos : Position) : Script V α :=
  first pos fun outcome =>
    match outcome with
    | none => done none
    | some found =>
      if pos < found.stop then
        chain step limit found.stop fun trees stop =>
          done (some ⟨.list (found.tree :: trees), stop⟩)
      else done none

/-- A part after a delimiter. -/
def after (delimiter part : Recognizer V α) : Step V α := fun pos next =>
  onOutcome delimiter pos fun outcome =>
    match outcome with
    | none => next none
    | some found => onOutcome part found.stop next

end Script

/-- The script of a shape. -/
def Shape.script (limit : Nat) (view : View V) :
    Shape V α (Recognizer V α) → Position → Script V α
  | .leaf l, pos => .done (l.outcome view.input view.values pos)
  | .mapped transform p, pos => .onOutcome p pos fun outcome =>
    .done (outcome.map fun found => found.map fun tree => transform tree view.values)
  | .sequence ps, pos => .inOrder ps pos fun rest =>
    match rest with
    | none => .done none
    | some (trees, stop) => .done (some ⟨.list trees, stop⟩)
  | .choice ps, pos => .firstOf ps pos
  | .optional p, pos => .onOutcome p pos fun outcome =>
    match outcome with
    | some found => .done (some (found.map .present))
    | none => .done (some ⟨.absent, pos⟩)
  | .required p, pos => .onOutcome p pos fun outcome =>
    match outcome with
    | some found => .done (some found)
    | none => .note (.missed pos) (.ended (.error (.unexpectedAt view.input pos view.window)))
  | .conditional t p q, pos => .onOutcome t pos fun outcome =>
    match outcome with
    | some _ => .onOutcome p pos .done
    | none => .onOutcome q pos .done
  | .repeated p, pos => Script.repetition limit (.onOutcome p) (.onOutcome p) pos
  | .separated p d, pos => Script.repetition limit (.onOutcome p) (.after d p) pos
  | .butNot p q, pos => .onOutcome q pos fun outcome =>
    match outcome with
    | some _ => .done none
    | none => .onOutcome p pos .done
  | .catching p, pos => .call p pos fun ending =>
    match ending with
    | .ok outcome => .done outcome
    | .error _ => .done none
  | .nested sub p, pos => .nest sub p (.pass fun outcome =>
    .done (outcome.map fun found => ⟨found.tree, pos⟩))
  | .clearing t p, pos => .clear t (.onOutcome p pos .done)
  | .counted label p, pos => .note (.tallied label) (.onOutcome p pos .done)
  | .probed label p, pos => .probe label p pos

/-! ## Playing the script of a shape -/

namespace Script

variable {attempt : Attempt V α} {ctx : Context V α}

@[simp]
theorem play_done (outcome : Outcome V α) :
    (done outcome).play attempt ctx = pure outcome := rfl

/-- A script goes on after a call as that has ended. -/
theorem play_call_apply (p : Recognizer V α) (pos : Position) (next : Ending V α → Script V α)
    (run : Run V α) :
    (call p pos next).play attempt ctx run =
      (attempt ctx p pos run).bind fun x => (next x.1).play attempt ctx x.2 := by
  change ((attempt ctx p pos).attempt >>= fun ending => (next ending).play attempt ctx) run = _
  rw [Act.bind_apply, Act.attempt_apply]
  cases attempt ctx p pos run <;> rfl

/-- Playing the outcome of one part is asking for it, then playing what follows. -/
@[simp]
theorem play_onOutcome (p : Recognizer V α) (pos : Position) (next : Outcome V α → Script V α) :
    (onOutcome p pos next).play attempt ctx =
      attempt ctx p pos >>= fun outcome => (next outcome).play attempt ctx := by
  rw [Act.bind_eq_attempt_bind]
  show ((attempt ctx p pos).attempt >>= fun ending => (pass next ending).play attempt ctx) = _
  congr 1
  funext ending
  cases ending <;> rfl

/-- Playing parts in order is asking for them in sequence, then playing what follows. -/
theorem play_inOrder (ps : List (Recognizer V α)) (pos : Position)
    (next : Option (List (Tree V α) × Position) → Script V α) :
    (inOrder ps pos next).play attempt ctx =
      Part.sequenceFrom (attempt ctx) ps pos >>= fun rest => (next rest).play attempt ctx := by
  induction ps generalizing pos next with
  | nil => rfl
  | cons p ps ih =>
    rw [inOrder, play_onOutcome, Part.sequenceFrom, bind_assoc]
    congr 1
    funext outcome
    cases outcome with
    | none => rfl
    | some first =>
      show (inOrder ps first.stop _).play attempt ctx = _
      rw [ih, bind_assoc]
      congr 1
      funext rest
      rcases rest with _ | ⟨trees, stop⟩ <;> rfl

/-- Playing the first of some parts is the choice of them. -/
theorem play_firstOf (ps : List (Recognizer V α)) (pos : Position) :
    (firstOf ps pos).play attempt ctx = Part.choice (attempt ctx) ps pos := by
  induction ps with
  | nil => rfl
  | cons p ps ih =>
    rw [firstOf, play_onOutcome, Part.choice]
    congr 1
    funext outcome
    cases outcome with
    | none => exact ih
    | some found => rfl

/-- A step plays a part when it goes on with the part's outcome. -/
def Step.Plays (attempt : Attempt V α) (ctx : Context V α) (step : Step V α) (part : Part V α) :
    Prop :=
  ∀ pos next, (step pos next).play attempt ctx =
    part pos >>= fun outcome => (next outcome).play attempt ctx

/-- Playing a chain of steps is the chain of the parts which they play. -/
theorem play_chain {step : Step V α} {part : Part V α} (h : step.Plays attempt ctx part)
    (limit : Nat) (pos : Position) (next : List (Tree V α) → Position → Script V α) :
    (chain step limit pos next).play attempt ctx =
      Part.chain part limit pos >>= fun rest => (next rest.1 rest.2).play attempt ctx := by
  induction limit generalizing pos next with
  | zero => rfl
  | succ limit ih =>
    rw [chain, h, Part.chain, bind_assoc]
    congr 1
    funext outcome
    cases outcome with
    | none => rfl
    | some found =>
      by_cases hlt : pos < found.stop
      · simp only [hlt, if_true]
        rw [ih, bind_assoc]
        rfl
      · simp only [hlt, if_false]
        rfl

/-- Playing a repetition is the repetition of the parts which its steps play. -/
theorem play_repetition {first step : Step V α} {part part' : Part V α}
    (hfirst : first.Plays attempt ctx part) (hstep : step.Plays attempt ctx part') (limit : Nat)
    (pos : Position) :
    (repetition limit first step pos).play attempt ctx =
      Part.repetition limit part part' pos := by
  rw [repetition, hfirst, Part.repetition]
  congr 1
  funext outcome
  cases outcome with
  | none => rfl
  | some found =>
    by_cases hlt : pos < found.stop
    · simp only [hlt, if_true]
      exact play_chain hstep limit found.stop _
    · simp only [hlt, if_false]
      rfl

/-- The step of one part plays the attempt at it. -/
theorem onOutcome_plays (p : Recognizer V α) :
    Step.Plays attempt ctx (onOutcome p) (attempt ctx p) :=
  play_onOutcome p

/-- The step of a delimiter and a main part plays the one attempt after the other. -/
theorem after_plays (d p : Recognizer V α) :
    (after d p).Plays attempt ctx (Part.after (attempt ctx d) (attempt ctx p)) := by
  intro pos next
  rw [after, play_onOutcome, Part.after, bind_assoc]
  congr 1
  funext outcome
  cases outcome with
  | none => rfl
  | some found => exact play_onOutcome p found.stop next

/-- Playing the script of a shape is attempting the shape. -/
theorem play_script (limit : Nat) (shape : Shape V α (Recognizer V α)) (pos : Position) :
    (shape.script limit ctx.view pos).play attempt ctx = shape.attempt attempt limit ctx pos := by
  cases shape with
  | leaf l => rfl
  | mapped transform p =>
    rw [Shape.script, play_onOutcome]
    rfl
  | sequence ps =>
    rw [Shape.script, play_inOrder]
    show _ = Part.sequence (attempt ctx) ps pos
    rw [Part.sequence]
    congr 1
    funext rest
    rcases rest with _ | ⟨trees, stop⟩ <;> rfl
  | choice ps => exact play_firstOf ps pos
  | optional p =>
    rw [Shape.script, play_onOutcome]
    show _ = Part.optional (attempt ctx p) pos
    rw [Part.optional]
    congr 1
    funext outcome
    cases outcome <;> rfl
  | required p =>
    rw [Shape.script, play_onOutcome]
    show _ = Part.required ctx (attempt ctx p) pos
    rw [Part.required]
    congr 1
    funext outcome
    cases outcome <;> rfl
  | conditional t p q =>
    rw [Shape.script, play_onOutcome]
    show _ = Part.conditional (attempt ctx t) (attempt ctx p) (attempt ctx q) pos
    rw [Part.conditional]
    congr 1
    funext outcome
    cases outcome <;> simp
  | repeated p =>
    exact play_repetition (onOutcome_plays p) (onOutcome_plays p) limit pos
  | separated p d =>
    exact play_repetition (onOutcome_plays p) (after_plays d p) limit pos
  | butNot p q =>
    rw [Shape.script, play_onOutcome]
    show _ = Part.butNot (attempt ctx p) (attempt ctx q) pos
    rw [Part.butNot]
    congr 1
    funext outcome
    cases outcome <;> simp
  | catching p =>
    show ((attempt ctx p pos).attempt >>= _) = Part.catching (attempt ctx p) pos
    rw [Part.catching]
    congr 1
    funext ending
    cases ending <;> rfl
  | nested sub p =>
    refine Eq.trans ?_ (Act.bind_eq_attempt_bind _ _).symm
    refine congrArg (Act.attempt _ >>= ·) (funext fun ending => ?_)
    cases ending <;> rfl
  | clearing t p =>
    show (_ >>= fun _ => (onOutcome p pos done).play attempt ctx) = (_ >>= _)
    rw [play_onOutcome]
    simp
  | counted label p =>
    show (_ >>= fun _ => (onOutcome p pos done).play attempt ctx) = (_ >>= _)
    rw [play_onOutcome]
    simp
  | probed label p => rfl

end Script

end SlotGrammar
