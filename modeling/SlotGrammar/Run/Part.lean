import SlotGrammar.Run.Basic

/-!
# Combining parts

A part is a recognizer with its way to be attempted at a position.  This file
says how combinations of parts turn out.  A fatal error of a part passes through
every combination but the one that catches it.

Main results:

- Theorem `sequence_nil`: an empty sequence matches without moving.
- Theorem `choice_nil`: an empty choice never matches.
-/

namespace SlotGrammar

/-- A way to attempt one fixed recognizer at a position. -/
abbrev Part (V α : Type) := Position → Act V α (Outcome V α)

namespace Part

variable {V α : Type}

/-- The trees of every part in order, and where the last one stopped. -/
def sequenceFrom (attempt : Recognizer V α → Part V α) :
    List (Recognizer V α) → Position → Act V α (Option (List (Tree V α) × Position))
  | [], pos => pure (some ([], pos))
  | p :: ps, pos => do
    match ← attempt p pos with
    | none => pure none
    | some first =>
      match ← sequenceFrom attempt ps first.stop with
      | none => pure none
      | some (trees, stop) => pure (some (first.tree :: trees, stop))

/-- Every part in order, each from where the one before it stopped. -/
def sequence (attempt : Recognizer V α → Part V α) (parts : List (Recognizer V α)) : Part V α :=
  fun pos => do
    match ← sequenceFrom attempt parts pos with
    | none => pure none
    | some (trees, stop) => pure (some ⟨.list trees, stop⟩)

/-- The first part that matches. -/
def choice (attempt : Recognizer V α → Part V α) : List (Recognizer V α) → Part V α
  | [], _ => pure none
  | p :: ps, pos => do
    match ← attempt p pos with
    | some found => pure (some found)
    | none => choice attempt ps pos

/-- The part, or nothing. -/
def optional (part : Part V α) : Part V α := fun pos => do
  match ← part pos with
  | some found => pure (some (found.map .present))
  | none => pure (some ⟨.absent, pos⟩)

/-- The part, or a fatal error that points at where it was attempted. -/
def required (ctx : Context V α) (part : Part V α) : Part V α := fun pos => do
  match ← part pos with
  | some found => pure (some found)
  | none => do
    Act.note (.missed pos)
    Act.raise (.unexpectedAt ctx.input pos ctx.options.errorWindow)

/-- One of two parts from the same position, as the verdict of a test says. -/
def conditional (test onMatch onFail : Part V α) : Part V α := fun pos => do
  match ← test pos with
  | some _ => onMatch pos
  | none => onFail pos

/-- The part where another one does not match. -/
def butNot (part forbidden : Part V α) : Part V α := fun pos => do
  match ← forbidden pos with
  | some _ => pure none
  | none => part pos

/-- A part after a delimiter, with the tree of the part. -/
def after (delimiter part : Part V α) : Part V α := fun pos => do
  match ← delimiter pos with
  | none => pure none
  | some found => part found.stop

/-- The trees of the steps from a position on, as long as each one moves the
cursor forward, and where the last of them stopped.  The limit bounds their
number. -/
def chain (step : Part V α) : Nat → Position → Act V α (List (Tree V α) × Position)
  | 0, _ => Act.exhausted
  | limit + 1, pos => do
    match ← step pos with
    | none => pure ([], pos)
    | some found =>
      if pos < found.stop then do
        let (trees, stop) ← chain step limit found.stop
        pure (found.tree :: trees, stop)
      else pure ([], pos)

/-- A first step and then further ones, as long as each moves the cursor forward.
There is no match when the first one does not. -/
def repetition (limit : Nat) (first step : Part V α) : Part V α := fun pos => do
  match ← first pos with
  | none => pure none
  | some found =>
    if pos < found.stop then do
      let (trees, stop) ← chain step limit found.stop
      pure (some ⟨.list (found.tree :: trees), stop⟩)
    else pure none

/-- The part, with a fatal error taken for no match. -/
def catching (part : Part V α) : Part V α := fun pos => do
  match ← (part pos).attempt with
  | .ok outcome => pure outcome
  | .error _ => pure none

/-- The part, with a note on the attempt in the log. -/
def probed (label : String) (part : Part V α) : Part V α := fun pos => do
  let before ← Act.ordinal?
  let ending ← (part pos).attempt
  let after ← Act.ordinal?
  Act.note (.probed label pos before after ending)
  Act.endAs ending

@[simp]
theorem sequence_nil (attempt : Recognizer V α → Part V α) (pos : Position) :
    sequence attempt [] pos = pure (some ⟨.list [], pos⟩) := rfl

@[simp]
theorem choice_nil (attempt : Recognizer V α → Part V α) (pos : Position) :
    choice attempt [] pos = pure none := rfl

end Part

end SlotGrammar
