import SlotGrammar.Run.Part
import SlotGrammar.Run.Replay

/-!
# Attempting recognizers

The attempt of a recognizer follows its shape or its link.  Recursive definitions
make attempts nest; `exec` attempts a recognizer with a limit on that nesting,
which also bounds the rounds of a repetition.

Main results:

- Theorem `exec_succ`: one level of an attempt, with the level below for its parts.
-/

namespace SlotGrammar

variable {V α : Type}

/-! ## Sessions -/

/-- Runs an action in a session of its own, or without one, and settles that
session at the end.  The session around it is as before. -/
def Act.inSession (ctx : Context V α) (root : Recognizer V α) (act : Act V α (Outcome V α)) :
    Act V α (Outcome V α) := do
  let outer := (← Act.get).session
  Act.modify fun run =>
    if ctx.options.cache then
      { run with
        grammar := { run.grammar with nextSession := run.grammar.nextSession + 1 }
        session := some
          { id := run.grammar.nextSession
            key := ⟨root.handle.id, ctx.input.fingerprint⟩ } }
    else { run with session := none }
  let ending ← act.attempt
  let matched := match ending with
    | .ok (some _) => true
    | _ => false
  match (← Act.get).session with
  | some session => Act.onStores (session.finish matched)
  | none => pure ()
  Act.setSession outer
  Act.endAs ending

/-! ## Links -/

/-- Adds a recognizer to those that a run holds. -/
def Context.hold (ctx : Context V α) (r : Recognizer V α) : Context V α :=
  if ctx.held.any fun h => h.sameNode r then ctx else { ctx with held := r :: ctx.held }

/-- The recognizer in a deferral.  It is built when it is first asked for, in the
scope of its expression and with the names bound then, and this is counted. -/
def Act.settled (cell : Nat) : Act V α (Option (Recognizer V α)) := do
  match (← Act.get).grammar.deferrals[cell]? with
  | none => pure none
  | some (.settled r) => pure (some r)
  | some (.awaiting label expr scope) =>
    Act.note (.tallied label)
    let r ← Act.onGrammar (Grammar.build scope expr)
    Act.onGrammar (Grammar.settle cell r)
    pure (some r)

/-- Follows a link to a recognizer and the context in which it is attempted. -/
def Act.follow (ctx : Context V α) : Link → Act V α (Option (Context V α × Recognizer V α))
  | .definition cell => do
    pure ((((← Act.get).grammar.definitions[cell]?).join).map fun r => (ctx, r))
  | .self cell => do
    pure (((← Act.get).grammar.definition? ctx.held cell).map fun r => (ctx.hold r, r))
  | .deferred cell => do
    pure ((← Act.settled cell).map fun r => (ctx, r))
  | .unbound => pure none

/-! ## Shapes -/

/-- How a shape turns out, given a way to attempt its parts. -/
def Shape.attempt (attempt : Attempt V α) (limit : Nat) (ctx : Context V α) :
    Shape V α (Recognizer V α) → Part V α
  | .leaf l => fun pos => pure (l.outcome ctx.input ctx.values pos)
  | .mapped transform p => fun pos => do
    return (← attempt ctx p pos).map fun found => found.map fun tree => transform tree ctx.values
  | .sequence ps => Part.sequence (attempt ctx) ps
  | .choice ps => Part.choice (attempt ctx) ps
  | .optional p => Part.optional (attempt ctx p)
  | .required p => Part.required ctx (attempt ctx p)
  | .conditional t p q => Part.conditional (attempt ctx t) (attempt ctx p) (attempt ctx q)
  | .repeated p => Part.repetition limit (attempt ctx p) (attempt ctx p)
  | .separated p d =>
    Part.repetition limit (attempt ctx p) (Part.after (attempt ctx d) (attempt ctx p))
  | .butNot p q => Part.butNot (attempt ctx p) (attempt ctx q)
  | .catching p => Part.catching (attempt ctx p)
  | .nested sub p => fun pos => do
    let inner := ctx.inside sub p
    return (← Act.inSession inner p (attempt inner p .start)).map fun found => ⟨found.tree, pos⟩
  | .clearing t p => fun pos => do
    Act.onGrammar fun g => ((), g.dropTraces t)
    attempt ctx p pos
  | .counted label p => fun pos => do
    Act.note (.tallied label)
    attempt ctx p pos
  | .probed label p => Part.probed label (attempt ctx p)

/-- A recognizer's own logic, given a way to attempt others. -/
def Recognizer.work (attempt : Attempt V α) (limit : Nat) (ctx : Context V α) :
    Recognizer V α → Position → Act V α (Outcome V α)
  | .node _ shape, pos => shape.attempt attempt limit ctx pos
  | .link _ target, pos => do
    match ← Act.follow ctx target with
    | some (ctx, r) => attempt ctx r pos
    | none => Act.raise .unresolved

/-- One attempt of a recognizer: through its cache, and with notes in the log. -/
def Recognizer.attempt (attempt : Attempt V α) (limit : Nat) (ctx : Context V α)
    (r : Recognizer V α) (pos : Position) : Act V α (Outcome V α) := do
  Act.note (.called r.handle pos (← Act.ordinal?))
  let ending ← (Act.through r.handle.caching do
    Act.note (.worked r.handle pos)
    r.work attempt limit ctx pos).attempt
  Act.note (.replied r.handle pos (← Act.ordinal?) ending)
  Act.endAs ending

/-- Attempts a recognizer with a limit on the nesting of attempts. -/
def exec : Nat → Attempt V α
  | 0, _, _, _ => Act.exhausted
  | limit + 1, ctx, r, pos => r.attempt (exec limit) limit ctx pos

/-- One level of an attempt, with the level below for its parts. -/
@[simp]
theorem exec_succ (limit : Nat) (ctx : Context V α) (r : Recognizer V α) (pos : Position) :
    exec (limit + 1) ctx r pos = r.attempt (exec limit) limit ctx pos := rfl

end SlotGrammar
