import SlotGrammar.Grammar.Liveness

/-!
# Runs

Recognizers act on the state of a run: the grammar, the session if the parse
runs with caching, and a log of what happened.  An action ends with a result or
with a fatal error, and keeps the state either way.  Actions nest only so deep;
one that would go deeper than its limit has no result at all.

Main results:

- Theorem `bind_eq_some_iff`: an action in two parts ends as its first part when
  that raises, and otherwise as its second part from where the first one ended.
- Theorem `attempt_apply`: a raised error can be looked at without being raised.
-/

namespace SlotGrammar

/-! ## Context, log and state -/

/-- What one parse is run with, the same for every recognizer in it. -/
structure Context (V α : Type) where
  input : Fragments
  values : List V
  options : ParseOptions
  /-- The recognizers that the run itself holds. -/
  held : List (Recognizer V α)

/-- The context of a parse inside a run.  What the run holds is held on. -/
def Context.inside {V α : Type} (ctx : Context V α) (sub : Subparse V) (root : Recognizer V α) :
    Context V α :=
  ⟨sub.input, sub.values ctx.values, sub.options, root :: ctx.held⟩

/-- What happens in a run.  Ordinals are there only in a session. -/
inductive Event (V α : Type) where
  /-- A recognizer is attempted at a position. -/
  | called (handle : Handle) (pos : Position) (ordinal : Option Nat)
  /-- The recognizer's own logic starts, so its outcome is not replayed. -/
  | worked (handle : Handle) (pos : Position)
  /-- The attempt has ended. -/
  | replied (handle : Handle) (pos : Position) (ordinal : Option Nat) (ending : Ending V α)
  /-- A required part did not match at a position. -/
  | missed (pos : Position)
  /-- Something was counted under a label. -/
  | tallied (label : String)
  /-- A probed attempt has ended. -/
  | probed (label : String) (pos : Position) (before after : Option Nat) (ending : Ending V α)

/-- The state of a run. -/
structure Run (V α : Type) where
  grammar : Grammar V α
  session : Option Session := none
  /-- What happened so far, the latest event first. -/
  log : List (Event V α) := []

/-- An action in a run: it ends with a result or a fatal error in a new state, or
it goes deeper than its limit. -/
def Act (V α β : Type) := Run V α → Option (Except ParseError β × Run V α)

namespace Act

variable {V α β γ : Type}

/-! ## Sequencing -/

instance : Monad (Act V α) where
  pure b := fun run => some (.ok b, run)
  bind act next := fun run =>
    match act run with
    | none => none
    | some (.error e, run) => some (.error e, run)
    | some (.ok b, run) => next b run

/-- Ends the action with a fatal error. -/
def raise (e : ParseError) : Act V α β := fun run => some (.error e, run)

/-- Goes deeper than the limit. -/
def exhausted : Act V α β := fun _ => none

/-- Runs an action and gives its result or its error, raising nothing. -/
def attempt (act : Act V α β) : Act V α (Except ParseError β) := fun run =>
  (act run).map fun (ending, run) => (.ok ending, run)

/-- Ends as an earlier attempt ended. -/
def endAs : Except ParseError β → Act V α β
  | .ok b => pure b
  | .error e => raise e

@[simp]
theorem pure_apply (b : β) (run : Run V α) : (pure b : Act V α β) run = some (.ok b, run) := rfl

@[simp]
theorem raise_apply (e : ParseError) (run : Run V α) :
    (raise e : Act V α β) run = some (.error e, run) := rfl

@[simp]
theorem exhausted_apply (run : Run V α) : (exhausted : Act V α β) run = none := rfl

/-- A raised error can be looked at without being raised. -/
@[simp]
theorem attempt_apply (act : Act V α β) (run : Run V α) :
    act.attempt run = (act run).map fun r => (.ok r.1, r.2) := rfl

@[simp]
theorem endAs_apply (ending : Except ParseError β) (run : Run V α) :
    endAs ending run = some (ending, run) := by
  cases ending <;> rfl

/-- An action in two parts ends as its first part when that raises, and otherwise
as its second part from where the first one ended. -/
theorem bind_eq_some_iff {act : Act V α β} {next : β → Act V α γ} {run run' : Run V α}
    {ending : Except ParseError γ} :
    (act >>= next) run = some (ending, run') ↔
      (∃ e, act run = some (.error e, run') ∧ ending = .error e) ∨
        ∃ b mid, act run = some (.ok b, mid) ∧ next b mid = some (ending, run') := by
  show (match act run with
    | none => none
    | some (.error e, run) => some (.error e, run)
    | some (.ok b, run) => next b run) = some (ending, run') ↔ _
  cases h : act run with
  | none => simp
  | some r =>
    obtain ⟨end₁, mid⟩ := r
    cases end₁ with
    | error e =>
      simp only [Option.some.injEq, Prod.mk.injEq, Except.error.injEq, reduceCtorEq, false_and,
        exists_false, or_false]
      constructor
      · rintro ⟨rfl, rfl⟩
        exact ⟨e, ⟨rfl, rfl⟩, rfl⟩
      · rintro ⟨_, ⟨rfl, rfl⟩, rfl⟩
        exact ⟨rfl, rfl⟩
    | ok b =>
      simp only [Option.some.injEq, Prod.mk.injEq, reduceCtorEq, false_and, exists_false,
        Except.ok.injEq, false_or]
      constructor
      · intro h
        exact ⟨b, mid, ⟨rfl, rfl⟩, h⟩
      · rintro ⟨_, _, ⟨rfl, rfl⟩, h⟩
        exact h

/-! ## Reading and changing the state -/

/-- The state of the run. -/
def get : Act V α (Run V α) := fun run => some (.ok run, run)

/-- Changes the state of the run. -/
def modify (change : Run V α → Run V α) : Act V α Unit := fun run => some (.ok (), change run)

/-- Changes the grammar. -/
def onGrammar (step : GrammarM V α β) : Act V α β := fun run =>
  let (b, grammar) := step run.grammar
  some (.ok b, { run with grammar })

/-- Replaces the session. -/
def setSession (session : Option Session) : Act V α Unit :=
  modify fun run => { run with session }

/-- Changes the stores. -/
def onStores (change : Stores V α → Stores V α) : Act V α Unit :=
  modify fun run => { run with grammar := { run.grammar with stores := change run.grammar.stores } }

/-- Adds an event to the log. -/
def note (event : Event V α) : Act V α Unit :=
  modify fun run => { run with log := event :: run.log }

/-- The ordinal that the next call of the session will reserve. -/
def ordinal? : Act V α (Option Nat) := fun run =>
  some (.ok (run.session.map Session.ordinal), run)

@[simp]
theorem get_apply (run : Run V α) : (get : Act V α _) run = some (.ok run, run) := rfl

@[simp]
theorem modify_apply (change : Run V α → Run V α) (run : Run V α) :
    modify change run = some (.ok (), change run) := rfl

@[simp]
theorem ordinal?_apply (run : Run V α) :
    (ordinal? : Act V α _) run = some (.ok (run.session.map Session.ordinal), run) := rfl

end Act

/-- A way to attempt a recognizer. -/
abbrev Attempt (V α : Type) :=
  Context V α → Recognizer V α → Position → Act V α (Outcome V α)

end SlotGrammar
