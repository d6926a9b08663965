import SlotGrammar.Run.Exec

/-!
# Parsing

A parse attempts a recognizer at the start of an input, in a session if caching
is on.  A match commits the outcomes that the session recorded; a parse that
fails or is aborted drops them.

Main results:

- Theorem `exec_no_session`: attempting a recognizer at a position by itself
  runs without a session.
-/

namespace SlotGrammar

variable {V α : Type}

/-- What a parse came to: how it ended, the grammar after it, and its events in
the order in which they happened. -/
structure Report (V α : Type) where
  ending : Ending V α
  grammar : Grammar V α
  events : List (Event V α)

/-- Runs an action from a grammar and reports on it; `none` when it goes deeper
than its limit. -/
def Act.report? (act : Act V α (Outcome V α)) (grammar : Grammar V α) : Option (Report V α) :=
  (act { grammar }).map fun (ending, run) => ⟨ending, run.grammar, run.log.reverse⟩

namespace Grammar

/-- Parses an input from its start, with a limit on the nesting of attempts. -/
def parse? (g : Grammar V α) (limit : Nat) (root : Recognizer V α) (input : Fragments)
    (values : List V) (options : ParseOptions) : Option (Report V α) :=
  let ctx : Context V α := ⟨input, values, options, [root]⟩
  (Act.inSession ctx root (exec limit ctx root .start)).report? g

/-- Attempts a recognizer at any position of an input, without a session. -/
def exec? (g : Grammar V α) (limit : Nat) (root : Recognizer V α) (input : Fragments)
    (values : List V) (window : ErrorWindow) (pos : Position) : Option (Report V α) :=
  (exec limit ⟨input, values, { errorWindow := window }, [root]⟩ root pos).report? g

/-- Attempting a recognizer by itself starts without a session. -/
theorem exec_no_session (g : Grammar V α) (limit : Nat) (root : Recognizer V α)
    (input : Fragments) (values : List V) (window : ErrorWindow) (pos : Position) :
    g.exec? limit root input values window pos =
      (exec limit ⟨input, values, { errorWindow := window }, [root]⟩ root pos
        { grammar := g, session := none }).map
        fun r => ⟨r.1, r.2.grammar, r.2.log.reverse⟩ := rfl

end Grammar

end SlotGrammar
