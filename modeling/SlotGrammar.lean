import SlotGrammar.Datum
import SlotGrammar.Html.Dialect
import SlotGrammar.Html.Parser
import SlotGrammar.Proofs.Lazy.Alignment
import SlotGrammar.Proofs.Lazy.Commits
import SlotGrammar.Proofs.Html.Language
import SlotGrammar.Proofs.Html.Printing
import SlotGrammar.Proofs.Html.Slots
import SlotGrammar.Proofs.Snapshots
import SlotGrammar.Proofs.Toggling
import SlotGrammar.Proofs.Conduct
import SlotGrammar.Proofs.Usage
import SlotGrammar.Proofs.Journals
import SlotGrammar.Proofs.Bookkeeping
import SlotGrammar.Proofs.Unrecorded
import SlotGrammar.Proofs.Isolation
import SlotGrammar.Proofs.Lazy.Reuse
import SlotGrammar.Proofs.Guided
import SlotGrammar.Proofs.Lossless
import SlotGrammar.Proofs.Lazy.Cursor
import SlotGrammar.Proofs.FatalErrors
import SlotGrammar.Proofs.Remainder
import SlotGrammar.Proofs.Html.Viability
import SlotGrammar.Proofs.Html.Classification
import SlotGrammar.Proofs.Html.Histories
import SlotGrammar.Proofs.Html.Joining
import SlotGrammar.Proofs.Html.Interpolation
import SlotGrammar.Proofs.Rollback
import SlotGrammar.Proofs.Confinement
import SlotGrammar.Proofs.Repetition
import SlotGrammar.Proofs.Rounds
import SlotGrammar.Proofs.Delimiters
import SlotGrammar.Proofs.Html.Entries
import SlotGrammar.Proofs.Excerpts
import SlotGrammar.Proofs.Holdings
import SlotGrammar.Proofs.Html.Filled
import SlotGrammar.Proofs.Html.Holdings
import SlotGrammar.Proofs.Regex.Pinning
import SlotGrammar.Proofs.Walking
import SlotGrammar.Proofs.Owners
import SlotGrammar.Proofs.Families
