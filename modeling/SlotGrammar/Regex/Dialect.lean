import SlotGrammar.Regex.Basic
import SlotGrammar.Regex.Machine
import SlotGrammar.Regex.Reader

/-!
# A dialect of regular expressions

A library that runs.  It reads the written forms of a dialect of regular expressions, and what
it builds from one searches with the machine of its term.

Main results:

- Theorem `of?_eq_some_iff`: what is built from a written form under some flags.
-/

namespace SlotGrammar.Regex

/-- The regular expression with a written form that searches with a machine. -/
def ofMachine (source : Text) (m : Machine) : Regex where
  source := source
  matchAt? before ahead := m.matchAt? ⟨before.getLast?, ahead⟩
  matchAt?_append := Machine.matchAt?_append

/-- The regular expression with a written form under some flags, if it is well formed. -/
def of? (source : Text) (flags : Flags) : Option Regex :=
  (Term.read? flags source).map fun term => ofMachine source term.machine

/-- The library that builds the regular expressions of the dialect. -/
def dialect : Engine := ⟨fun source => of? source {}⟩

/-- What is built from a written form has the machine of the term that the form stands for. -/
theorem of?_eq_some_iff {source : Text} {flags : Flags} {r : Regex} :
    of? source flags = some r ↔
      ∃ term, Term.read? flags source = some term ∧ ofMachine source term.machine = r :=
  Option.map_eq_some_iff

theorem dialect_build?_eq_some_iff {source : Text} {r : Regex} :
    dialect.build? source = some r ↔
      ∃ term, Term.read? {} source = some term ∧ ofMachine source term.machine = r :=
  of?_eq_some_iff

end SlotGrammar.Regex
