import SlotGrammar.Recognizer
import SlotGrammar.Table

/-!
# Outcome stores

A recognizer with a cache keeps its outcomes in a store.  Outcomes that may be
replayed lie in traces: a trace belongs to the recognizer a parse started from
and to the static text it parsed, and holds outcomes by their ordinals.
Outcomes of parses that are still in flight are pending, by session and ordinal,
until the session commits or discards them.

Main results:

- Theorem `replay?_record`: recording makes nothing replayable.
- Theorem `pending?_forget`: forgetting drops exactly one pending outcome.
- Theorem `replay?_discard` and `replay?_clear`: discarding leaves all traces,
  clearing leaves none.
-/

namespace SlotGrammar

/-- The trace an outcome belongs to: the recognizer that the parse started from,
and the static text that it parsed. -/
structure TraceKey where
  root : Nat
  fingerprint : Fingerprint
deriving DecidableEq

/-- The number of a parse with caching.  A program is taken to start fewer than 2 ^ 64. -/
abbrev SessionId := Nat

/-- The outcomes that one recognizer keeps. -/
structure Store (V α : Type) where
  traces : Table TraceKey (Table Nat (Outcome V α)) := .empty
  pending : Table (SessionId × Nat) (Outcome V α) := .empty

namespace Store

variable {V α : Type}

instance : Inhabited (Store V α) := ⟨{}⟩

/-- The outcome to replay at an ordinal of a trace, if one was committed. -/
def replay? (s : Store V α) (key : TraceKey) (ordinal : Nat) : Option (Outcome V α) :=
  (s.traces.find? key).bind fun trace => trace.find? ordinal

/-- The outcome that a session has pending at an ordinal. -/
def pending? (s : Store V α) (session : SessionId) (ordinal : Nat) : Option (Outcome V α) :=
  s.pending.find? (session, ordinal)

/-- The number of committed outcomes in all traces. -/
def size (s : Store V α) : Nat := (s.traces.values.flatMap Table.entries).length

/-! ## Operations -/

/-- Makes an outcome pending. -/
def record (s : Store V α) (session : SessionId) (ordinal : Nat) (outcome : Outcome V α) :
    Store V α :=
  { s with pending := s.pending.put (session, ordinal) outcome }

/-- Drops one pending outcome. -/
def forget (s : Store V α) (session : SessionId) (ordinal : Nat) : Store V α :=
  { s with pending := s.pending.erase (session, ordinal) }

/-- Drops every pending outcome of a session. -/
def discard (s : Store V α) (session : SessionId) : Store V α :=
  { s with pending := s.pending.retain fun k => decide (k.1 ≠ session) }

/-- The pending outcomes of a session with their ordinals. -/
def pendingOf (s : Store V α) (session : SessionId) : List (Nat × Outcome V α) :=
  (s.pending.entries.filter fun e => decide (e.1.1 = session)).map fun e => (e.1.2, e.2)

/-- Moves the pending outcomes of a session into a trace, where they replace the
ones at equal ordinals. -/
def commit (s : Store V α) (session : SessionId) (key : TraceKey) : Store V α :=
  let settled := s.discard session
  match s.pendingOf session with
  | [] => settled
  | entries =>
    let trace := (s.traces.find? key).getD .empty
    { settled with traces := s.traces.put key (trace.putAll entries) }

/-- Drops every trace.  Pending outcomes stay. -/
def clear (s : Store V α) : Store V α := { s with traces := .empty }

/-- Recording an outcome makes nothing replayable. -/
@[simp]
theorem replay?_record (s : Store V α) (session : SessionId) (ordinal : Nat)
    (outcome : Outcome V α) (key : TraceKey) (n : Nat) :
    (s.record session ordinal outcome).replay? key n = s.replay? key n := rfl

/-- A recorded outcome is pending at its ordinal. -/
theorem pending?_record (s : Store V α) (session id : SessionId) (ordinal n : Nat)
    (outcome : Outcome V α) :
    (s.record session ordinal outcome).pending? id n =
      if (session, ordinal) = (id, n) then some outcome else s.pending? id n :=
  Table.find?_put _ _ _ _

/-- Forgetting drops exactly one pending outcome. -/
theorem pending?_forget (s : Store V α) (session id : SessionId) (ordinal n : Nat) :
    (s.forget session ordinal).pending? id n =
      if (id, n) = (session, ordinal) then none else s.pending? id n :=
  Table.find?_erase _ _ _

/-- Discarding drops the pending outcomes of the session and no others. -/
theorem pending?_discard (s : Store V α) (session id : SessionId) (n : Nat) :
    (s.discard session).pending? id n = if id = session then none else s.pending? id n := by
  unfold pending? discard
  rw [Table.find?_retain]
  by_cases h : id = session
  · simp [h]
  · simp [h]

/-- Discarding leaves every trace as it was. -/
@[simp]
theorem replay?_discard (s : Store V α) (session : SessionId) (key : TraceKey) (n : Nat) :
    (s.discard session).replay? key n = s.replay? key n := rfl

/-- Clearing leaves nothing to replay. -/
@[simp]
theorem replay?_clear (s : Store V α) (key : TraceKey) (n : Nat) :
    s.clear.replay? key n = none := rfl

/-- Clearing leaves pending outcomes alone. -/
@[simp]
theorem pending?_clear (s : Store V α) (session : SessionId) (n : Nat) :
    s.clear.pending? session n = s.pending? session n := rfl

end Store

end SlotGrammar
