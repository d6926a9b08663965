import SlotGrammar.Recording.Store

/-!
# Sessions

A parse with caching runs in a session.  Each call of a recognizer with a cache
reserves the next ordinal, and the journal has one slot for each reserved
ordinal, which names the store that holds a pending outcome for it.  A call that
has built its outcome takes the ordinals of the calls below it back, because a
replay of the outcome will not reach them.

Main results:

- Theorem `ordinal_reserve`: a reservation moves the ordinal counter by one.
- Theorem `ordinal_rollBack`: rolling back brings the counter down to a checkpoint.
-/

namespace SlotGrammar

/-- The stores of a grammar. -/
abbrev Stores (V α : Type) := Array (Store V α)

/-- The state of one parse with caching. -/
structure Session where
  id : SessionId
  key : TraceKey
  /-- For each reserved ordinal, the store with a pending outcome for it. -/
  journal : List (Option StoreId) := []
  /-- How many calls with a cache are building their outcome right now. -/
  building : Nat := 0
deriving DecidableEq

namespace Session

variable {V α : Type}

/-- The ordinal that the next call will reserve. -/
def ordinal (s : Session) : Nat := s.journal.length

/-- Reserves the next ordinal. -/
def reserve (s : Session) : Session := { s with journal := s.journal ++ [none] }

/-- Enters a call that builds its outcome. -/
def beginBuilding (s : Session) : Session := { s with building := s.building + 1 }

/-- Leaves a call that builds its outcome. -/
def endBuilding (s : Session) : Session := { s with building := s.building - 1 }

/-- Takes back every ordinal from a checkpoint on. -/
def rollBack (s : Session) (checkpoint : Nat) : Session :=
  { s with journal := s.journal.take checkpoint }

/-- Notes which store holds the outcome at an ordinal. -/
def mark (s : Session) (ordinal : Nat) (store : StoreId) : Session :=
  { s with journal := s.journal.set ordinal (some store) }

/-- A reservation moves the counter by one. -/
@[simp]
theorem ordinal_reserve (s : Session) : s.reserve.ordinal = s.ordinal + 1 := by
  simp [ordinal, reserve]

/-- Rolling back brings the counter down to the checkpoint. -/
@[simp]
theorem ordinal_rollBack (s : Session) (checkpoint : Nat) :
    (s.rollBack checkpoint).ordinal = min checkpoint s.ordinal := by
  simp [ordinal, rollBack]

@[simp]
theorem ordinal_mark (s : Session) (n : Nat) (store : StoreId) :
    (s.mark n store).ordinal = s.ordinal := by
  simp [ordinal, mark]

@[simp]
theorem ordinal_beginBuilding (s : Session) : s.beginBuilding.ordinal = s.ordinal := rfl

@[simp]
theorem ordinal_endBuilding (s : Session) : s.endBuilding.ordinal = s.ordinal := rfl

/-! ## Effects on the stores -/

/-- Drops the pending outcomes of a run of journal slots that starts at an
ordinal. -/
def dropSlots (id : SessionId) : Nat → List (Option StoreId) → Stores V α → Stores V α
  | _, [], stores => stores
  | ordinal, none :: slots, stores => dropSlots id (ordinal + 1) slots stores
  | ordinal, some store :: slots, stores =>
    dropSlots id (ordinal + 1) slots (stores.modify store fun s => s.forget id ordinal)

/-- Drops the pending outcomes that the journal has from a checkpoint on. -/
def dropFrom (s : Session) (checkpoint : Nat) (stores : Stores V α) : Stores V α :=
  dropSlots s.id checkpoint (s.journal.drop checkpoint) stores

/-- Settles the session in every store of its journal: what is pending there
becomes replayable after a match, and is dropped otherwise. -/
def finish (s : Session) (matched : Bool) (stores : Stores V α) : Stores V α :=
  s.journal.foldl
    (fun stores slot =>
      match slot with
      | none => stores
      | some store =>
        stores.modify store fun held =>
          if matched then held.commit s.id s.key else held.discard s.id)
    stores

end Session

end SlotGrammar
