import SlotGrammar.Run.Basic

/-!
# Recording and replaying

A recognizer with a cache reserves an ordinal for each of its calls.  While no
other call is building its outcome, an outcome committed at that ordinal is
replayed, whatever the position.  Otherwise the recognizer works; afterwards the
ordinals of the calls below it are taken back and its own outcome is pending.  A
call that ends in a fatal error records nothing and takes nothing back.

Main results:

- Theorem `throughStore_no_session`: without a session a cache changes nothing.
-/

namespace SlotGrammar.Act

variable {V α : Type}

/-- Changes the session, if there is one. -/
def onSession (change : Session → Session) : Act V α Unit :=
  modify fun run => { run with session := run.session.map change }

/-- Records the outcome of the call that reserved `ordinal`, in place of all that
was recorded below it. -/
def settleCall (store : StoreId) (ordinal : Nat) (outcome : Outcome V α) : Act V α Unit :=
  modify fun run =>
    match run.session with
    | none => run
    | some session =>
      let stores := session.dropFrom (ordinal + 1) run.grammar.stores
      let stores := stores.modify store fun s => s.record session.id ordinal outcome
      { run with
        grammar := { run.grammar with stores }
        session := some ((session.rollBack (ordinal + 1)).mark ordinal store) }

/-- The outcome to replay at the next ordinal, if no call is building and one was
committed. -/
def replay? (run : Run V α) (store : StoreId) (session : Session) : Option (Outcome V α) :=
  if session.building = 0 then
    (run.grammar.stores[store]?).bind fun s => s.replay? session.key session.ordinal
  else none

/-- Works through the cache in a store. -/
def throughStore (store : StoreId) (work : Act V α (Outcome V α)) : Act V α (Outcome V α) := do
  let run ← get
  match run.session with
  | none => work
  | some session =>
    match replay? run store session with
    | some outcome =>
      setSession (some session.reserve)
      pure outcome
    | none =>
      setSession (some session.reserve.beginBuilding)
      let ending ← work.attempt
      onSession Session.endBuilding
      match ending with
      | .error e => raise e
      | .ok outcome =>
        settleCall store session.ordinal outcome
        pure outcome

/-- Works through the cache of a handle, if it is active. -/
def through (caching : Caching) (work : Act V α (Outcome V α)) : Act V α (Outcome V α) :=
  match caching with
  | .active store => throughStore store work
  | _ => work

/-- Without a session a cache changes nothing. -/
theorem throughStore_no_session (store : StoreId) (work : Act V α (Outcome V α)) {run : Run V α}
    (h : run.session = none) : throughStore store work run = work run := by
  simp [throughStore, bind, h]

end SlotGrammar.Act
