import SlotGrammar.Proofs.Course

/-!
# Moments

The log of a run tells which recognizers were attempted outside every cached one, at
which positions, and what the ordinal of the session was then.  It also tells which
calls went through a store outside every cached recognizer, and what they came to.  The
marks of a course tell the same, from the ordinal at its start on.

Main results:

- Theorem `Tells.append`: what two stretches of a log tell one after the other.
- Theorem `Tells.around`: what happens below a cached recognizer is not told.
-/

namespace SlotGrammar

variable {V α : Type}

/-! ## Reading the log -/

/-- The start or the end of an attempt outside every cached recognizer, with the
ordinal at that time. -/
inductive Moment where
  | entered (handle : Handle) (pos : Position) (ordinal : Option Nat)
  | left (handle : Handle) (pos : Position) (ordinal : Option Nat)
deriving DecidableEq

/-- A moment as far as it happens outside every cached recognizer. -/
def Moment.seenAt (depth : Nat) (moment : Moment) : List Moment :=
  if depth = 0 then [moment] else []

/-- The moments that events tell of, given how many cached recognizers are running. -/
def Event.outermost : Nat → List (Event V α) → List Moment
  | _, [] => []
  | depth, .called handle pos ordinal :: events =>
    (Moment.entered handle pos ordinal).seenAt depth ++
      outermost (if handle.caching.isActive then depth + 1 else depth) events
  | depth, .replied handle pos ordinal _ :: events =>
    let depth := if handle.caching.isActive then depth - 1 else depth
    (Moment.left handle pos ordinal).seenAt depth ++ outermost depth events
  | depth, .worked _ _ :: events => outermost depth events
  | depth, .missed _ :: events => outermost depth events
  | depth, .tallied _ :: events => outermost depth events
  | depth, .probed _ _ _ _ _ :: events => outermost depth events

/-- The ordinal after some more have been reserved. -/
def Moment.later (ordinal : Option Nat) (count : Nat) : Option Nat := ordinal.map (· + count)

/-- No cached call later is the same ordinal. -/
@[simp]
theorem Moment.later_zero (ordinal : Option Nat) : Moment.later ordinal 0 = ordinal := by
  cases ordinal <;> rfl

/-- Counting on in two steps is counting on by both. -/
@[simp]
theorem Moment.later_later (ordinal : Option Nat) (m n : Nat) :
    later (Moment.later ordinal m) n = Moment.later ordinal (m + n) := by
  cases ordinal with
  | none => rfl
  | some k => simp [Moment.later, Nat.add_assoc]

/-- The moments that marks tell of, given the ordinal at the start. -/
def momentsOf : Option Nat → List (Mark V α) → List Moment
  | _, [] => []
  | ordinal, .entered handle pos :: marks => .entered handle pos ordinal :: momentsOf ordinal marks
  | ordinal, .left handle pos slots :: marks =>
    .left handle pos (Moment.later ordinal slots.length) ::
      momentsOf (Moment.later ordinal slots.length) marks

/-- The moments of the second part start where the first part left the counter. -/
theorem momentsOf_append (ordinal : Option Nat) (marks marks' : List (Mark V α)) :
    momentsOf ordinal (marks ++ marks') =
      momentsOf ordinal marks ++ momentsOf (Moment.later ordinal (tapeOf marks).length) marks' := by
  induction marks generalizing ordinal with
  | nil => simp [momentsOf]
  | cons mark marks ih =>
    cases mark with
    | entered handle pos =>
      rw [List.cons_append, momentsOf, momentsOf, ih]
      simp [Mark.slots]
    | left handle pos slots =>
      rw [List.cons_append, momentsOf, momentsOf, ih]
      simp [Mark.slots]

/-! ## Calls through a store -/

/-- The outcome of an attempt, unless it raised an error. -/
def Ending.outcome? : Ending V α → Option (Outcome V α)
  | .ok outcome => some outcome
  | .error _ => none

/-- The calls through a store that events tell of, outside every cached recognizer, each
with its store and its outcome, unless it raised; given how many cached recognizers are
running. -/
def Event.cachedCalls : Nat → List (Event V α) → List (StoreId × Option (Outcome V α))
  | _, [] => []
  | depth, .called handle _ _ :: events =>
    cachedCalls (if handle.caching.isActive then depth + 1 else depth) events
  | depth, .replied handle _ _ ending :: events =>
    match handle.caching with
    | .active s =>
      (if depth = 1 then [(s, Ending.outcome? ending)] else []) ++ cachedCalls (depth - 1) events
    | _ => cachedCalls depth events
  | depth, .worked _ _ :: events => cachedCalls depth events
  | depth, .missed _ :: events => cachedCalls depth events
  | depth, .tallied _ :: events => cachedCalls depth events
  | depth, .probed _ _ _ _ _ :: events => cachedCalls depth events

/-- The call that has reserved an ordinal outside every cached recognizer. -/
def Slot.call? : Slot V α → Option (StoreId × Option (Outcome V α))
  | settled s outcome => some (s, some outcome)
  | raised s => some (s, none)
  | passed => none

/-- The calls through a store that marks tell of. -/
def callsOf (marks : List (Mark V α)) : List (StoreId × Option (Outcome V α)) :=
  (tapeOf marks).filterMap Slot.call?

/-- The calls of two parts are those of the first, then those of the second. -/
theorem callsOf_append (marks marks' : List (Mark V α)) :
    callsOf (marks ++ marks') = callsOf marks ++ callsOf marks' := by
  unfold callsOf
  rw [tapeOf_append, List.filterMap_append]

/-- The slots of a call through a store tell of that call. -/
theorem Course.filterMap_slotsThrough (s : StoreId) (c : Course V α) :
    (c.slotsThrough s).filterMap Slot.call? = [(s, Ending.outcome? c.ending)] := by
  unfold slotsThrough
  cases c.ending with
  | error e => simp [Slot.call?, Ending.outcome?]
  | ok outcome => rfl

/-! ## Stretches of a log -/

/-- Whether a stretch of a log tells what some marks tell, and nothing when it lies
below a cached recognizer. -/
structure Event.Tells (events : List (Event V α)) (ordinal : Option Nat)
    (marks : List (Mark V α)) : Prop where
  outer : ∀ rest, Event.outermost 0 (events ++ rest) =
    momentsOf ordinal marks ++ Event.outermost 0 rest
  inner : ∀ depth rest, Event.outermost (depth + 1) (events ++ rest) =
    Event.outermost (depth + 1) rest
  outerCalls : ∀ rest, Event.cachedCalls 0 (events ++ rest) =
    callsOf marks ++ Event.cachedCalls 0 rest
  innerCalls : ∀ depth rest, Event.cachedCalls (depth + 1) (events ++ rest) =
    Event.cachedCalls (depth + 1) rest

namespace Event.Tells

variable {events events' : List (Event V α)} {ordinal : Option Nat} {marks marks' : List (Mark V α)}

/-- No event tells of no mark. -/
theorem nil (ordinal : Option Nat) : Tells ([] : List (Event V α)) ordinal [] :=
  ⟨fun _ => rfl, fun _ _ => rfl, fun _ => rfl, fun _ _ => rfl⟩

/-- What two stretches of a log tell one after the other. -/
theorem append (h : Tells events ordinal marks)
    (h' : Tells events' (Moment.later ordinal (tapeOf marks).length) marks') :
    Tells (events ++ events') ordinal (marks ++ marks') := by
  refine ⟨?_, ?_, ?_, ?_⟩
  · intro rest
    rw [List.append_assoc, h.outer, h'.outer, momentsOf_append, List.append_assoc]
  · intro depth rest
    rw [List.append_assoc, h.inner, h'.inner]
  · intro rest
    rw [List.append_assoc, h.outerCalls, h'.outerCalls, callsOf_append, List.append_assoc]
  · intro depth rest
    rw [List.append_assoc, h.innerCalls, h'.innerCalls]

/-- A node at work tells of no mark. -/
theorem worked (handle : Handle) (pos : Position) (ordinal : Option Nat) :
    Tells [(Event.worked handle pos : Event V α)] ordinal [] :=
  ⟨fun _ => rfl, fun _ _ => rfl, fun _ => rfl, fun _ _ => rfl⟩

/-- A miss tells of no mark. -/
theorem missed (pos : Position) (ordinal : Option Nat) :
    Tells [(Event.missed pos : Event V α)] ordinal [] :=
  ⟨fun _ => rfl, fun _ _ => rfl, fun _ => rfl, fun _ _ => rfl⟩

/-- A tally tells of no mark. -/
theorem tallied (labels : List String) (ordinal : Option Nat) :
    Tells (labels.map (Event.tallied : String → Event V α)) ordinal [] := by
  induction labels with
  | nil => exact .nil _
  | cons label labels ih =>
    exact ⟨fun rest => ih.outer rest, fun depth rest => ih.inner depth rest,
      fun rest => ih.outerCalls rest, fun depth rest => ih.innerCalls depth rest⟩

/-- A probe tells of no mark. -/
theorem probed (label : String) (pos : Position) (before after : Option Nat) (ending : Ending V α)
    (ordinal : Option Nat) : Tells [Event.probed label pos before after ending] ordinal [] :=
  ⟨fun _ => rfl, fun _ _ => rfl, fun _ => rfl, fun _ _ => rfl⟩

/-- An attempt of a recognizer without a cache starts. -/
theorem called {handle : Handle} (hcaching : handle.caching.isActive = false) (pos : Position)
    (ordinal : Option Nat) :
    Tells [(Event.called handle pos ordinal : Event V α)] ordinal [.entered handle pos] := by
  refine ⟨?_, ?_, ?_, ?_⟩
  · intro rest
    simp [outermost, hcaching, momentsOf, Moment.seenAt]
  · intro depth rest
    simp [outermost, hcaching, Moment.seenAt]
  · intro rest
    simp [cachedCalls, hcaching, callsOf, Mark.slots]
  · intro depth rest
    simp [cachedCalls, hcaching]

/-- A reply of a node without a store is no cached call. -/
theorem cachedCalls_replied {handle : Handle} (hcaching : handle.caching.isActive = false)
    (depth : Nat) (pos : Position) (ordinal : Option Nat) (ending : Ending V α)
    (rest : List (Event V α)) :
    cachedCalls depth (.replied handle pos ordinal ending :: rest) = cachedCalls depth rest := by
  rw [cachedCalls]
  cases h : handle.caching with
  | active s =>
    rw [h] at hcaching
    cases hcaching
  | never => rfl
  | paused s => rfl

/-- An attempt of a recognizer without a cache ends. -/
theorem replied {handle : Handle} (hcaching : handle.caching.isActive = false) (pos : Position)
    (ordinal : Option Nat) (ending : Ending V α) :
    Tells [Event.replied handle pos ordinal ending] ordinal [.left handle pos []] := by
  refine ⟨?_, ?_, ?_, ?_⟩
  · intro rest
    simp [outermost, hcaching, momentsOf, Moment.seenAt]
  · intro depth rest
    simp [outermost, hcaching, Moment.seenAt]
  · intro rest
    exact cachedCalls_replied hcaching 0 pos ordinal ending rest
  · intro depth rest
    exact cachedCalls_replied hcaching (depth + 1) pos ordinal ending rest

/-- What happens below a cached recognizer is not told. -/
theorem around {handle : Handle} {s : StoreId} (hcaching : handle.caching = .active s)
    (pos : Position) (ordinal : Option Nat) {inside : Option Nat} (h : Tells events inside marks)
    {slots : List (Slot V α)} {ending : Ending V α}
    (hcall : slots.filterMap Slot.call? = [(s, Ending.outcome? ending)]) :
    Tells (.called handle pos ordinal :: events ++
        [.replied handle pos (Moment.later ordinal slots.length) ending]) ordinal
      [.entered handle pos, .left handle pos slots] := by
  have hactive : handle.caching.isActive = true := by
    rw [hcaching]
    rfl
  refine ⟨?_, ?_, ?_, ?_⟩
  · intro rest
    rw [List.append_assoc, List.cons_append, outermost, hactive]
    show _ ++ outermost (0 + 1) _ = _
    rw [h.inner]
    simp [outermost, hactive, momentsOf, Moment.seenAt]
  · intro depth rest
    rw [List.append_assoc, List.cons_append, outermost, hactive]
    show _ ++ outermost (depth + 1 + 1) _ = _
    rw [h.inner]
    simp [outermost, hactive, Moment.seenAt]
  · intro rest
    rw [List.append_assoc, List.cons_append, cachedCalls, hactive]
    show cachedCalls (0 + 1) _ = _
    rw [h.innerCalls]
    simp [cachedCalls, hcaching, callsOf, Mark.slots, hcall]
  · intro depth rest
    rw [List.append_assoc, List.cons_append, cachedCalls, hactive]
    show cachedCalls (depth + 1 + 1) _ = _
    rw [h.innerCalls]
    simp [cachedCalls, hcaching]

end Event.Tells

end SlotGrammar
