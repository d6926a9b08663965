import SlotGrammar.Proofs.Symbols

/-!
# Walking an input

A walk over an input starts at its start and does at each position what the position
allows: it reads the code point there, crosses the slot there, or stops at the end.

Main results:

- Theorem `allows_iff`: a position with some symbols ahead allows one choice, which the first
  of them decides.
- Theorem `visits_once`: a walk is never at a loss, goes over every code point and every slot
  once and in order, and comes to an end.
-/

namespace SlotGrammar

/-! ## Choices -/

/-- What a walk does at a position. -/
inductive Choice where
  /-- Reads the code point there. -/
  | read (c : Char)
  /-- Crosses the slot there. -/
  | cross
  /-- Stops there. -/
  | stop
deriving DecidableEq

namespace Choice

/-- Where a walk over an input goes from a position, if it goes on. -/
def next? (input : Fragments) (pos : Position) : Choice → Option Position
  | read c => some (input.advance pos c.utf8Size)
  | cross => some (input.nextFragment pos)
  | stop => none

/-- The choice that goes over a symbol. -/
def across : Symbol → Choice
  | .char c => read c
  | .slot _ => cross

/-- The choice in front of some symbols. -/
def before : List Symbol → Choice
  | [] => stop
  | x :: _ => across x

/-- The code points that a walk has read. -/
def readings (walked : List Choice) : Text :=
  walked.filterMap fun choice =>
    match choice with
    | read c => some c
    | _ => none

/-- The number of slots that a walk has crossed. -/
def crossings (walked : List Choice) : Nat := walked.count cross

@[simp]
theorem readings_read (walked : List Choice) (c : Char) :
    readings (walked ++ [read c]) = readings walked ++ [c] := List.filterMap_append

@[simp]
theorem readings_cross (walked : List Choice) :
    readings (walked ++ [cross]) = readings walked := by
  simp [readings]

@[simp]
theorem crossings_read (walked : List Choice) (c : Char) :
    crossings (walked ++ [read c]) = crossings walked := by
  simp [crossings]

@[simp]
theorem crossings_cross (walked : List Choice) :
    crossings (walked ++ [cross]) = crossings walked + 1 := by
  simp [crossings]

end Choice

namespace Fragments

/-- Whether a walk may make a choice at a position. -/
def Allows (input : Fragments) (pos : Position) : Choice → Prop
  | .read c => input.charAt? pos = some c
  | .cross => input.isSlot pos = true
  | .stop => input.isEnd pos = true

/-- The walks over an input: the choices from the start to a position. -/
inductive Walk (input : Fragments) : List Choice → Position → Prop
  | start : Walk input [] .start
  | step {walked : List Choice} {pos next : Position} {choice : Choice} :
      Walk input walked pos → input.Allows pos choice → choice.next? input pos = some next →
      Walk input (walked ++ [choice]) next

variable {input : Fragments} {pos next stop : Position} {s : List Symbol}
  {walked more : List Choice} {choice : Choice}

/-! ## One choice at every position -/

/-- What is ahead of a position decides which choice it allows. -/
theorem allows_iff (h : input.ahead? pos = some s) :
    input.Allows pos choice ↔ choice = .before s := by
  have hread : input.charAt? pos = (lead s).head? := by
    rw [charAt?, rest?_of_ahead? h, Option.bind_some]
  cases s with
  | nil =>
    have hslot := isSlot_eq_false h fun i r heq => by cases heq
    have hend := (isEnd_iff h).2 rfl
    cases choice <;> simp [Allows, Choice.before, hread, hslot, hend, lead]
  | cons x s =>
    have hend : input.isEnd pos ≠ true := fun hend => by cases (isEnd_iff h).1 hend
    cases x with
    | char c =>
      have hslot := isSlot_eq_false h fun i r heq => by cases heq
      cases choice <;>
        simp [Allows, Choice.before, Choice.across, hread, hslot, hend, lead, eq_comm]
    | slot i =>
      have hslot := (ahead?_slot h).2.1
      cases choice <;>
        simp [Allows, Choice.before, Choice.across, hread, hslot, hend, lead]

/-- Whoever goes over the first symbol ahead goes forward, and has the others ahead. -/
theorem ahead?_of_next? {x : Symbol} (h : input.ahead? pos = some (x :: s))
    (hnext : (Choice.across x).next? input pos = some next) :
    input.ahead? next = some s ∧ pos < next := by
  cases x with
  | char c =>
    have hadvance : input.advance pos c.utf8Size = pos.advance c.utf8Size :=
      advance_of_ahead? (t := [c]) h
    cases hnext
    rw [hadvance]
    exact ⟨ahead?_advance (t := [c]) h, pos.lt_advance c.utf8Size_pos⟩
  | slot i =>
    cases hnext
    rw [nextFragment_eq (hasRoom_of_ahead? h)]
    exact ⟨(ahead?_slot h).2.2, pos.lt_nextFragment⟩

/-- A walk has gone over the symbols that are not ahead of it. -/
theorem Walk.exists_ahead? (h : input.Walk walked pos) (hinput : input.texts ≠ []) :
    ∃ s, input.ahead? pos = some s ∧ walked ++ s.map .across = input.symbols.map .across := by
  induction h with
  | start => exact ⟨_, ahead?_start hinput, rfl⟩
  | @step walked pos next choice hwalk hallowed hnext ih =>
    obtain ⟨s, hs, hover⟩ := ih
    cases (allows_iff hs).1 hallowed
    cases s with
    | nil => cases hnext
    | cons x s =>
      have hlonger : walked ++ [.across x] ++ s.map .across = input.symbols.map .across := by
        rw [← hover, List.append_assoc]
        rfl
      exact ⟨s, (ahead?_of_next? hs hnext).1, hlonger⟩

/-- A walk may go on to the end of the input. -/
theorem Walk.exists_stop (h : input.Walk walked pos) (hs : input.ahead? pos = some s) :
    ∃ more stop, input.Walk (walked ++ more) stop ∧ input.isEnd stop = true := by
  induction s generalizing walked pos with
  | nil => exact ⟨[], pos, by rwa [List.append_nil], (isEnd_iff hs).2 rfl⟩
  | cons x s ih =>
    obtain ⟨next, hnext⟩ : ∃ next, (Choice.across x).next? input pos = some next := by
      cases x <;> exact ⟨_, rfl⟩
    obtain ⟨more, stop, hmore, hend⟩ :=
      ih (h.step ((allows_iff hs).2 rfl) hnext) (ahead?_of_next? hs hnext).1
    exact ⟨_, stop, by rwa [List.append_assoc] at hmore, hend⟩

/-- All walks go the same way: those that have come to the end begin with all others. -/
theorem Walk.isPrefix_of_isEnd {whole : List Choice} (h : input.Walk walked pos)
    (hinput : input.texts ≠ []) (h' : input.Walk whole stop) (hend : input.isEnd stop = true) :
    walked <+: whole := by
  obtain ⟨s, -, hover⟩ := h.exists_ahead? hinput
  obtain ⟨s', hs', hwhole⟩ := h'.exists_ahead? hinput
  rw [(isEnd_iff hs').1 hend, List.map_nil, List.append_nil] at hwhole
  exact ⟨_, hover.trans hwhole.symm⟩

/-! ## What a walk has gone over -/

/-- What a walk has gone over when it comes to a position: the fragments before it and what
its own fragment has in front of it, apart from the rest of that. -/
structure Progress (input : Fragments) (walked : List Choice) (pos : Position)
    (seen rest : Text) : Prop where
  /-- The fragment is what the walk has seen of it, and the rest. -/
  fragment : input.get? pos.fragment = some (seen ++ rest)
  /-- The offset is the length of what it has seen. -/
  offset : pos.offset = seen.byteLength
  /-- It has read all of the fragments before, in order, and what it has seen of this one. -/
  read : Choice.readings walked = (input.texts.take pos.fragment).flatten ++ seen
  /-- It has crossed the slot behind every fragment before. -/
  crossed : Choice.crossings walked = pos.fragment

namespace Progress

variable {seen rest : Text}

/-- The rest of the fragment is what the walk has not read of it. -/
theorem rest?_eq (h : input.Progress walked pos seen rest) : input.rest? pos = some rest := by
  rw [rest?, h.fragment, Option.bind_some, h.offset, Text.dropBytes?_byteLength_append]

/-- It is at a fragment of the input. -/
theorem lt_length (h : input.Progress walked pos seen rest) : pos.fragment < input.length :=
  (List.getElem?_eq_some_iff.1 h.fragment).1

/-- Where a fragment is exhausted, the walk has seen all of it. -/
theorem rest_eq_nil (h : input.Progress walked pos seen rest)
    (hexhausted : input.exhausted pos = true) : rest = [] := by
  rw [exhausted, h.fragment] at hexhausted
  have hle := of_decide_eq_true hexhausted
  rw [Text.byteLength_append, h.offset] at hle
  exact (Text.byteLength_eq_zero_iff rest).1 (by omega)

/-- All fragments up to this one are those before and this one. -/
theorem take_succ (h : input.Progress walked pos seen []) :
    (input.texts.take (pos.fragment + 1)).flatten = Choice.readings walked := by
  have hget : input.texts[pos.fragment]? = some (seen ++ []) := h.fragment
  rw [List.take_add_one, hget, h.read]
  simp

/-- Reading a code point makes progress in the fragment. -/
theorem reads {c : Char} (h : input.Progress walked pos seen rest)
    (hc : input.charAt? pos = some c) :
    input.Progress (walked ++ [.read c]) (input.advance pos c.utf8Size) (seen ++ [c])
      rest.tail := by
  rw [charAt?, h.rest?_eq, Option.bind_some] at hc
  obtain ⟨rest, rfl⟩ := List.head?_eq_some_iff.1 hc
  rw [advance_eq h.fragment (by simp [h.offset])]
  exact {
    fragment := by
      rw [List.append_assoc]
      exact h.fragment
    offset := by simp [h.offset]
    read := by simp [h.read]
    crossed := by simp [h.crossed] }

/-- Crossing a slot leaves the fragment behind and makes progress to the next one. -/
theorem crosses (h : input.Progress walked pos seen rest) (hslot : input.isSlot pos = true) :
    ∃ text, input.Progress (walked ++ [.cross]) (input.nextFragment pos) [] text := by
  have hroom := hasRoom_of_lt h.lt_length
  rw [isSlot_eq hroom, Bool.and_eq_true, decide_eq_true_eq] at hslot
  rw [nextFragment_eq hroom]
  obtain ⟨hread, hnext⟩ := hslot
  have hseen := h
  rw [h.rest_eq_nil hread] at hseen
  refine ⟨input.texts[pos.fragment + 1], ?_⟩
  exact {
    fragment := List.getElem?_eq_getElem hnext
    offset := rfl
    read := by
      rw [Choice.readings_cross, Position.nextFragment_fragment, hseen.take_succ, List.append_nil]
    crossed := by simp [h.crossed] }

end Progress

/-- Wherever a walk comes, it has gone over everything before. -/
theorem Walk.exists_progress (h : input.Walk walked pos) (hinput : input.texts ≠ []) :
    ∃ seen rest, input.Progress walked pos seen rest := by
  induction h with
  | start =>
    obtain ⟨texts⟩ := input
    cases texts with
    | nil => exact absurd rfl hinput
    | cons t ts => exact ⟨[], t, rfl, rfl, rfl, rfl⟩
  | @step walked pos next choice hwalk hallowed hnext ih =>
    obtain ⟨seen, rest, hprogress⟩ := ih
    cases choice with
    | read c =>
      cases hnext
      exact ⟨_, _, hprogress.reads hallowed⟩
    | cross =>
      cases hnext
      exact ⟨[], hprogress.crosses hallowed⟩
    | stop => cases hnext

/-- What a walk has gone over at the end of the input: all of it. -/
structure Complete (input : Fragments) (walked : List Choice) (stop : Position) : Prop where
  /-- It has read the code points of all fragments, in order. -/
  read : Choice.readings walked = input.texts.flatten
  /-- It has crossed every slot. -/
  crossed : Choice.crossings walked = input.slotCount
  /-- It stops in the last fragment. -/
  last : stop.fragment + 1 = input.length
  /-- It stops at the length of that fragment. -/
  length : (input.get? stop.fragment).map Text.byteLength = some stop.offset

/-- Where a walk comes to the end, it has gone over the whole input. -/
theorem Walk.complete (h : input.Walk walked stop) (hinput : input.texts ≠ [])
    (hend : input.isEnd stop = true) : input.Complete walked stop := by
  obtain ⟨seen, rest, hprogress⟩ := h.exists_progress hinput
  have hlt := hprogress.lt_length
  rw [isEnd_eq (hasRoom_of_lt hlt), Bool.and_eq_true, decide_eq_true_eq] at hend
  have hseen := hprogress
  rw [hprogress.rest_eq_nil hend.1] at hseen
  have hlast : stop.fragment + 1 = input.length := by omega
  exact {
    read := by rw [← hseen.take_succ, hlast, length, List.take_length]
    crossed := by rw [hprogress.crossed, slotCount, ← hlast, Nat.add_sub_cancel]
    last := hlast
    length := by rw [hseen.fragment, Option.map_some, List.append_nil, hseen.offset] }

/-! ## The walk -/

/-- A walk over any fragments is never at a loss and never has two choices.  Wherever it comes,
it has read what lies before and crossed the slots there, what is not read of the fragment is
its rest, and it only goes forward.  It comes to the end, always in the same way, and has then
gone over the whole input. -/
theorem visits_once (hinput : input.texts ≠ []) :
    (∀ walked pos, input.Walk walked pos →
      (∃! choice, input.Allows pos choice) ∧
      (∃ seen rest, input.Progress walked pos seen rest ∧ input.rest? pos = some rest) ∧
      (∀ choice next, input.Allows pos choice → choice.next? input pos = some next →
        pos < next) ∧
      (input.isEnd pos = true → input.Complete walked pos)) ∧
    ∃ whole stop, input.Walk whole stop ∧ input.isEnd stop = true ∧
      ∀ walked pos, input.Walk walked pos → walked <+: whole := by
  refine ⟨?_, ?_⟩
  · intro walked pos h
    obtain ⟨s, hs, -⟩ := h.exists_ahead? hinput
    obtain ⟨seen, rest, hprogress⟩ := h.exists_progress hinput
    refine ⟨⟨.before s, (allows_iff hs).2 rfl, fun choice => (allows_iff hs).1⟩,
      ⟨seen, rest, hprogress, hprogress.rest?_eq⟩, ?_, h.complete hinput⟩
    intro choice next hallowed hnext
    cases (allows_iff hs).1 hallowed
    cases s with
    | nil => cases hnext
    | cons x s => exact (ahead?_of_next? hs hnext).2
  · obtain ⟨whole, stop, hwhole, hend⟩ := Walk.start.exists_stop (ahead?_start hinput)
    exact ⟨whole, stop, hwhole, hend, fun walked pos h => h.isPrefix_of_isEnd hinput hwhole hend⟩

/-- Three fragments, the second of them empty, with a code point of two bytes. -/
def accented : Fragments := ⟨[['é', 'a'], [], ['b']]⟩

/-- The walk over them reads three code points, crosses two slots and stops behind the last. -/
theorem accented_visited : accented.texts ≠ [] ∧ ∃ whole stop, accented.Walk whole stop ∧
    accented.isEnd stop = true ∧ Choice.readings whole = ['é', 'a', 'b'] ∧
    Choice.crossings whole = 2 ∧ stop = ⟨2, 1⟩ := by
  have hinput : accented.texts ≠ [] := by decide
  refine ⟨hinput, ?_⟩
  obtain ⟨hwalks, whole, stop, hwhole, hend, -⟩ := visits_once hinput
  obtain ⟨-, -, -, hcomplete⟩ := hwalks whole stop hwhole
  obtain ⟨hread, hcrossed, hlast, hlength⟩ := hcomplete hend
  refine ⟨whole, stop, hwhole, hend, hread, hcrossed, ?_⟩
  obtain ⟨fragment, offset⟩ := stop
  cases (Nat.add_right_cancel hlast : fragment = 2)
  cases hlength
  rfl

end Fragments

end SlotGrammar
