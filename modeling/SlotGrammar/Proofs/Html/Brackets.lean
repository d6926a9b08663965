import SlotGrammar.Html.Rules
import SlotGrammar.Proofs.Cursor

/-!
# Brackets on the way

The positions at which a recognizer of elements is entered are at brackets, each of them behind
the one before it, but for a last one where no element begins.  This file says so of some
positions on the way from one position to another, puts such ways together, and bounds how many
positions there are.

Main results:

- Definitions `Brackets`, `Trailing` and `Strays`: the positions on a way.
- Theorem `Strays.pairwise`: no position comes twice.
- Theorem `Strays.length_le`: there are no more of them than brackets in the input, and one.
- Definition `Tidy`: what an attempt leaves that enters elements in order.
-/

namespace SlotGrammar.Html

variable {V : Type}

/-! ## Brackets on the way -/

section Brackets

variable {input : Fragments} {pos mid stop : Position} {visits visits' : List Position}
  {s : List Symbol}

/-- Whether the positions on the way from one position to another are at brackets, each of them
behind the bracket before it. -/
inductive Brackets (input : Fragments) : Position → List Position → Position → Prop where
  | nil {pos stop : Position} (h : input.Onward pos stop) : Brackets input pos [] stop
  | cons {pos bracket stop : Position} {s : List Symbol} {later : List Position}
      (h : input.Onward pos bracket) (hs : input.ahead? bracket = some (.char '<' :: s))
      (hlater : Brackets input (bracket.advance 1) later stop) :
      Brackets input pos (bracket :: later) stop

/-- Whether the positions are such a way, or one with the stop as one more position. -/
inductive Trailing (input : Fragments) (pos : Position) : List Position → Position → Prop where
  | none {visits : List Position} {stop : Position} (h : Brackets input pos visits stop) :
      Trailing input pos visits stop
  | one {visits : List Position} {stop : Position} (h : Brackets input pos visits stop) :
      Trailing input pos (visits ++ [stop]) stop

/-- Whether the positions are such a way to some stop. -/
def Strays (input : Fragments) (pos : Position) (visits : List Position) : Prop :=
  ∃ stop, Trailing input pos visits stop

/-- A text is crossed onward. -/
theorem onward_chars {w : Text} (hs : input.ahead? pos = some (chars w ++ s)) :
    input.Onward pos (pos.advance w.byteLength) ∧
      input.ahead? (pos.advance w.byteLength) = some s := by
  have hahead : input.ahead? (pos.advance w.byteLength) = some s := Fragments.ahead?_advance hs
  refine ⟨⟨pos.le_advance _, fun _ => .inl ?_⟩, hahead⟩
  rw [← Fragments.isSome_ahead?, hahead]
  rfl

/-- A bracket is crossed onward. -/
theorem onward_bracket (hs : input.ahead? pos = some (.char '<' :: s)) :
    input.Onward pos (pos.advance 1) ∧ input.ahead? (pos.advance 1) = some s :=
  onward_chars (w := ['<']) hs

/-- The symbols ahead of a later position are an end of those ahead. -/
theorem exists_ahead?_of_onward (h : input.Onward pos stop) (hs : input.ahead? pos = some s) :
    ∃ u, input.ahead? stop = some u ∧ u <:+ s := by
  have hpos : (input.rest? pos).isSome = true := by
    rw [← Fragments.isSome_ahead?, hs]
    rfl
  have hstop : (input.rest? stop).isSome = true := by
    rcases h.2 (.inl hpos) with hstop | ⟨rfl, hempty⟩
    · exact hstop
    · simp [Fragments.rest?, Fragments.get?, hempty] at hpos
  rw [← Fragments.isSome_ahead?] at hstop
  rcases Option.isSome_iff_exists.1 hstop with ⟨u, hu⟩
  exact ⟨u, hu, Fragments.isSuffix_of_le h.1 hs hu⟩

namespace Brackets

/-- Entered brackets lie onward. -/
theorem onward (h : Brackets input pos visits stop) : input.Onward pos stop := by
  induction h with
  | nil h => exact h
  | cons h hs _ ih => exact (h.trans (onward_bracket hs).1).trans ih

/-- Input in front of entered brackets may be skipped. -/
theorem of_onward (h : input.Onward pos mid) (h' : Brackets input mid visits stop) :
    Brackets input pos visits stop := by
  cases h' with
  | nil h' => exact .nil (h.trans h')
  | cons h' hs hlater => exact .cons (h.trans h') hs hlater

/-- Entered brackets may be continued. -/
theorem append (h : Brackets input pos visits mid) (h' : Brackets input mid visits' stop) :
    Brackets input pos (visits ++ visits') stop := by
  induction h with
  | nil h => exact h'.of_onward h
  | cons h hs _ ih => exact .cons h hs (ih h')

/-- All of them lie before the stop. -/
theorem forall_lt (h : Brackets input pos visits stop) : ∀ v ∈ visits, pos ≤ v ∧ v < stop := by
  induction h with
  | nil => simp
  | @cons pos bracket stop s later h hs hlater ih =>
    have hcross := Position.lt_advance bracket Nat.one_pos
    rw [List.forall_mem_cons]
    refine ⟨⟨h.1, Position.lt_of_lt_of_le hcross hlater.onward.1⟩, ?_⟩
    intro v hv
    exact ⟨Position.le_trans h.1 (Position.le_trans (Position.le_of_lt hcross) (ih v hv).1),
      (ih v hv).2⟩

/-- Brackets are entered in strictly increasing order. -/
theorem pairwise (h : Brackets input pos visits stop) : visits.Pairwise (· < ·) := by
  induction h with
  | nil => exact .nil
  | @cons pos bracket stop s later h hs hlater ih =>
    refine .cons ?_ ih
    intro v hv
    have hcross := Position.lt_advance bracket Nat.one_pos
    exact Position.lt_of_lt_of_le hcross (hlater.forall_lt v hv).1

/-- Where the cursor does not move, there are none. -/
theorem eq_nil (h : Brackets input pos visits stop) (hstays : ¬ pos < stop) : visits = [] := by
  cases visits with
  | nil => rfl
  | cons v later =>
    have hv := h.forall_lt v List.mem_cons_self
    exact absurd (Position.lt_of_le_of_lt hv.1 hv.2) hstays

/-- Each of them uses up one bracket. -/
theorem length_add_count_le (h : Brackets input pos visits stop) (hs : input.ahead? pos = some s) :
    ∃ u, input.ahead? stop = some u ∧
      visits.length + u.count (.char '<') ≤ s.count (.char '<') := by
  induction h generalizing s with
  | nil h =>
    rcases exists_ahead?_of_onward h hs with ⟨u, hu, hsuffix⟩
    exact ⟨u, hu, by simpa using hsuffix.sublist.count_le _⟩
  | @cons pos bracket stop s' later h hs' _ ih =>
    rcases exists_ahead?_of_onward h hs with ⟨_, hbracket, hsuffix⟩
    rw [hs'] at hbracket
    cases hbracket
    rcases ih (onward_bracket hs').2 with ⟨u, hu, hle⟩
    refine ⟨u, hu, ?_⟩
    -- the symbols from the bracket on are an end of those ahead, and the first of them is one
    have hcount := hsuffix.sublist.count_le (.char '<')
    rw [List.count_cons_self] at hcount
    rw [List.length_cons]
    omega

/-- An input without fragments has no brackets. -/
theorem eq_nil_of_no_fragments (h : Brackets input pos visits stop) (hempty : input.texts = []) :
    visits = [] := by
  cases h with
  | nil => rfl
  | cons _ hs => simp [Fragments.ahead?, Fragments.rest?, Fragments.get?, hempty] at hs

/-- From the start there are no more of them than brackets in the input. -/
theorem length_le_count (h : Brackets input .start visits stop) :
    visits.length ≤ input.symbols.count (.char '<') := by
  by_cases hempty : input.texts = []
  · rw [h.eq_nil_of_no_fragments hempty]
    exact Nat.zero_le _
  · rcases h.length_add_count_le (Fragments.ahead?_start hempty) with ⟨u, -, hle⟩
    omega

end Brackets

namespace Trailing

/-- Trailing entries may follow entered brackets. -/
theorem of_brackets (h : Brackets input pos visits mid) (h' : Trailing input mid visits' stop) :
    Trailing input pos (visits ++ visits') stop := by
  cases h' with
  | none h' => exact .none (h.append h')
  | one h' =>
    rw [← List.append_assoc]
    exact .one (h.append h')

/-- A trailing entry lies onward too. -/
theorem onward (h : Trailing input pos visits stop) : input.Onward pos stop := by
  cases h with
  | none h => exact h.onward
  | one h => exact h.onward

/-- The stop of the one more is left behind where it is at a bracket as well. -/
theorem brackets (h : Trailing input pos visits mid)
    (hs : input.ahead? mid = some (.char '<' :: s)) (hmid : input.Onward (mid.advance 1) stop) :
    Brackets input pos visits stop := by
  cases h with
  | none h =>
    rw [← List.append_nil visits]
    exact h.append (.nil ((onward_bracket hs).1.trans hmid))
  | one h => exact h.append (.cons (.refl input mid) hs (.nil hmid))

end Trailing

namespace Strays

/-- Stray entries may follow entered brackets. -/
theorem of_brackets (h : Brackets input pos visits mid) (h' : Strays input mid visits') :
    Strays input pos (visits ++ visits') := by
  rcases h' with ⟨stop, h'⟩
  exact ⟨stop, h'.of_brackets h⟩

variable (input pos) in
/-- No entry at all is a case of stray ones. -/
theorem nil : Strays input pos [] := ⟨pos, .none (.nil (.refl input pos))⟩

variable (input pos) in
/-- One entry is a case of stray ones. -/
theorem single : Strays input pos [pos] := ⟨pos, .one (.nil (.refl input pos))⟩

/-- No position comes twice, and they are in order. -/
theorem pairwise (h : Strays input pos visits) : visits.Pairwise (· < ·) := by
  rcases h with ⟨stop, h | h⟩
  · exact h.pairwise
  · rw [List.pairwise_append]
    refine ⟨h.pairwise, List.pairwise_singleton _ _, ?_⟩
    intro v hv w hw
    cases List.mem_singleton.1 hw
    exact (h.forall_lt v hv).2

/-- There are no more of them than brackets in the input, and one. -/
theorem length_le (h : Strays input .start visits) :
    visits.length ≤ input.symbols.count (.char '<') + 1 := by
  rcases h with ⟨stop, h | h⟩
  · exact Nat.le_succ_of_le h.length_le_count
  · rw [List.length_append]
    exact Nat.succ_le_succ h.length_le_count

end Strays

end Brackets

/-! ## What visits leave -/

/-- Whether an attempt enters elements in order: up to its stop when it matches, as given when
it does not, and with one more position at most when it raises an error. -/
def Tidy (input : Fragments) (missed : Position → List Position → Prop) (pos : Position) :
    Ending V (Piece V) → List Position → Prop
  | .ok (some m), visits => Brackets input pos visits m.stop
  | .ok none, visits => missed pos visits
  | .error _, visits => Strays input pos visits

/-- Whether an attempt enters elements in order, and its own position at least if it does not
match. -/
abbrev Entered (input : Fragments) : Position → Ending V (Piece V) → List Position → Prop :=
  Tidy input fun pos visits => visits = [pos]

/-- Whether an attempt matches or raises an error, and enters elements in order. -/
abbrev Sure (input : Fragments) : Position → Ending V (Piece V) → List Position → Prop :=
  Tidy input fun _ _ => False

/-- Whether an attempt enters elements in order up to its stop, and there once more at most. -/
def Trails (input : Fragments) (pos : Position) : Ending V (Piece V) → List Position → Prop
  | .ok (some m), visits => Trailing input pos visits m.stop
  | .ok none, visits => Trailing input pos visits pos
  | .error _, visits => Strays input pos visits

/-- Whether an attempt enters no element and goes onward. -/
def Unseen (input : Fragments) (pos : Position) (ending : Ending V (Piece V))
    (visits : List Position) : Prop :=
  visits = [] ∧ ending.Onward input pos

/-- Whether an attempt matches only where a text is ahead, and stops behind it. -/
def Leads (input : Fragments) (w : Text) (pos : Position) (ending : Ending V (Piece V))
    (_ : List Position) : Prop :=
  ∀ m, ending = .ok (some m) → ∃ s, input.ahead? pos = some (chars w ++ s) ∧
    input.Onward (pos.advance w.byteLength) m.stop

section Endings

variable {input : Fragments} {missed missed' : Position → List Position → Prop}
  {start pos : Position} {ending : Ending V (Piece V)} {before visits : List Position}

/-- What enters no element enters them in order. -/
theorem Unseen.tidy (h : Unseen input pos ending visits) :
    Tidy input (fun _ visits => visits = []) pos ending visits := by
  rcases h with ⟨rfl, hends⟩
  rcases ending with e | _ | m
  · exact .nil input pos
  · rfl
  · exact .nil hends

/-- What is known of a miss may be weakened. -/
theorem Tidy.mono (h : Tidy input missed pos ending visits)
    (hsub : missed pos visits → missed' pos visits) : Tidy input missed' pos ending visits := by
  rcases ending with e | _ | m
  · exact h
  · exact hsub h
  · exact h

/-- However it ends, an attempt that enters elements in order leaves a way. -/
theorem Tidy.strays (h : Tidy input (Strays input) pos ending visits) :
    Strays input pos visits := by
  rcases ending with e | _ | m
  · exact h
  · exact h
  · exact ⟨m.stop, .none h⟩

/-- What enters no element and begins with a bracket, after what trails to it. -/
theorem Trailing.tidy {w : Text} (h : Trailing input start before pos)
    (hunseen : Unseen input pos ending visits) (hleads : Leads input ('<' :: w) pos ending visits) :
    Tidy input (Strays input) start ending (before ++ visits) := by
  rcases hunseen with ⟨rfl, -⟩
  rw [List.append_nil]
  rcases ending with e | _ | m
  · exact ⟨pos, h⟩
  · exact ⟨pos, h⟩
  · rcases hleads m rfl with ⟨s, hs, honward⟩
    have hrest := (onward_bracket hs).2
    have hbehind : (pos.advance 1).advance w.byteLength =
        pos.advance (Text.byteLength ('<' :: w)) :=
      congrArg (Position.mk pos.fragment) (Nat.add_assoc pos.offset 1 w.byteLength)
    rw [← hbehind] at honward
    exact h.brackets hs ((onward_chars hrest).1.trans honward)

end Endings

end SlotGrammar.Html
