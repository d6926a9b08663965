import Mathlib.Data.List.Basic
import SlotGrammar.Recognizer

/-!
# Inputs as symbols

An input read from its start is a sequence of symbols: the code points of its fragments,
with one slot between every two neighbouring fragments.  What lies ahead of a position is
an end of this sequence.

Main results:

- Theorems `ahead?_advance` and `ahead?_slot`: what lies ahead after a move.
- Theorem `isSuffix_of_le`: later positions have less ahead.
- Theorem `length_symbols_le`: there are no more symbols than bytes and fragments.
- Theorem `symbols_append`: the symbols of an input, seen from one of its fragments.
- Theorem `symbols_cut`: symbols are cut into fragments at their slots.
-/

namespace SlotGrammar

/-- One unit of an input. -/
inductive Symbol where
  /-- A code point of a fragment. -/
  | char (c : Char)
  /-- A slot, with its number. -/
  | slot (index : Nat)
deriving DecidableEq

/-! ## Runs of code points -/

/-- The symbols of a text. -/
def chars (t : Text) : List Symbol := t.map .char

@[simp]
theorem chars_nil : chars [] = [] := rfl

@[simp]
theorem chars_cons (c : Char) (t : Text) : chars (c :: t) = .char c :: chars t := rfl

/-- The code points of two texts come one after the other. -/
@[simp]
theorem chars_append (t u : Text) : chars (t ++ u) = chars t ++ chars u := List.map_append

/-- A text has as many symbols as code points. -/
@[simp]
theorem length_chars (t : Text) : (chars t).length = t.length := List.length_map _

/-- The code points up to the first slot. -/
def lead : List Symbol → Text
  | .char c :: s => c :: lead s
  | _ => []

/-- Whether the next symbol is not a code point of a class. -/
def Stops (p : Char → Bool) (s : List Symbol) : Prop := ∀ c r, s = .char c :: r → p c = false

/-- A run stops at the end. -/
theorem stops_nil (p : Char → Bool) : Stops p [] := by
  intro c r h
  cases h

/-- A run stops at a slot. -/
theorem stops_slot (p : Char → Bool) (i : Nat) (s : List Symbol) : Stops p (.slot i :: s) := by
  intro c r h
  cases h

/-- A run stops at a code point that does not belong to it. -/
theorem stops_char {p : Char → Bool} {c : Char} (h : p c = false) (s : List Symbol) :
    Stops p (.char c :: s) := by
  intro d r heq
  cases heq
  exact h

/-- The next symbol is a given code point, or it is not. -/
theorem next_or_stops (c : Char) (s : List Symbol) :
    (∃ u, s = .char c :: u) ∨ Stops (· == c) s := by
  cases s with
  | nil => exact .inr (stops_nil _)
  | cons x s =>
    cases x with
    | slot i => exact .inr (stops_slot _ i s)
    | char d =>
      rcases Decidable.em (d = c) with rfl | hd
      · exact .inl ⟨s, rfl⟩
      · exact .inr (stops_char (p := (· == c)) (beq_eq_false_iff_ne.2 hd) s)

/-- The next symbol is a slot, or it is not. -/
theorem slot_or_not (s : List Symbol) : (∃ i u, s = .slot i :: u) ∨ ∀ i u, s ≠ .slot i :: u := by
  by_cases h : ∃ i u, s = .slot i :: u
  · exact .inl h
  · exact .inr fun i u heq => h ⟨i, u, heq⟩

/-- What begins with no slot, not with a code point and with none but it is empty. -/
theorem eq_nil_of_stops {c : Char} {s : List Symbol} (hslot : ∀ i u, s ≠ .slot i :: u)
    (h : Stops (· == c) s) (h' : Stops (· != c) s) : s = [] := by
  cases s with
  | nil => rfl
  | cons x s =>
    cases x with
    | slot i => exact absurd rfl (hslot i s)
    | char d =>
      have hd : (d == c) = false := h d s rfl
      have hd' : (d != c) = false := h' d s rfl
      rw [bne, hd] at hd'
      cases hd'

/-- The text ahead of some code points begins with them. -/
@[simp]
theorem lead_chars_append (t : Text) (s : List Symbol) : lead (chars t ++ s) = t ++ lead s := by
  induction t with
  | nil => rfl
  | cons c t ih => exact congrArg (c :: ·) ih

/-- Every sequence begins with its longest run of code points of a class. -/
theorem exists_run (p : Char → Bool) (s : List Symbol) :
    ∃ w r, s = chars w ++ r ∧ (∀ c ∈ w, p c = true) ∧ Stops p r := by
  induction s with
  | nil => exact ⟨[], [], rfl, by simp, stops_nil p⟩
  | cons x s ih =>
    cases x with
    | slot i => exact ⟨[], _, rfl, by simp, stops_slot p i s⟩
    | char c =>
      cases hc : p c with
      | false => exact ⟨[], _, rfl, by simp, stops_char hc s⟩
      | true =>
        obtain ⟨w, r, rfl, hw, hr⟩ := ih
        refine ⟨c :: w, r, rfl, ?_, hr⟩
        intro d hd
        rcases List.mem_cons.1 hd with rfl | hd
        · exact hc
        · exact hw d hd

/-- What the leading text begins with, the sequence begins with. -/
theorem exists_eq_of_lead {t u : Text} {s : List Symbol} (h : lead s = t ++ u) :
    ∃ r, s = chars t ++ r := by
  induction t generalizing s with
  | nil => exact ⟨s, rfl⟩
  | cons c t ih =>
    cases s with
    | nil => cases h
    | cons x s =>
      cases x with
      | slot i => cases h
      | char d =>
        obtain ⟨hd, hrest⟩ := List.cons.inj h
        obtain ⟨r, rfl⟩ := ih hrest
        exact ⟨r, by rw [hd]; rfl⟩

/-- The longest run of code points of a class at the start of a text. -/
theorem takeWhile_lead {p : Char → Bool} {w : Text} {s : List Symbol} (hw : ∀ c ∈ w, p c = true)
    (hs : Stops p s) : (w ++ lead s).takeWhile p = w := by
  rw [List.takeWhile_append_of_pos hw]
  have hnone : (lead s).takeWhile p = [] := by
    cases s with
    | nil => rfl
    | cons x s =>
      cases x with
      | slot i => rfl
      | char c =>
        rw [lead, List.takeWhile_cons_of_neg]
        rw [hs c s rfl]
        exact Bool.false_ne_true
  rw [hnone, List.append_nil]

/-- A sequence begins with one longest run only. -/
theorem run_unique {p : Char → Bool} {w w' : Text} {s s' : List Symbol}
    (h : chars w ++ s = chars w' ++ s') (hw : ∀ c ∈ w, p c = true) (hw' : ∀ c ∈ w', p c = true)
    (hs : Stops p s) (hs' : Stops p s') : w = w' ∧ s = s' := by
  have hlead := congrArg lead h
  rw [lead_chars_append, lead_chars_append] at hlead
  have hrun : w = w' := by rw [← takeWhile_lead hw hs, hlead, takeWhile_lead hw' hs']
  subst hrun
  exact ⟨rfl, List.append_cancel_left h⟩

/-- Between two cuts of a text lies what the later one has more in front of it and less
behind it. -/
theorem Text.exists_between {before after before' after' : Text}
    (h : before ++ after = before' ++ after') (hle : before.byteLength ≤ before'.byteLength) :
    ∃ d, before' = before ++ d ∧ after = d ++ after' := by
  rcases List.append_eq_append_iff.1 h with ⟨d, hbefore, hafter⟩ | ⟨d, rfl, hafter⟩
  · exact ⟨d, hbefore, hafter⟩
  · have hzero : Text.byteLength d = 0 := by
      rw [Text.byteLength_append] at hle
      omega
    rw [(Text.byteLength_eq_zero_iff d).1 hzero] at hafter ⊢
    exact ⟨[], by simp, hafter.symm⟩

/-! ## The symbols of an input -/

/-- The symbols behind a fragment, given its number and the texts of the later ones. -/
def behind : Nat → List Text → List Symbol
  | _, [] => []
  | n, t :: ts => .slot n :: (chars t ++ behind (n + 1) ts)

/-- No text is ahead of what lies behind a fragment. -/
@[simp]
theorem lead_behind (n : Nat) (ts : List Text) : lead (behind n ts) = [] := by
  cases ts <;> rfl

/-- What lies behind a later fragment lies behind an earlier one. -/
theorem isSuffix_behind {n k : Nat} {t : Text} {ts : List Text} (h : ts[k]? = some t) :
    chars t ++ behind (n + k + 1) (ts.drop (k + 1)) <:+ behind n ts := by
  induction ts generalizing n k with
  | nil => cases h
  | cons u ts ih =>
    cases k with
    | zero =>
      cases h
      exact List.suffix_cons _ _
    | succ k =>
      have hsuffix := ih h (n := n + 1)
      rw [show n + 1 + k + 1 = n + (k + 1) + 1 by omega] at hsuffix
      exact (hsuffix.trans (List.suffix_append _ _)).trans (List.suffix_cons _ _)

/-- The symbols of some fragments and the slots behind each of them, given the number of the
first fragment. -/
def upTo : Nat → List Text → List Symbol
  | _, [] => []
  | n, t :: ts => chars t ++ .slot n :: upTo (n + 1) ts

/-- What lies behind a fragment is cut at every later fragment. -/
theorem behind_append (n : Nat) (ts : List Text) (t : Text) (us : List Text) :
    behind n (ts ++ t :: us) =
      .slot n :: (upTo (n + 1) ts ++ (chars t ++ behind (n + ts.length + 1) us)) := by
  induction ts generalizing n with
  | nil => rfl
  | cons u ts ih =>
    rw [List.cons_append, behind, ih, upTo, List.length_cons,
      show n + 1 + ts.length + 1 = n + (ts.length + 1) + 1 by omega]
    simp

namespace Fragments

variable (input : Fragments)

/-- The symbols of an input. -/
def symbols : List Symbol :=
  match input.texts with
  | [] => []
  | t :: ts => chars t ++ behind 0 ts

/-- The symbols of an input are cut at every fragment. -/
theorem symbols_append (ts : List Text) (t : Text) (us : List Text) :
    symbols ⟨ts ++ t :: us⟩ = upTo 0 ts ++ (chars t ++ behind ts.length us) := by
  cases ts with
  | nil => rfl
  | cons u ts =>
    have hsymbols : symbols ⟨u :: ts ++ t :: us⟩ = chars u ++ behind 0 (ts ++ t :: us) := rfl
    rw [hsymbols, behind_append, upTo, List.length_cons, Nat.zero_add, Nat.zero_add]
    simp

/-- The symbols ahead of a position, if there is one. -/
def ahead? (pos : Position) : Option (List Symbol) :=
  (input.rest? pos).map fun t =>
    chars t ++ behind pos.fragment (input.texts.drop (pos.fragment + 1))

variable {input} {pos pos' : Position} {s s' : List Symbol}

/-- What is ahead of a position is the rest of its fragment and all that lies behind. -/
theorem ahead?_eq_some_iff :
    input.ahead? pos = some s ↔ ∃ before after, input.get? pos.fragment = some (before ++ after) ∧
      before.byteLength = pos.offset ∧
      s = chars after ++ behind pos.fragment (input.texts.drop (pos.fragment + 1)) := by
  unfold ahead? rest?
  rw [Option.map_eq_some_iff]
  constructor
  · rintro ⟨after, hafter, rfl⟩
    obtain ⟨text, htext, hdrop⟩ := Option.bind_eq_some_iff.1 hafter
    obtain ⟨before, rfl, hoffset⟩ := Text.dropBytes?_eq_some_iff.1 hdrop
    exact ⟨before, after, htext, hoffset, rfl⟩
  · rintro ⟨before, after, htext, hoffset, rfl⟩
    refine ⟨after, ?_, rfl⟩
    rw [htext]
    exact Text.dropBytes?_eq_some_iff.2 ⟨before, rfl, hoffset⟩

/-- All symbols lie ahead of the start. -/
theorem ahead?_start (h : input.texts ≠ []) : input.ahead? .start = some input.symbols := by
  obtain ⟨texts⟩ := input
  cases texts with
  | nil => exact absurd rfl h
  | cons t ts => exact ahead?_eq_some_iff.2 ⟨[], t, rfl, rfl, rfl⟩

/-- What lies ahead is an end of the symbols, and the rest of them are those of the fragments
up to the position. -/
theorem exists_symbols_eq (h : input.ahead? pos = some s) :
    ∃ before after x, input.get? pos.fragment = some (before ++ after) ∧
      before.byteLength = pos.offset ∧ input.symbols = x ++ s ∧
      ∀ t, symbols ⟨input.texts.take pos.fragment ++ [before ++ t]⟩ = x ++ chars t := by
  obtain ⟨before, after, htext, hoffset, rfl⟩ := ahead?_eq_some_iff.1 h
  obtain ⟨hlt, hget⟩ := List.getElem?_eq_some_iff.1 htext
  have hlength : (input.texts.take pos.fragment).length = pos.fragment :=
    List.length_take_of_le (Nat.le_of_lt hlt)
  have hcut : input.texts = input.texts.take pos.fragment ++
      (before ++ after) :: input.texts.drop (pos.fragment + 1) := by
    rw [← hget, List.getElem_cons_drop, List.take_append_drop]
  have hsymbols := symbols_append (input.texts.take pos.fragment) (before ++ after)
    (input.texts.drop (pos.fragment + 1))
  rw [← hcut, hlength] at hsymbols
  refine ⟨before, after, upTo 0 (input.texts.take pos.fragment) ++ chars before, htext, hoffset,
    ?_, fun t => ?_⟩
  · rw [hsymbols, chars_append, List.append_assoc, List.append_assoc]
  · rw [symbols_append, behind, chars_append, List.append_nil, List.append_assoc]

/-- What is left of the fragment is what lies ahead up to the first slot. -/
theorem rest?_of_ahead? (h : input.ahead? pos = some s) : input.rest? pos = some (lead s) := by
  obtain ⟨t, ht, rfl⟩ := Option.map_eq_some_iff.1 h
  rw [ht, lead_chars_append, lead_behind, List.append_nil]

/-- Past a text ahead lies what follows it. -/
theorem ahead?_advance {t : Text} (h : input.ahead? pos = some (chars t ++ s)) :
    input.ahead? (pos.advance t.byteLength) = some s := by
  obtain ⟨before, after, htext, hoffset, hs⟩ := ahead?_eq_some_iff.1 h
  have hlead := congrArg lead hs
  rw [lead_chars_append, lead_chars_append, lead_behind, List.append_nil] at hlead
  subst hlead
  rw [chars_append, List.append_assoc, List.append_cancel_left_eq] at hs
  refine ahead?_eq_some_iff.2 ⟨before ++ t, lead s, ?_, ?_, hs⟩
  · rw [List.append_assoc]
    exact htext
  · rw [Text.byteLength_append, hoffset, Position.advance_offset]

/-- Nothing is left of the fragment when no code point lies ahead. -/
theorem exhausted_iff (h : input.ahead? pos = some s) :
    input.exhausted pos = true ↔ lead s = [] := by
  obtain ⟨before, after, htext, hoffset, rfl⟩ := ahead?_eq_some_iff.1 h
  rw [lead_chars_append, lead_behind, List.append_nil]
  unfold exhausted
  rw [htext]
  simp only [Text.byteLength_append, decide_eq_true_eq, ← Text.byteLength_eq_zero_iff after]
  omega

/-- Where symbols lie ahead there is room for the number of the next fragment. -/
theorem hasRoom_of_ahead? (h : input.ahead? pos = some s) : input.HasRoom pos := by
  obtain ⟨before, after, htext, -⟩ := ahead?_eq_some_iff.1 h
  exact hasRoom_of_lt (List.getElem?_eq_some_iff.1 htext).1

/-- There is room for the offset behind a text ahead. -/
theorem advance_of_ahead? {t : Text} (h : input.ahead? pos = some (chars t ++ s)) :
    input.advance pos t.byteLength = pos.advance t.byteLength := by
  obtain ⟨before, after, htext, hoffset, hs⟩ := ahead?_eq_some_iff.1 h
  have hlead := congrArg lead hs
  rw [lead_chars_append, lead_chars_append, lead_behind, List.append_nil] at hlead
  subst hlead
  refine advance_eq htext ?_
  simp only [Text.byteLength_append]
  omega

/-- A slot ahead has the number of the fragment, and past it lies what follows it. -/
theorem ahead?_slot {i : Nat} (h : input.ahead? pos = some (.slot i :: s)) :
    i = pos.fragment ∧ input.isSlot pos = true ∧ input.ahead? pos.nextFragment = some s := by
  have hexhausted := (exhausted_iff h).2 rfl
  obtain ⟨before, after, htext, hoffset, hs⟩ := ahead?_eq_some_iff.1 h
  cases after with
  | cons c after => cases hs
  | nil =>
    cases hlater : input.texts.drop (pos.fragment + 1) with
    | nil =>
      rw [hlater] at hs
      cases hs
    | cons t ts =>
      rw [hlater] at hs
      cases hs
      have hnext : input.texts[pos.fragment + 1]? = some t := by
        rw [← List.head?_drop, hlater]
        rfl
      have hlt : pos.fragment + 1 < input.length := (List.getElem?_eq_some_iff.1 hnext).1
      refine ⟨rfl, ?_, ?_⟩
      · rw [isSlot_eq (hasRoom_of_ahead? h), hexhausted, Bool.true_and]
        exact decide_eq_true hlt
      · refine ahead?_eq_some_iff.2 ⟨[], t, hnext, rfl, ?_⟩
        have htail : input.texts.drop (pos.fragment + 1 + 1) = ts := by
          rw [← List.drop_drop, hlater]
          rfl
        rw [Position.nextFragment_fragment, htail]

/-- A position sits in a slot only when a slot lies ahead. -/
theorem isSlot_eq_false (h : input.ahead? pos = some s) (hs : ∀ i r, s ≠ .slot i :: r) :
    input.isSlot pos = false := by
  rw [isSlot_eq (hasRoom_of_ahead? h), Bool.and_eq_false_iff]
  cases s with
  | nil =>
    right
    obtain ⟨before, after, htext, hoffset, hnil⟩ := ahead?_eq_some_iff.1 h
    have hlater : input.texts.drop (pos.fragment + 1) = [] := by
      cases hts : input.texts.drop (pos.fragment + 1) with
      | nil => rfl
      | cons t ts =>
        rw [hts] at hnil
        cases List.append_eq_nil_iff.1 hnil.symm with
        | intro _ h => cases h
    rw [decide_eq_false_iff_not, Nat.not_lt]
    exact List.drop_eq_nil_iff.1 hlater
  | cons x s =>
    cases x with
    | slot i => exact absurd rfl (hs i s)
    | char c =>
      left
      rw [Bool.eq_false_iff]
      intro hexhausted
      cases (exhausted_iff h).1 hexhausted

/-- A position sits at the end exactly when nothing lies ahead. -/
theorem isEnd_iff (h : input.ahead? pos = some s) : input.isEnd pos = true ↔ s = [] := by
  constructor
  · intro hend
    have hexhausted : input.exhausted pos = true := by
      rw [isEnd, Bool.and_eq_true] at hend
      exact hend.1
    cases s with
    | nil => rfl
    | cons x s =>
      cases x with
      | char c => cases (exhausted_iff h).1 hexhausted
      | slot i =>
        have := input.isEnd_eq_false_of_isSlot pos (ahead?_slot h).2.1
        rw [hend] at this
        cases this
  · rintro rfl
    have hexhausted := (exhausted_iff h).2 rfl
    have hnone := isSlot_eq_false h fun i r heq => by cases heq
    have hor := input.isSlot_or_isEnd_iff pos
    rw [hnone, hexhausted, Bool.false_or] at hor
    exact hor

/-- Where nothing lies ahead, the fragment is the last one. -/
theorem fragment_of_ahead?_nil (h : input.ahead? pos = some []) :
    pos.fragment = input.slotCount := by
  have hend := (isEnd_iff h).2 rfl
  rw [isEnd_eq (hasRoom_of_ahead? h), Bool.and_eq_true, decide_eq_true_eq] at hend
  obtain ⟨before, after, htext, -⟩ := ahead?_eq_some_iff.1 h
  have hlt : pos.fragment < input.length := (List.getElem?_eq_some_iff.1 htext).1
  rw [slotCount]
  omega

/-! ## Order and length -/

/-- Later positions have less ahead. -/
theorem isSuffix_of_le (hle : pos ≤ pos') (h : input.ahead? pos = some s)
    (h' : input.ahead? pos' = some s') : s' <:+ s := by
  obtain ⟨before, after, htext, hoffset, rfl⟩ := ahead?_eq_some_iff.1 h
  obtain ⟨before', after', htext', hoffset', rfl⟩ := ahead?_eq_some_iff.1 h'
  rcases Position.le_iff.1 hle with hlt | ⟨heq, hle⟩
  · obtain ⟨k, hk⟩ : ∃ k, pos'.fragment = pos.fragment + 1 + k :=
      ⟨pos'.fragment - (pos.fragment + 1), by omega⟩
    have hlater : (input.texts.drop (pos.fragment + 1))[k]? = some (before' ++ after') := by
      rw [List.getElem?_drop, ← hk]
      exact htext'
    have hbehind : chars (before' ++ after') ++
        behind pos'.fragment (input.texts.drop (pos'.fragment + 1)) <:+
          behind pos.fragment (input.texts.drop (pos.fragment + 1)) := by
      have hsuffix : _ <:+ behind pos.fragment _ := isSuffix_behind hlater
      rw [List.drop_drop] at hsuffix
      rw [show pos'.fragment = pos.fragment + k + 1 by omega]
      rw [show pos.fragment + 1 + (k + 1) = pos.fragment + k + 1 + 1 by omega] at hsuffix
      exact hsuffix
    rw [chars_append, List.append_assoc] at hbehind
    exact ((List.suffix_append _ _).trans hbehind).trans (List.suffix_append _ _)
  · rw [heq, htext'] at htext
    rw [heq]
    rcases Text.exists_between (Option.some.inj htext).symm (by omega) with ⟨d, -, rfl⟩
    rw [chars_append, List.append_assoc]
    exact List.suffix_append _ _

/-- A position with less ahead is a later one. -/
theorem lt_of_length_lt (h : input.ahead? pos = some s) (h' : input.ahead? pos' = some s')
    (hlt : s'.length < s.length) : pos < pos' := by
  by_contra hnot
  have hsuffix := isSuffix_of_le (Position.not_lt.1 hnot) h' h
  exact absurd hsuffix.length_le (Nat.not_le.2 hlt)

/-- A text has no more code points than bytes. -/
theorem length_le_byteLength (t : Text) : t.length ≤ t.byteLength := by
  induction t with
  | nil => exact Nat.le_refl _
  | cons c t ih =>
    have := c.utf8Size_pos
    rw [Text.byteLength_cons, List.length_cons]
    omega

/-- There are no more symbols than bytes and fragments. -/
theorem length_symbols_le (input : Fragments) :
    input.symbols.length ≤ input.byteLength + input.length := by
  have hbehind : ∀ n (ts : List Text),
      (behind n ts).length ≤ Text.byteLength ts.flatten + ts.length := by
    intro n ts
    induction ts generalizing n with
    | nil => exact Nat.le_refl _
    | cons t ts ih =>
      have := ih (n + 1)
      have := length_le_byteLength t
      simp only [behind, List.length_cons, List.length_append, length_chars, List.flatten_cons,
        Text.byteLength_append]
      omega
  obtain ⟨texts⟩ := input
  cases texts with
  | nil => exact Nat.le_refl _
  | cons t ts =>
    have := hbehind 0 ts
    have := length_le_byteLength t
    simp only [symbols, byteLength, length, List.length_append, length_chars, List.flatten_cons,
      Text.byteLength_append, List.length_cons]
    omega

end Fragments

/-! ## Cutting symbols into fragments -/

/-- The texts between the slots of some symbols. -/
def cut : List Symbol → List Text
  | [] => [[]]
  | .slot _ :: s => [] :: cut s
  | .char c :: s =>
    match cut s with
    | [] => [[c]]
    | t :: ts => (c :: t) :: ts

/-- The slots of some symbols. -/
def slotIndices (s : List Symbol) : List Nat :=
  s.filterMap fun x =>
    match x with
    | .char _ => none
    | .slot i => some i

@[simp]
theorem slotIndices_nil : slotIndices [] = [] := rfl

@[simp]
theorem slotIndices_char (c : Char) (s : List Symbol) :
    slotIndices (.char c :: s) = slotIndices s := rfl

@[simp]
theorem slotIndices_slot (i : Nat) (s : List Symbol) :
    slotIndices (.slot i :: s) = i :: slotIndices s := rfl

/-- The slots of two lists of symbols come one after the other. -/
@[simp]
theorem slotIndices_append (s u : List Symbol) :
    slotIndices (s ++ u) = slotIndices s ++ slotIndices u := List.filterMap_append

/-- A text has no slots. -/
@[simp]
theorem slotIndices_chars (w : Text) : slotIndices (chars w) = [] := by
  induction w with
  | nil => rfl
  | cons c w ih => exact ih

/-- Symbols are cut at a slot. -/
theorem cut_chars_slot (t : Text) (i : Nat) (s : List Symbol) :
    cut (chars t ++ .slot i :: s) = t :: cut s := by
  induction t with
  | nil => rfl
  | cons c t ih =>
    rw [chars_cons, List.cons_append, cut, ih]

/-- Symbols whose slots are numbered in order are those of the texts that they are cut into. -/
theorem cut_spec {s : List Symbol} {n k : Nat} (h : slotIndices s = List.range' n k) :
    ∃ t ts, cut s = t :: ts ∧ chars t ++ behind n ts = s := by
  induction s generalizing n k with
  | nil => exact ⟨[], [], rfl, rfl⟩
  | cons x s ih =>
    cases x with
    | char c =>
      obtain ⟨t, ts, hcut, rfl⟩ := ih h
      exact ⟨c :: t, ts, by rw [cut, hcut], rfl⟩
    | slot i =>
      cases k with
      | zero => cases h
      | succ k =>
        obtain ⟨rfl, hrest⟩ := List.cons.inj h
        obtain ⟨t, ts, hcut, rfl⟩ := ih hrest
        exact ⟨[], t :: ts, by rw [cut, hcut], rfl⟩

/-- Symbols with their slots in order are those of the fragments between the slots. -/
theorem symbols_cut {s : List Symbol} {k : Nat} (h : slotIndices s = List.range k) :
    (Fragments.mk (cut s)).symbols = s := by
  rw [List.range_eq_range'] at h
  obtain ⟨t, ts, hcut, hs⟩ := cut_spec h
  rw [hcut]
  exact hs

end SlotGrammar
