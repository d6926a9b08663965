import SlotGrammar.Position
import SlotGrammar.Text.Basic

/-!
# Fragments

The static text of one input is a sequence of fragments.  Between every two
neighbouring fragments lies a slot, which stands for one interpolated value.  A
position is read against the sequence: it may have text ahead of it, sit in a
slot, or sit at the end of the input.

Positions are moved in machine words.  The words have room for every number of
a fragment of the input and for every offset into one, but a position far
beyond the input may be moved back to its start.

Main results:

- Theorem `isSlot_or_isEnd_iff`: a position sits in a slot or at the end exactly
  when its fragment has nothing left there.
- Theorem `fingerprint_inj`: a fingerprint identifies the texts of a sequence.
- Theorems `advance_eq` and `nextFragment_eq`: in the input there is room for every
  move.
-/

namespace SlotGrammar

/-- The static text of one input, cut where values are interpolated. -/
structure Fragments where
  texts : List Text
deriving DecidableEq, Inhabited

/-- The identity of a static text.  Interpolated values have no part in it. -/
structure Fingerprint where
  texts : List Text
deriving DecidableEq

/-- The failure of asking for a fragment that is not there. -/
structure IndexError where
  length : Nat
  index : Nat
deriving DecidableEq

/-- The wording of an index error. -/
def IndexError.message (e : IndexError) : String :=
  s!"index out of bounds: the len is {e.length} but the index is {e.index}"

namespace Fragments

variable (input : Fragments) (pos : Position)

/-! ## The sequence -/

/-- One text is a sequence of one fragment, without slots. -/
def ofText (text : Text) : Fragments := ⟨[text]⟩

/-- The number of fragments. -/
def length : Nat := input.texts.length

/-- Whether there are no fragments at all. -/
def isEmpty : Bool := input.texts.isEmpty

/-- The number of slots: one between every two neighbouring fragments. -/
def slotCount : Nat := input.length - 1

/-- The text of the fragment with the given number, if there is one. -/
def get? (index : Nat) : Option Text := input.texts[index]?

/-- The text of the fragment with the given number, or why there is none. -/
def get (index : Nat) : Except IndexError Text :=
  match input.get? index with
  | some text => .ok text
  | none => .error ⟨input.length, index⟩

/-- The number of bytes of all fragments together. -/
def byteLength : Nat := Text.byteLength input.texts.flatten

/-- The identity of the static text. -/
def fingerprint : Fingerprint := ⟨input.texts⟩

/-- Two sequences have the same fingerprint exactly when they are equal. -/
theorem fingerprint_inj {a b : Fragments} : a.fingerprint = b.fingerprint ↔ a = b := by
  cases a
  cases b
  simp [fingerprint]

/-! ## Reading at a position -/

/-- What is left of the fragment at a position; `none` when there is no such
fragment or no code point boundary at the offset. -/
def rest? : Option Text := (input.get? pos.fragment).bind (Text.dropBytes? pos.offset)

/-- The code point at a position, if any. -/
def charAt? : Option Char := (input.rest? pos).bind List.head?

/-- Whether the fragment at a position has nothing left there.  A fragment that
does not exist has nothing left. -/
def exhausted : Bool :=
  match input.get? pos.fragment with
  | some text => decide (text.byteLength ≤ pos.offset)
  | none => true

/-! ## Moving in machine words -/

/-- How many numbers the words of a machine hold that holds the input: 2^64, or more for an
input that has more fragments or bytes than that. -/
def words : Nat := max UInt64.size (input.byteLength + input.length + 1)

/-- What the machine keeps of a position. -/
def wrap : Position :=
  -- nearly every position fits, and then the bytes of the input need not be counted
  if pos.fragment < UInt64.size ∧ pos.offset < UInt64.size then pos else pos.wrap input.words

/-- The position so many bytes further, as the machine has it. -/
def advance (n : Nat) : Position := input.wrap (pos.advance n)

/-- The start of the following fragment, as the machine has it. -/
def nextFragment : Position := input.wrap pos.nextFragment

/-- Whether a position sits in a slot: its fragment is exhausted and another
one follows. -/
def isSlot : Bool :=
  input.exhausted pos && decide ((input.nextFragment pos).fragment < input.length)

/-- Whether a position sits at the end of the input: its fragment is exhausted
and none follows. -/
def isEnd : Bool :=
  input.exhausted pos && decide (input.length ≤ (input.nextFragment pos).fragment)

/-- All positions are kept alike, those that fit included. -/
theorem wrap_eq : input.wrap pos = pos.wrap input.words := by
  unfold wrap
  split
  · next h =>
    have hle : UInt64.size ≤ input.words := Nat.le_max_left _ _
    exact (Position.wrap_eq_self (Nat.lt_of_lt_of_le h.1 hle)
      (Nat.lt_of_lt_of_le h.2 hle)).symm
  · rfl

/-- Whether a position has room for the number of the next fragment. -/
def HasRoom : Prop := pos.fragment + 1 < input.words

instance : Decidable (input.HasRoom pos) := inferInstanceAs (Decidable (_ < _))

/-- The numbers of fragments fit in words. -/
theorem length_lt_words : input.length < input.words :=
  Nat.lt_of_lt_of_le (Nat.lt_succ_of_le (Nat.le_add_left _ _)) (Nat.le_max_right _ _)

variable {input pos}

/-- No fragment has more bytes than all of them together. -/
theorem byteLength_le {index : Nat} {text : Text} (h : input.get? index = some text) :
    text.byteLength ≤ input.byteLength := by
  have hmem : text ∈ input.texts := List.mem_of_getElem? h
  obtain ⟨before, after, hsplit⟩ := List.append_of_mem hmem
  rw [byteLength, hsplit, List.flatten_append, List.flatten_cons, Text.byteLength_append,
    Text.byteLength_append]
  omega

/-- There is room behind the number of every fragment of the input. -/
theorem hasRoom_of_lt (h : pos.fragment < input.length) : input.HasRoom pos :=
  Nat.lt_of_le_of_lt h input.length_lt_words

/-- Where there is room, the following fragment has the next number. -/
theorem nextFragment_eq (h : input.HasRoom pos) : input.nextFragment pos = pos.nextFragment := by
  rw [nextFragment, wrap_eq]
  exact Position.wrap_eq_self h (Nat.lt_of_le_of_lt (Nat.zero_le _) h)

/-- There is room for every offset into a fragment of the input. -/
theorem advance_eq {n : Nat} {text : Text} (h : input.get? pos.fragment = some text)
    (hn : pos.offset + n ≤ text.byteLength) : input.advance pos n = pos.advance n := by
  have hlt : pos.fragment < input.length := (List.getElem?_eq_some_iff.1 h).1
  have hwords : input.byteLength + input.length + 1 ≤ input.words := Nat.le_max_right _ _
  have hbytes := byteLength_le h
  rw [advance, wrap_eq]
  refine Position.wrap_eq_self (Nat.lt_trans hlt input.length_lt_words) ?_
  rw [Position.advance_offset]
  omega

/-- Where there is room, a position sits in a slot when its fragment is exhausted and is not the
last one. -/
theorem isSlot_eq (h : input.HasRoom pos) :
    input.isSlot pos = (input.exhausted pos && decide (pos.fragment + 1 < input.length)) := by
  rw [isSlot, nextFragment_eq h, Position.nextFragment_fragment]

/-- Where there is room, a position sits at the end when its fragment is exhausted and none has
the next number. -/
theorem isEnd_eq (h : input.HasRoom pos) :
    input.isEnd pos = (input.exhausted pos && decide (input.length ≤ pos.fragment + 1)) := by
  rw [isEnd, nextFragment_eq h, Position.nextFragment_fragment]

variable (input pos)

/-- A position with nothing left ahead of it in its fragment is a slot or the
end, and only such a position is. -/
theorem isSlot_or_isEnd_iff : (input.isSlot pos || input.isEnd pos) = input.exhausted pos := by
  unfold isSlot isEnd
  by_cases h : (input.nextFragment pos).fragment < input.length
  · simp [h, Nat.not_le.mpr h]
  · simp [h, Nat.not_lt.mp h]

/-- No position is both a slot and the end. -/
theorem isEnd_eq_false_of_isSlot (h : input.isSlot pos = true) : input.isEnd pos = false := by
  simp only [isSlot, isEnd, Bool.and_eq_true, decide_eq_true_eq] at *
  simp [Nat.not_le.mpr h.2]

end Fragments

end SlotGrammar
