import Mathlib.Data.List.Basic
import SlotGrammar.Proofs.Symbols

/-!
# Inputs with a slot filled in

A text in place of a slot joins the fragments on both sides of it, and every later slot gets
a number less.

Main results:

- Definitions `fillSlot` and `Fragments.joinAt`: symbols and an input with a slot filled in.
- Theorem `symbols_joinAt`: what becomes of the symbols of an input.
- Theorem `behindQuotes_symbols`: a slot behind a fragment that ends with a quote.
-/

namespace SlotGrammar

/-! ## Symbols with a slot filled in -/

/-- The number of a slot when the slot with another number is gone. -/
def lowered (i j : Nat) : Nat := if i < j then j - 1 else j

/-- What becomes of one symbol when a slot is filled in. -/
def Symbol.filled (i : Nat) (v : Text) : Symbol → List Symbol
  | .char c => [.char c]
  | .slot j => if j = i then chars v else [.slot (lowered i j)]

/-- Symbols with a slot filled in. -/
def fillSlot (i : Nat) (v : Text) (s : List Symbol) : List Symbol := s.flatMap (Symbol.filled i v)

section Symbols

variable {i j : Nat} {v : Text} {s : List Symbol}

@[simp]
theorem fillSlot_nil : fillSlot i v [] = [] := rfl

/-- A character is left as it is. -/
@[simp]
theorem fillSlot_char (c : Char) (s : List Symbol) :
    fillSlot i v (.char c :: s) = .char c :: fillSlot i v s := rfl

/-- The slot itself is replaced by the text. -/
@[simp]
theorem fillSlot_self (i : Nat) (v : Text) (s : List Symbol) :
    fillSlot i v (.slot i :: s) = chars v ++ fillSlot i v s := by
  simp [fillSlot, Symbol.filled]

/-- Another slot is kept, a later one lowered by one. -/
theorem fillSlot_slot (h : j ≠ i) (v : Text) (s : List Symbol) :
    fillSlot i v (.slot j :: s) = .slot (lowered i j) :: fillSlot i v s := by
  simp [fillSlot, Symbol.filled, h]

/-- Filling goes through what follows on each other. -/
@[simp]
theorem fillSlot_append (s u : List Symbol) :
    fillSlot i v (s ++ u) = fillSlot i v s ++ fillSlot i v u := List.flatMap_append

/-- A text is left as it is. -/
@[simp]
theorem fillSlot_chars (w : Text) : fillSlot i v (chars w) = chars w := by
  induction w with
  | nil => rfl
  | cons c w ih => simp [ih]

/-- Slots in front of the one that is filled in keep their numbers. -/
theorem fillSlot_upTo (n : Nat) (ts : List Text) (h : n + ts.length ≤ i) :
    fillSlot i v (upTo n ts) = upTo n ts := by
  induction ts generalizing n with
  | nil => rfl
  | cons t ts ih =>
    rw [List.length_cons] at h
    have hne : n ≠ i := by omega
    have hsame : lowered i n = n := if_neg (by omega)
    rw [upTo, fillSlot_append, fillSlot_chars, fillSlot_slot hne, hsame, ih (n + 1) (by omega)]

/-- Slots behind it have a number less. -/
theorem fillSlot_behind (n : Nat) (ts : List Text) (h : i ≤ n) :
    fillSlot i v (behind (n + 1) ts) = behind n ts := by
  induction ts generalizing n with
  | nil => rfl
  | cons t ts ih =>
    have hne : n + 1 ≠ i := by omega
    have hlower : lowered i (n + 1) = n := if_pos (by omega)
    rw [behind, fillSlot_slot hne, hlower, fillSlot_append, fillSlot_chars, ih (n + 1) (by omega),
      behind]

/-- Whether some symbols do not begin with a slot. -/
def NotSlot (i : Nat) (s : List Symbol) : Prop := ∀ u, s ≠ .slot i :: u

/-- What starts with a character does not start with the slot. -/
theorem notSlot_char (c : Char) (s : List Symbol) : NotSlot i (.char c :: s) := by
  intro u h
  cases h

/-- A text in front keeps the slot from being first. -/
theorem notSlot_chars {w : Text} (h : NotSlot i s) : NotSlot i (chars w ++ s) := by
  cases w with
  | nil => exact h
  | cons c w => exact notSlot_char c _

/-- What begins with another symbol stops the same classes with the slot filled in. -/
theorem Stops.fillSlot {p : Char → Bool} (h : Stops p s) (hs : NotSlot i s) (v : Text) :
    Stops p (fillSlot i v s) := by
  cases s with
  | nil => exact stops_nil p
  | cons x s =>
    cases x with
    | char c => exact stops_char (h c s rfl) _
    | slot j =>
      have hne : j ≠ i := fun heq => hs s (heq ▸ rfl)
      rw [fillSlot_slot hne]
      exact stops_slot p _ _

/-- Whether a slot stands behind quotes only, as far as it stands behind code points. -/
def BehindQuotes (i : Nat) (s : List Symbol) : Prop :=
  ∀ c u, .char c :: .slot i :: u <:+ s → c = '"'

/-- Where the slot stands behind quotation marks, it does so in every rest. -/
theorem BehindQuotes.of_append {x : List Symbol} (h : BehindQuotes i (x ++ s)) :
    BehindQuotes i s :=
  fun c u hsuffix => h c u (hsuffix.trans (List.suffix_append x s))

end Symbols

/-! ## Inputs with a slot filled in -/

/-- An input with a slot filled in: the fragments on both sides are joined. -/
def Fragments.joinAt (input : Fragments) (i : Nat) (v : Text) : Fragments :=
  ⟨input.texts.take i ++
    ((input.get? i).getD [] ++ v ++ (input.get? (i + 1)).getD []) :: input.texts.drop (i + 2)⟩

section Inputs

variable {input : Fragments} {i : Nat} {t : Text}

/-- The symbols of an input, cut at a slot. -/
theorem symbols_eq_of_slot (h : input.get? i = some t) (hi : i < input.slotCount) :
    ∃ u, input.get? (i + 1) = some u ∧ (input.texts.take i).length = i ∧
      input.symbols = (upTo 0 (input.texts.take i) ++ chars t) ++
        .slot i :: (chars u ++ behind (i + 1) (input.texts.drop (i + 2))) := by
  obtain ⟨texts⟩ := input
  have hlt : i + 1 < texts.length := by
    have hcount : i < texts.length - 1 := hi
    omega
  obtain ⟨hlt', hget⟩ := List.getElem?_eq_some_iff.1 h
  have hlength : (texts.take i).length = i := List.length_take_of_le (Nat.le_of_lt hlt')
  refine ⟨texts[i + 1], List.getElem?_eq_getElem hlt, hlength, ?_⟩
  have htexts : texts = texts.take i ++ t :: texts[i + 1] :: texts.drop (i + 2) := by
    rw [← hget, List.getElem_cons_drop, List.getElem_cons_drop, List.take_append_drop]
  have hsymbols := Fragments.symbols_append (texts.take i) t (texts[i + 1] :: texts.drop (i + 2))
  rw [← htexts, hlength, behind] at hsymbols
  rw [hsymbols, List.append_assoc]

/-- Filling a slot in joins the fragments around it. -/
theorem symbols_joinAt (h : input.get? i = some t) (hi : i < input.slotCount) (v : Text) :
    (input.joinAt i v).symbols = fillSlot i v input.symbols := by
  obtain ⟨u, hu, hlength, hsymbols⟩ := symbols_eq_of_slot h hi
  have hfront : fillSlot i v (upTo 0 (input.texts.take i)) = upTo 0 (input.texts.take i) :=
    fillSlot_upTo 0 _ (by omega)
  have hback : fillSlot i v (behind (i + 1) (input.texts.drop (i + 2))) =
      behind i (input.texts.drop (i + 2)) := fillSlot_behind i _ (Nat.le_refl i)
  rw [Fragments.joinAt, h, hu, Fragments.symbols_append, hlength, hsymbols]
  simp [hfront, hback]

/-- There is no slot in a text. -/
theorem not_mem_chars (w : Text) (i : Nat) : .slot i ∉ chars w := by
  simp [chars]

/-- The slots up to a fragment have smaller numbers. -/
theorem not_mem_upTo (n : Nat) (ts : List Text) (h : n + ts.length ≤ i) : .slot i ∉ upTo n ts := by
  induction ts generalizing n with
  | nil => simp [upTo]
  | cons t ts ih =>
    rw [List.length_cons] at h
    have hne : i ≠ n := by omega
    simp [upTo, not_mem_chars, hne, ih (n + 1) (by omega)]

/-- The slots behind a fragment have greater numbers. -/
theorem not_mem_behind (n : Nat) (ts : List Text) (h : i < n) : .slot i ∉ behind n ts := by
  induction ts generalizing n with
  | nil => simp [behind]
  | cons t ts ih =>
    have hne : i ≠ n := by omega
    simp [behind, not_mem_chars, hne, ih (n + 1) (by omega)]

/-- A slot behind a fragment that ends with a quote stands behind quotes only. -/
theorem behindQuotes_symbols (h : input.get? i = some (t ++ ['"'])) (hi : i < input.slotCount) :
    BehindQuotes i input.symbols := by
  intro c y hsuffix
  obtain ⟨x, hx⟩ := hsuffix
  obtain ⟨u, -, hlength, hsymbols⟩ := symbols_eq_of_slot h hi
  have hfront : .slot i ∉ upTo 0 (input.texts.take i) ++ chars (t ++ ['"']) := by
    rw [List.mem_append, not_or]
    exact ⟨not_mem_upTo 0 _ (by omega), not_mem_chars _ i⟩
  have hback : .slot i ∉ chars u ++ behind (i + 1) (input.texts.drop (i + 2)) := by
    rw [List.mem_append, not_or]
    exact ⟨not_mem_chars u i, not_mem_behind (i + 1) _ (Nat.lt_succ_self i)⟩
  have hcut : (x ++ [.char c]) ++ .slot i :: y =
      (upTo 0 (input.texts.take i) ++ chars (t ++ ['"'])) ++
        .slot i :: (chars u ++ behind (i + 1) (input.texts.drop (i + 2))) := by
    rw [← hsymbols, ← hx, List.append_assoc]
    rfl
  have hsame := ((List.append_cons_inj_of_notMem hfront hback).1 hcut.symm).1
  rw [chars_append, ← List.append_assoc] at hsame
  have hlast := List.append_inj_right' hsame rfl
  simpa using hlast.symm

end Inputs

end SlotGrammar
