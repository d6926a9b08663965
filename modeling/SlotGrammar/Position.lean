/-!
# Positions

A position is a cursor over a sequence of fragments: the number of a fragment
and a byte offset into it.  Positions are ordered by fragment first and offset
second, the order in which a parse visits the input.

The moves of a position add to its numbers.  A machine word that has no room
for a sum keeps what is left of it modulo the number of words, so a move there
can go backwards.  The moves are given without bounds first, and `wrap` is what
the words of a machine make of them.

Main results:

- Theorem `lt_iff`: the order is lexicographic.
- Theorems `compare_eq_lt_iff` and `compare_eq_eq_iff`: comparing agrees with the
  order and with equality.
- Theorems `le_advance` and `lt_nextFragment`: a move that has room for its sum does
  not go backwards.
- Theorem `wrap_eq_self`: where there is room, nothing wraps around.
-/

namespace SlotGrammar

/-- A cursor: the number of a fragment and a byte offset into it. -/
structure Position where
  fragment : Nat
  offset : Nat
deriving DecidableEq, Inhabited

namespace Position

/-! ## Moves -/

/-- The position every parse starts from. -/
def start : Position := ⟨0, 0⟩

/-- The position `n` bytes further into the same fragment, with room for the sum. -/
def advance (p : Position) (n : Nat) : Position := ⟨p.fragment, p.offset + n⟩

/-- The start of the following fragment, just past the slot between the two, with room for
its number. -/
def nextFragment (p : Position) : Position := ⟨p.fragment + 1, 0⟩

/-- What a machine keeps of a position when its words hold so many numbers. -/
def wrap (p : Position) (words : Nat) : Position := ⟨p.fragment % words, p.offset % words⟩

@[simp]
theorem advance_fragment (p : Position) (n : Nat) : (p.advance n).fragment = p.fragment := rfl

@[simp]
theorem advance_offset (p : Position) (n : Nat) : (p.advance n).offset = p.offset + n := rfl

/-- No bytes read leave a position where it is. -/
@[simp]
theorem advance_zero (p : Position) : p.advance 0 = p := rfl

@[simp]
theorem nextFragment_fragment (p : Position) : p.nextFragment.fragment = p.fragment + 1 := rfl

@[simp]
theorem nextFragment_offset (p : Position) : p.nextFragment.offset = 0 := rfl

/-- A position whose numbers fit in words is kept as it is. -/
theorem wrap_eq_self {p : Position} {words : Nat} (hfragment : p.fragment < words)
    (hoffset : p.offset < words) : p.wrap words = p := by
  rw [wrap, Nat.mod_eq_of_lt hfragment, Nat.mod_eq_of_lt hoffset]

/-! ## Order -/

instance : LT Position where
  lt p q := p.fragment < q.fragment ∨ (p.fragment = q.fragment ∧ p.offset < q.offset)

instance : LE Position where
  le p q := p.fragment < q.fragment ∨ (p.fragment = q.fragment ∧ p.offset ≤ q.offset)

/-- The order compares fragments first and offsets second. -/
theorem lt_iff {p q : Position} :
    p < q ↔ p.fragment < q.fragment ∨ (p.fragment = q.fragment ∧ p.offset < q.offset) :=
  Iff.rfl

/-- The same for positions that may be equal. -/
theorem le_iff {p q : Position} :
    p ≤ q ↔ p.fragment < q.fragment ∨ (p.fragment = q.fragment ∧ p.offset ≤ q.offset) :=
  Iff.rfl

instance (p q : Position) : Decidable (p < q) := decidable_of_iff _ lt_iff.symm

instance (p q : Position) : Decidable (p ≤ q) := decidable_of_iff _ le_iff.symm

/-- Compares two positions in the order in which a parse visits them. -/
def compare (p q : Position) : Ordering :=
  if p < q then .lt else if p = q then .eq else .gt

/-- The later of two positions. -/
def later (p q : Position) : Position := if p ≤ q then q else p

/-- No position is behind itself. -/
theorem le_refl (p : Position) : p ≤ p := Or.inr ⟨rfl, Nat.le_refl _⟩

/-- The order of positions is transitive. -/
theorem le_trans {p q r : Position} (hpq : p ≤ q) (hqr : q ≤ r) : p ≤ r := by
  rw [le_iff] at *
  omega

/-- A position before another is before all that are not behind that one. -/
theorem lt_of_lt_of_le {p q r : Position} (hpq : p < q) (hqr : q ≤ r) : p < r := by
  rw [lt_iff, le_iff] at *
  omega

/-- A position not behind another is before all that this one is before. -/
theorem lt_of_le_of_lt {p q r : Position} (hpq : p ≤ q) (hqr : q < r) : p < r := by
  rw [lt_iff, le_iff] at *
  omega

/-- An earlier position is not behind a later one. -/
theorem le_of_lt {p q : Position} (h : p < q) : p ≤ q := by
  rw [lt_iff, le_iff] at *
  omega

/-- The order of positions is total. -/
theorem not_lt {p q : Position} : ¬ p < q ↔ q ≤ p := by
  rw [lt_iff, le_iff]
  omega

/-- No position is before itself. -/
theorem lt_irrefl (p : Position) : ¬ p < p := by
  rw [lt_iff]
  omega

/-- Comparing says less exactly for positions in order. -/
theorem compare_eq_lt_iff {p q : Position} : p.compare q = .lt ↔ p < q := by
  unfold compare
  split
  · next h => simp [h]
  · next h => split <;> simp [h]

/-- Comparing says equal exactly for equal positions. -/
theorem compare_eq_eq_iff {p q : Position} : p.compare q = .eq ↔ p = q := by
  unfold compare
  split
  · next h =>
    constructor
    · intro he
      cases he
    · rintro rfl
      exact absurd h (lt_irrefl p)
  · next h => split <;> simp_all

/-- Advancing does not go backwards. -/
theorem le_advance (p : Position) (n : Nat) : p ≤ p.advance n := by
  rw [le_iff]
  simp

/-- Advancing by some bytes moves forward. -/
theorem lt_advance (p : Position) {n : Nat} (h : 0 < n) : p < p.advance n :=
  lt_iff.2 (.inr ⟨rfl, Nat.lt_add_of_pos_right h⟩)

/-- The start of the next fragment lies beyond every offset of this one. -/
theorem lt_nextFragment (p : Position) : p < p.nextFragment := by
  rw [lt_iff]
  simp

/-! ## Text form -/

/-- The text form of a position: fragment and offset with a colon between. -/
instance : ToString Position where
  toString p := s!"{p.fragment}:{p.offset}"

end Position

end SlotGrammar
