import SlotGrammar.ParseError

/-!
# Parse trees

A recognizer that matches yields a tree of what it matched and the position
where it stopped.  Trees hold interpolated values, which no recognizer looks
into, and results that transforms made.

Main results:

- Theorem `same_iff`: comparing two trees says whether they are equal.
-/

namespace SlotGrammar

/-- What was matched.  `V` is the type of the interpolated values and `α` the
type of the results that transforms make. -/
inductive Tree (V α : Type) where
  /-- Matched text. -/
  | text (t : Text)
  /-- The number of a slot, or of the last fragment at the end of the input. -/
  | index (i : Nat)
  /-- The match of the empty recognizer. -/
  | unit
  /-- The matches of a sequence or of a repetition. -/
  | list (items : List (Tree V α))
  /-- An optional part that was not there. -/
  | absent
  /-- An optional part that was there. -/
  | present (inner : Tree V α)
  /-- An interpolated value. -/
  | value (v : V)
  /-- A result made by a transform. -/
  | made (a : α)

namespace Tree

variable {V α : Type}

/-- The member of a list with the given number; any other tree stays as it is. -/
def nth (i : Nat) : Tree V α → Tree V α
  | list items => items.getD i .unit
  | tree => tree

/-- The members of a list, also of an optional one. -/
def items : Tree V α → List (Tree V α)
  | list items => items
  | present inner => inner.items
  | _ => []

@[simp]
theorem nth_list (i : Nat) (ts : List (Tree V α)) : (list ts).nth i = ts.getD i .unit := rfl

@[simp]
theorem items_list (ts : List (Tree V α)) : (list ts).items = ts := rfl

@[simp]
theorem items_present (t : Tree V α) : (present t).items = t.items := rfl

@[simp]
theorem items_absent : (absent : Tree V α).items = [] := rfl

/-! ## Comparing trees -/

section Comparing

variable [DecidableEq V] [DecidableEq α]

mutual

/-- Whether two trees are the same. -/
def same : Tree V α → Tree V α → Bool
  | text t, text u => t == u
  | index i, index j => i == j
  | unit, unit => true
  | list ts, list us => sameItems ts us
  | absent, absent => true
  | present t, present u => same t u
  | value v, value w => v == w
  | made a, made b => a == b
  | _, _ => false

/-- Whether two lists hold the same trees. -/
def sameItems : List (Tree V α) → List (Tree V α) → Bool
  | [], [] => true
  | t :: ts, u :: us => same t u && sameItems ts us
  | _, _ => false

end

mutual

/-- Comparing two trees says whether they are equal. -/
theorem same_iff (t u : Tree V α) : same t u = true ↔ t = u := by
  cases t <;> cases u <;> simp [same]
  case list ts us => exact sameItems_iff ts us
  case present t u => exact same_iff t u

/-- Items are the same when the lists of them are equal. -/
theorem sameItems_iff (ts us : List (Tree V α)) : sameItems ts us = true ↔ ts = us := by
  cases ts with
  | nil => cases us <;> simp [sameItems]
  | cons t ts =>
    cases us with
    | nil => simp [sameItems]
    | cons u us => simp [sameItems, same_iff t u, sameItems_iff ts us]

end

instance : DecidableEq (Tree V α) := fun t u => decidable_of_iff _ (same_iff t u)

end Comparing

end Tree

/-- A successful match: what was matched and where the match stops. -/
structure Match (V α : Type) where
  tree : Tree V α
  stop : Position
deriving DecidableEq

/-- How an attempt turned out: a match, or none. -/
abbrev Outcome (V α : Type) := Option (Match V α)

/-- How an attempt ended: with an outcome, or with a fatal error. -/
abbrev Ending (V α : Type) := Except ParseError (Outcome V α)

instance {V α : Type} [DecidableEq V] [DecidableEq α] : DecidableEq (Ending V α)
  | .ok o, .ok o' => decidable_of_iff (o = o') (by simp)
  | .error e, .error e' => decidable_of_iff (e = e') (by simp)
  | .ok _, .error _ => isFalse (by simp)
  | .error _, .ok _ => isFalse (by simp)

namespace Match

variable {V α : Type}

/-- Replaces the tree of a match. -/
def map (f : Tree V α → Tree V α) (m : Match V α) : Match V α := ⟨f m.tree, m.stop⟩

@[simp]
theorem map_stop (f : Tree V α → Tree V α) (m : Match V α) : (m.map f).stop = m.stop := rfl

@[simp]
theorem map_tree (f : Tree V α → Tree V α) (m : Match V α) : (m.map f).tree = f m.tree := rfl

end Match

end SlotGrammar
