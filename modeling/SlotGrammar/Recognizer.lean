import SlotGrammar.ParseOptions
import SlotGrammar.Pattern
import SlotGrammar.Tree

/-!
# Recognizers

A recognizer attempts a match at a position.  It has a handle, which names it
and says whether it keeps outcomes, and a shape built over other recognizers.
Recognizers that refer to themselves, or to something built later, are links to
a cell of the grammar that owns them.

Main results:

- Theorem `mem_held_iff`: a shape holds the links that its parts hold.
- Theorems `outcome_find` and `outcome_nextSlot`: how far a pattern and a slot move the
  cursor.
-/

namespace SlotGrammar

/-- The number of an outcome store of a grammar. -/
abbrev StoreId := Nat

/-- Whether a recognizer keeps outcomes.  One that has been turned off keeps its
store for the time it is turned on again. -/
inductive Caching where
  | never
  | paused (store : StoreId)
  | active (store : StoreId)
deriving DecidableEq

namespace Caching

/-- The store, if there has ever been one. -/
def store? : Caching → Option StoreId
  | never => none
  | paused store => some store
  | active store => some store

/-- Whether outcomes are recorded and replayed. -/
def isActive : Caching → Bool
  | active _ => true
  | _ => false

end Caching

/-- A reference into the cells of a grammar. -/
inductive Link where
  /-- The owner of a recursive definition, which keeps it alive. -/
  | definition (cell : Nat)
  /-- The recursive use of a definition, which does not keep it alive. -/
  | self (cell : Nat)
  /-- A recognizer that is built when it is first attempted. -/
  | deferred (cell : Nat)
  /-- A name that nothing was bound to. -/
  | unbound
deriving DecidableEq

namespace Link

/-- The links that a recognizer holds which is a link itself.  The recursive use of
a definition holds nothing. -/
def held : Link → List Link
  | definition cell => [definition cell]
  | self _ => []
  | deferred cell => [deferred cell]
  | unbound => []

end Link

/-- The handle of a recognizer.  Handles on one recognizer with different caching
share the identity `id`, under which traces are kept; `node` tells them apart.

The identities of a program are words of 32 bits that are given out in turn and start
again when they are used up.  Here they are numbers and never repeat, which is the same
as long as a program makes fewer than 2 ^ 32 recognizers. -/
structure Handle where
  id : Nat
  node : Nat
  caching : Caching
  /-- The links that the recognizer holds, itself or in its parts, each once. -/
  held : List Link
deriving DecidableEq

/-! ## Shapes -/

/-- A recognizer that is built over no other. -/
inductive Leaf (V α : Type) where
  /-- Matches a pattern at the cursor and yields the matched text. -/
  | find (pattern : Pattern)
  /-- Crosses one slot and yields its number. -/
  | nextSlot
  /-- Matches at the end of the input and yields the number of the last fragment. -/
  | inputEnd
  /-- Never matches. -/
  | fail
  /-- Always matches, without moving. -/
  | empty
  /-- Matches as a function of input, values and position says. -/
  | inspect (decide : Fragments → List V → Position → Outcome V α)

/-- What a parse inside a run is given: an input of its own, values made from those of the
run, and options of its own. -/
structure Subparse (V : Type) where
  input : Fragments
  values : List V → List V := id
  options : ParseOptions := .standard

/-- The ways to build a recognizer over parts of type `ρ`. -/
inductive Shape (V α ρ : Type) where
  | leaf (leaf : Leaf V α)
  /-- Transforms the tree of a match, given the interpolated values. -/
  | mapped (transform : Tree V α → List V → Tree V α) (part : ρ)
  /-- Every part in order, each from where the one before it stopped. -/
  | sequence (parts : List ρ)
  /-- The first part that matches. -/
  | choice (parts : List ρ)
  /-- The part, or nothing. -/
  | optional (part : ρ)
  /-- The part, or a fatal error where it was attempted. -/
  | required (part : ρ)
  /-- One of two parts, as the verdict of a test says. -/
  | conditional (test onMatch onFail : ρ)
  /-- The part one or more times, as long as the cursor moves forward. -/
  | repeated (part : ρ)
  /-- The part one or more times with a delimiter between. -/
  | separated (part delimiter : ρ)
  /-- The part where another one does not match. -/
  | butNot (part forbidden : ρ)
  /-- The part, with a fatal error taken for no match. -/
  | catching (part : ρ)
  /-- A whole parse of another input, which moves the cursor nowhere. -/
  | nested (sub : Subparse V) (part : ρ)
  /-- The part, after the outcomes of a target have been dropped. -/
  | clearing (target part : ρ)
  /-- The part, after counting the attempt. -/
  | counted (label : String) (part : ρ)
  /-- The part, with a note on the attempt in the log. -/
  | probed (label : String) (part : ρ)

/-- The parts of a shape, from left to right. -/
def Shape.parts {V α ρ : Type} : Shape V α ρ → List ρ
  | .leaf _ => []
  | .mapped _ p => [p]
  | .sequence ps => ps
  | .choice ps => ps
  | .optional p => [p]
  | .required p => [p]
  | .conditional t p q => [t, p, q]
  | .repeated p => [p]
  | .separated p d => [p, d]
  | .butNot p q => [p, q]
  | .catching p => [p]
  | .nested _ p => [p]
  | .clearing t p => [t, p]
  | .counted _ p => [p]
  | .probed _ p => [p]

/-- A recognizer for inputs with values of type `V`, with results of type `α`. -/
inductive Recognizer (V α : Type) where
  | node (handle : Handle) (shape : Shape V α (Recognizer V α))
  | link (handle : Handle) (target : Link)

namespace Recognizer

variable {V α : Type}

/-- The handle of a recognizer. -/
def handle : Recognizer V α → Handle
  | node handle _ => handle
  | link handle _ => handle

/-- The same recognizer under another handle. -/
def withHandle (handle : Handle) : Recognizer V α → Recognizer V α
  | node _ shape => node handle shape
  | link _ target => link handle target

/-- Whether the recognizer records and replays outcomes. -/
def isCached (r : Recognizer V α) : Bool := r.handle.caching.isActive

/-- Whether two handles are the very same. -/
def sameNode (r s : Recognizer V α) : Bool := r.handle.node == s.handle.node

/-- Whether two handles are on one recognizer. -/
def sameId (r s : Recognizer V α) : Bool := r.handle.id == s.handle.id

/-- The links that a recognizer holds. -/
def held (r : Recognizer V α) : List Link := r.handle.held

@[simp]
theorem handle_withHandle (h : Handle) (r : Recognizer V α) : (r.withHandle h).handle = h := by
  cases r <;> rfl

end Recognizer

/-- The links that the parts of a shape hold. -/
def Shape.held {V α : Type} (shape : Shape V α (Recognizer V α)) : List Link :=
  (shape.parts.flatMap Recognizer.held).eraseDups

/-- What a part holds is held by the shape over it. -/
theorem Shape.mem_held_iff {V α : Type} {shape : Shape V α (Recognizer V α)} {l : Link} :
    l ∈ shape.held ↔ ∃ p ∈ shape.parts, l ∈ p.held := by
  simp [held]

/-! ## Leaves -/

namespace Leaf

variable {V α : Type}

/-- How a leaf turns out at a position. -/
def outcome (leaf : Leaf V α) (input : Fragments) (values : List V) (pos : Position) :
    Outcome V α :=
  match leaf with
  | find pattern =>
    ((input.rest? pos).bind pattern.matched?).map fun t =>
      ⟨.text t, input.advance pos t.byteLength⟩
  | nextSlot =>
    if input.isSlot pos then some ⟨.index pos.fragment, input.nextFragment pos⟩ else none
  | inputEnd => if input.isEnd pos then some ⟨.index pos.fragment, pos⟩ else none
  | fail => none
  | empty => some ⟨.unit, pos⟩
  | inspect decide => decide input values pos

variable {input : Fragments} {values : List V} {pos : Position}

/-- What a pattern finds lies in a fragment, so there is room for where it stops. -/
theorem outcome_find (pattern : Pattern) :
    (find pattern : Leaf V α).outcome input values pos =
      ((input.rest? pos).bind pattern.matched?).map fun t =>
        ⟨.text t, pos.advance t.byteLength⟩ := by
  refine Option.map_congr ?_
  intro t ht
  obtain ⟨ahead, hahead, hmatched⟩ := Option.bind_eq_some_iff.1 ht
  obtain ⟨text, htext, hdrop⟩ := Option.bind_eq_some_iff.1 hahead
  obtain ⟨before, rfl, hoffset⟩ := Text.dropBytes?_eq_some_iff.1 hdrop
  obtain ⟨rest, rfl⟩ := pattern.matched?_append hmatched
  rw [Fragments.advance_eq htext]
  simp only [Text.byteLength_append]
  omega

/-- Where there is room, crossing a slot stops at the start of the next fragment. -/
theorem outcome_nextSlot (h : input.HasRoom pos) :
    (nextSlot : Leaf V α).outcome input values pos =
      if input.isSlot pos then some ⟨.index pos.fragment, pos.nextFragment⟩ else none := by
  rw [outcome, Fragments.nextFragment_eq h]

end Leaf

end SlotGrammar
