import SlotGrammar.Grammar.Expr
import SlotGrammar.Recording.Session

/-!
# Grammars

A grammar owns what recognizers share: the table of names, the cells of
recursive and of deferred definitions, and the stores of outcomes.  Building,
parsing and toggling caches each turn one state of the grammar into the next.

Main results:

- Theorem `withCaching_same`: asking for the caching that a handle has gives the
  handle itself and changes nothing.
- Theorem `withCaching_id`: toggling keeps the identity of a recognizer.
-/

namespace SlotGrammar

/-- A recognizer that is built when it is first attempted. -/
inductive Deferral (V α : Type) where
  /-- Not built yet: what to build, the label under which that is counted, and
  the recursive definitions around it. -/
  | awaiting (label : String) (expr : Expr V α) (scope : List (String × Recognizer V α))
  /-- Built. -/
  | settled (r : Recognizer V α)

/-- What the recognizers of a grammar share. -/
structure Grammar (V α : Type) where
  names : Table String (Recognizer V α) := .empty
  /-- The recursive definitions.  A cell is empty while its definition is being
  built. -/
  definitions : Array (Option (Recognizer V α)) := #[]
  deferrals : Array (Deferral V α) := #[]
  stores : Stores V α := #[]
  /-- The number for the next handle. -/
  nextNode : Nat := 0
  /-- The number for the next session. -/
  nextSession : SessionId := 0

/-- A step that may change a grammar. -/
abbrev GrammarM (V α β : Type) := StateM (Grammar V α) β

namespace Grammar

variable {V α : Type}

instance : Inhabited (Grammar V α) := ⟨{}⟩

/-! ## Handles and names -/

/-- A handle for a new recognizer that holds some links.  Its identity is new, as it is in
a program that makes fewer than 2 ^ 32 recognizers. -/
def newHandle (held : List Link) : GrammarM V α Handle := fun g =>
  (⟨g.nextNode, g.nextNode, .never, held⟩, { g with nextNode := g.nextNode + 1 })

/-- A new recognizer with a shape, which holds what its parts hold. -/
def newNode (shape : Shape V α (Recognizer V α)) : GrammarM V α (Recognizer V α) := do
  return .node (← newHandle shape.held) shape

/-- A new recognizer that is a link. -/
def newLink (target : Link) : GrammarM V α (Recognizer V α) := do
  return .link (← newHandle target.held) target

/-- A new recognizer with a shape holds what its parts hold. -/
@[simp]
theorem newNode_held (g : Grammar V α) (shape : Shape V α (Recognizer V α)) :
    (newNode shape g).1.held = shape.held := rfl

/-- A new link holds its target, unless that is the recursive use of a definition. -/
@[simp]
theorem newLink_held (g : Grammar V α) (target : Link) :
    (newLink target g).1.held = target.held := rfl

/-- Binds a name to a recognizer. -/
def bind (g : Grammar V α) (name : String) (r : Recognizer V α) : Grammar V α :=
  { g with names := g.names.put name r }

/-- Removes a name. -/
def unbind (g : Grammar V α) (name : String) : Grammar V α :=
  { g with names := g.names.erase name }

/-- The recognizer that a name is bound to. -/
def find? (g : Grammar V α) (name : String) : Option (Recognizer V α) := g.names.find? name

/-! ## Caches -/

/-- The store of a recognizer. -/
def store (g : Grammar V α) (r : Recognizer V α) : Option (Store V α) :=
  r.handle.caching.store?.bind fun id => g.stores[id]?

/-- The number of committed outcomes that a recognizer holds. -/
def heldOutcomes (g : Grammar V α) (r : Recognizer V α) : Nat :=
  ((g.store r).map Store.size).getD 0

/-- Drops every trace that a recognizer holds. -/
def dropTraces (g : Grammar V α) (r : Recognizer V α) : Grammar V α :=
  match r.handle.caching.store? with
  | some id => { g with stores := g.stores.modify id Store.clear }
  | none => g

/-- A handle on the same recognizer with outcomes kept or not kept.  A change
makes a new handle; a store that once existed is used again. -/
def withCaching (r : Recognizer V α) (on : Bool) : GrammarM V α (Recognizer V α) := fun g =>
  if on = r.isCached then (r, g)
  else
    let handle := fun caching => r.withHandle { r.handle with node := g.nextNode, caching }
    let g' := { g with nextNode := g.nextNode + 1 }
    match on, r.handle.caching.store? with
    | true, some id => (handle (.active id), g')
    | true, none => (handle (.active g.stores.size), { g' with stores := g.stores.push {} })
    | false, some id => (handle (.paused id), g')
    | false, none => (handle .never, g')

/-- Asking for the caching that a handle has gives the handle itself. -/
theorem withCaching_same (g : Grammar V α) (r : Recognizer V α) :
    withCaching r r.isCached g = (r, g) := by
  simp [withCaching]

/-- Toggling keeps the identity of a recognizer. -/
theorem withCaching_id (g : Grammar V α) (r : Recognizer V α) (on : Bool) :
    (withCaching r on g).1.handle.id = r.handle.id := by
  unfold withCaching
  split
  · rfl
  · cases on <;> cases r.handle.caching.store? <;> simp

/-- Toggling keeps what a recognizer holds. -/
theorem withCaching_held (g : Grammar V α) (r : Recognizer V α) (on : Bool) :
    (withCaching r on g).1.held = r.held := by
  unfold withCaching
  split
  · rfl
  · cases on <;> cases r.handle.caching.store? <;> simp [Recognizer.held]

/-- After toggling, a handle is cached as asked. -/
theorem withCaching_isCached (g : Grammar V α) (r : Recognizer V α) (on : Bool) :
    (withCaching r on g).1.isCached = on := by
  unfold withCaching
  split
  · next h => exact h.symm
  · cases on <;> cases r.handle.caching.store? <;> simp [Recognizer.isCached, Caching.isActive]

end Grammar

end SlotGrammar
