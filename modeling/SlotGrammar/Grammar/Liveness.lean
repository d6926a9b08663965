import SlotGrammar.Grammar.Build

/-!
# What keeps definitions alive

The recursive use of a definition does not keep it alive.  A definition lives as
long as its owner is held: by a name of the grammar, by a recognizer that is
running, or by the content of a cell that lives.  A cell that comes to hold itself
needs no other holder, and lives on with all that it holds when every name for it
is gone.

Main results:

- Theorem `definition?_eq_none_of_not_alive`: a definition that nothing holds is gone.
- Theorem `isAlive_of_named`: what a name holds is alive.
-/

namespace SlotGrammar.Grammar

variable {V α : Type}

/-! ## Following links -/

/-- The links that the cell of a link holds.  The recursive use of a definition
holds nothing, and neither does a recognizer that has not been built. -/
def linksBehind (g : Grammar V α) : Link → List Link
  | .definition cell =>
    match g.definitions[cell]? with
    | some (some r) => r.held
    | _ => []
  | .deferred cell =>
    match g.deferrals[cell]? with
    | some (.settled r) => r.held
    | _ => []
  | .self _ => []
  | .unbound => []

/-- The number of cells of a grammar. -/
def cellCount (g : Grammar V α) : Nat := g.definitions.size + g.deferrals.size

/-- Adds a link to those that have been reached, with all that are reached from it.
Each is followed once, so that the number of cells bounds the depth. -/
def follow (g : Grammar V α) : Nat → List Link → Link → List Link
  | 0, reached, l => l :: reached
  | depth + 1, reached, l =>
    if reached.contains l then reached else (g.linksBehind l).foldl (g.follow depth) (l :: reached)

/-- The links that are reached from some links, these among them. -/
def reachedFrom (g : Grammar V α) (held : List Link) : List Link :=
  held.foldl (g.follow (g.cellCount + 1)) []

/-- Whether the cell of a link holds that link itself, directly or through others. -/
def holdsItself (g : Grammar V α) (l : Link) : Bool :=
  (g.reachedFrom (g.linksBehind l)).contains l

/-- The links to all cells. -/
def allLinks (g : Grammar V α) : List Link :=
  (List.range g.definitions.size).map .definition ++ (List.range g.deferrals.size).map .deferred

/-! ## Living definitions -/

/-- Whether a definition is alive: its owner is held by a name, by one of the
recognizers that a run holds, or by a cell that holds itself. -/
def isAlive (g : Grammar V α) (holders : List (Recognizer V α)) (cell : Nat) : Bool :=
  (g.reachedFrom ((g.names.values ++ holders).flatMap Recognizer.held)).contains
      (.definition cell) ||
    (g.reachedFrom (g.allLinks.filter g.holdsItself)).contains (.definition cell)

/-- The definition in a cell, as long as it is alive. -/
def definition? (g : Grammar V α) (holders : List (Recognizer V α)) (cell : Nat) :
    Option (Recognizer V α) :=
  if g.isAlive holders cell then (g.definitions[cell]?).join else none

/-- A definition that nothing holds is gone. -/
theorem definition?_eq_none_of_not_alive {g : Grammar V α} {holders : List (Recognizer V α)}
    {cell : Nat} (h : g.isAlive holders cell = false) : g.definition? holders cell = none := by
  simp [definition?, h]

/-! ## What is reached -/

/-- Steps that lose no link lose none together. -/
theorem mem_foldl_of_mem {step : List Link → Link → List Link}
    (hstep : ∀ {reached : List Link} {l k : Link}, k ∈ reached → k ∈ step reached l)
    (ls : List Link) {reached : List Link} {k : Link} (h : k ∈ reached) :
    k ∈ ls.foldl step reached := by
  induction ls generalizing reached with
  | nil => exact h
  | cons l ls ih => exact ih (hstep h)

/-- Following a link loses none of those that have been reached. -/
theorem mem_follow_of_mem (g : Grammar V α) (depth : Nat) {reached : List Link} {l k : Link}
    (h : k ∈ reached) : k ∈ g.follow depth reached l := by
  induction depth generalizing reached l k with
  | zero => exact List.mem_cons_of_mem _ h
  | succ depth ih =>
    rw [follow]
    split
    · exact h
    · exact mem_foldl_of_mem (fun h => ih h) _ (List.mem_cons_of_mem _ h)

/-- A link that is followed is reached. -/
theorem mem_follow_self (g : Grammar V α) (depth : Nat) (reached : List Link) (l : Link) :
    l ∈ g.follow depth reached l := by
  cases depth with
  | zero => exact List.mem_cons_self
  | succ depth =>
    rw [follow]
    split
    · next h => simpa using h
    · exact mem_foldl_of_mem (fun h => g.mem_follow_of_mem depth h) _ List.mem_cons_self

/-- Links are reached from themselves. -/
theorem mem_reachedFrom (g : Grammar V α) {held : List Link} {l : Link} (h : l ∈ held) :
    l ∈ g.reachedFrom held := by
  obtain ⟨before, after, rfl⟩ := List.append_of_mem h
  rw [reachedFrom, List.foldl_append, List.foldl_cons]
  exact mem_foldl_of_mem (fun h => g.mem_follow_of_mem _ h) _ (g.mem_follow_self _ _ _)

/-- What a name holds is alive. -/
theorem isAlive_of_named {g : Grammar V α} {holders : List (Recognizer V α)} {r : Recognizer V α}
    {cell : Nat} (hname : r ∈ g.names.values) (hheld : .definition cell ∈ r.held) :
    g.isAlive holders cell = true := by
  have h := g.mem_reachedFrom (List.mem_flatMap.2
    ⟨r, List.mem_append_left holders hname, hheld⟩)
  exact Bool.or_eq_true_iff.2 (.inl (List.contains_iff_mem.2 h))

end SlotGrammar.Grammar
