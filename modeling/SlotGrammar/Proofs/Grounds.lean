import SlotGrammar.Proofs.Usage

/-!
# Grounded grammars

The handles of a grammar have numbers that it has given out, its links lead to cells that it
has, and the owner of a definition comes to be only when the definition is there.  All this
holds while a recursive definition is still being built, which may take any steps in between.

A grammar develops by building and parsing.  Its cells stay what they are.  A definition that
nothing holds anymore is not held again: what is built later can hold only what it finds in the
table of names, and new cells.

Main results:

- Theorem `Develops.kept`: what is kept later was kept before, new cells aside.
- Theorem `Tended.build`: building an expression develops a grammar and keeps it grounded.
- Theorem `Underway.tended`: every grammar is grounded, whatever has been done with it.
-/

namespace SlotGrammar

variable {V α : Type}

/-! ## Grounded recognizers -/

/-- Whether the cell of a link is there, and filled if the link owns it. -/
def Link.Founded (g : Grammar V α) : Link → Prop
  | .definition cell => ∃ r, g.definitions[cell]? = some (some r)
  | .self cell => cell < g.definitions.size
  | .deferred cell => cell < g.deferrals.size
  | .unbound => True

namespace Recognizer

/-- Whether a recognizer stands on the grammar around it: its handle has been given out and
holds what its parts hold, and its link has a cell. -/
structure Stands (g : Grammar V α) (r : Recognizer V α) : Prop where
  node_lt : r.handle.node < g.nextNode
  holdsParts : r.HoldsParts
  founded : ∀ handle l, r = .link handle l → l.Founded g

/-- Whether a recognizer and everything that it is built over stand on a grammar. -/
def Grounded (g : Grammar V α) (top : Recognizer V α) : Prop := ∀ r, top.Over r → r.Stands g

variable {g : Grammar V α} {handle : Handle}

/-- A recognizer with a shape is grounded when its number is given out and its parts are grounded.
-/
theorem Grounded.node {shape : Shape V α (Recognizer V α)} (hnode : handle.node < g.nextNode)
    (hholds : (Recognizer.node handle shape).HoldsParts)
    (hparts : ∀ p ∈ shape.parts, p.Grounded g) : (Recognizer.node handle shape).Grounded g := by
  intro r hr
  rcases over_node_iff.1 hr with rfl | ⟨p, hp, hover⟩
  · exact ⟨hnode, hholds, fun _ _ heq => by cases heq⟩
  · exact hparts p hp r hover

/-- A link is grounded when its number is given out and its cell is there. -/
theorem Grounded.link {l : Link} (hnode : handle.node < g.nextNode)
    (hholds : (Recognizer.link handle l : Recognizer V α).HoldsParts) (hl : l.Founded g) :
    (Recognizer.link handle l).Grounded g := by
  intro r hr
  cases over_link_iff.1 hr
  refine ⟨hnode, hholds, ?_⟩
  intro handle' l' heq
  cases heq
  exact hl

/-- The parts of a grounded recognizer are grounded. -/
theorem Grounded.part {shape : Shape V α (Recognizer V α)}
    (h : (Recognizer.node handle shape).Grounded g) {p : Recognizer V α} (hp : p ∈ shape.parts) :
    p.Grounded g :=
  fun r hr => h r (over_node_iff.2 (.inr ⟨p, hp, hr⟩))

/-- Another handle on a recognizer, which holds the same, is grounded as well. -/
theorem Grounded.withHandle {r : Recognizer V α} (h : r.Grounded g)
    (hnode : handle.node < g.nextNode) (hheld : handle.held = r.held) :
    (r.withHandle handle).Grounded g := by
  have hholds := (h r .refl).holdsParts
  cases r with
  | node handle' shape =>
    refine .node hnode ?_ fun p hp => h.part hp
    intro p hp l hl
    rw [hheld]
    exact hholds p hp l hl
  | link handle' l =>
    refine .link hnode ?_ ((h _ .refl).founded handle' l rfl)
    intro k hk
    rw [hheld]
    exact hholds k hk

end Recognizer

namespace Grammar

/-! ## Grounded grammars -/

/-- Whether all recognizers in a grammar are grounded in another state of it, and those that a
deferral has kept for its names hold nothing. -/
structure GroundedIn (g base : Grammar V α) : Prop where
  names : ∀ r ∈ g.names.values, r.Grounded base
  definitions : ∀ (cell : Nat) (r : Recognizer V α), g.definitions[cell]? = some (some r) →
    r.Grounded base
  settled : ∀ (cell : Nat) (r : Recognizer V α), g.deferrals[cell]? = some (.settled r) →
    r.Grounded base
  awaiting : ∀ (cell : Nat) (label : String) (e : Expr V α) (scope : Scope V α),
    g.deferrals[cell]? = some (.awaiting label e scope) →
    ∀ x ∈ scope, x.2.Grounded base ∧ x.2.held = []

/-- Whether all recognizers in a grammar are grounded. -/
abbrev Grounded (g : Grammar V α) : Prop := g.GroundedIn g

/-- Whether a grammar has got more handles and cells, or more in them. -/
structure Widens (g g' : Grammar V α) : Prop where
  nextNode_le : g.nextNode ≤ g'.nextNode
  definitions_le : g.definitions.size ≤ g'.definitions.size
  deferrals_le : g.deferrals.size ≤ g'.deferrals.size
  filled : ∀ (cell : Nat) (r : Recognizer V α), g.definitions[cell]? = some (some r) →
    ∃ r', g'.definitions[cell]? = some (some r')

namespace Widens

variable {g g' : Grammar V α}

/-- A cell that is there is there in every wider grammar. -/
theorem founded (h : g.Widens g') {l : Link} (hl : l.Founded g) : l.Founded g' := by
  cases l with
  | definition cell =>
    obtain ⟨r, hr⟩ := hl
    exact h.filled cell r hr
  | self cell => exact Nat.lt_of_lt_of_le hl h.definitions_le
  | deferred cell => exact Nat.lt_of_lt_of_le hl h.deferrals_le
  | unbound => trivial

/-- What is grounded is so in every wider grammar. -/
theorem grounded (h : g.Widens g') {top : Recognizer V α} (htop : top.Grounded g) :
    top.Grounded g' := by
  intro r hr
  have hold := htop r hr
  exact ⟨Nat.lt_of_lt_of_le hold.node_lt h.nextNode_le, hold.holdsParts,
    fun handle l heq => h.founded (hold.founded handle l heq)⟩

/-- A grammar that is grounded in another is so in every wider one. -/
theorem groundedIn (h : g.Widens g') {base : Grammar V α} (hbase : base.GroundedIn g) :
    base.GroundedIn g' where
  names r hr := h.grounded (hbase.names r hr)
  definitions cell r hr := h.grounded (hbase.definitions cell r hr)
  settled cell r hr := h.grounded (hbase.settled cell r hr)
  awaiting cell label e scope hcell x hx :=
    have hold := hbase.awaiting cell label e scope hcell x hx
    ⟨h.grounded hold.1, hold.2⟩

end Widens

/-! ## Later states -/

/-- The links of a grammar lead to all its definitions. -/
theorem mem_allLinks_definition {g : Grammar V α} {cell : Nat} :
    .definition cell ∈ g.allLinks ↔ cell < g.definitions.size := by
  simp [allLinks]

/-- The links of a grammar lead to all its deferrals. -/
theorem mem_allLinks_deferred {g : Grammar V α} {cell : Nat} :
    .deferred cell ∈ g.allLinks ↔ cell < g.deferrals.size := by
  simp [allLinks]

/-- A grammar with more cells has more links. -/
theorem mem_allLinks_mono {g g' : Grammar V α}
    (hdefinitions : g.definitions.size ≤ g'.definitions.size)
    (hdeferrals : g.deferrals.size ≤ g'.deferrals.size) {l : Link} (hl : l ∈ g.allLinks) :
    l ∈ g'.allLinks := by
  cases l with
  | definition cell =>
    rw [mem_allLinks_definition] at *
    omega
  | deferred cell =>
    rw [mem_allLinks_deferred] at *
    omega
  | self cell => simp [allLinks] at hl
  | unbound => simp [allLinks] at hl

/-- Whether what is built later may hold a link: it is kept, or its cell is a new one. -/
def Lends (g : Grammar V α) (l : Link) : Prop := l ∈ g.allLinks → g.Kept l

/-- Whether a recognizer holds only links that a grammar has lent. -/
def LendsAll (g : Grammar V α) (r : Recognizer V α) : Prop := ∀ l ∈ r.held, g.Lends l

/-- Whether one state of a grammar comes from another one by building and parsing: the cells
that it had are what they were, apart from deferrals that have been settled, and what is new
holds only what has been lent. -/
structure Develops (g g' : Grammar V α) : Prop where
  nextNode_le : g.nextNode ≤ g'.nextNode
  definitions_le : g.definitions.size ≤ g'.definitions.size
  deferrals_le : g.deferrals.size ≤ g'.deferrals.size
  definitions : ∀ cell < g.definitions.size, g'.definitions[cell]? = g.definitions[cell]?
  settled : ∀ (cell : Nat) (r : Recognizer V α), g.deferrals[cell]? = some (.settled r) →
    g'.deferrals[cell]? = some (.settled r)
  holds : ∀ l k, g'.Holds l k → g.Holds l k ∨ g.Lends k
  names : ∀ r ∈ g'.names.values, g.LendsAll r

namespace Develops

variable {g g' g'' : Grammar V α} {l k : Link}

theorem refl (g : Grammar V α) : g.Develops g where
  nextNode_le := Nat.le_refl _
  definitions_le := Nat.le_refl _
  deferrals_le := Nat.le_refl _
  definitions _ _ := rfl
  settled _ _ h := h
  holds _ _ h := .inl h
  names _ hr l hl _ := keeps_of_named hr l hl

/-- A grammar that has developed is wider. -/
theorem widens (h : g.Develops g') : g.Widens g' where
  nextNode_le := h.nextNode_le
  definitions_le := h.definitions_le
  deferrals_le := h.deferrals_le
  filled cell r hr := ⟨r, (h.definitions cell (Array.getElem?_eq_some_iff.1 hr).1).trans hr⟩

/-- What is reached later was reached before or kept, new cells aside. -/
theorem reaches (h : g.Develops g') (hreach : g'.Reaches l k) (hk : k ∈ g.allLinks) :
    g.Reaches l k ∨ g.Kept k := by
  induction hreach with
  | refl => exact .inl .refl
  | tail _ hstep ih =>
    rcases h.holds _ _ hstep with hold | hlent
    · exact (ih (mem_allLinks_of_holds hold)).imp (·.tail hold) (·.holds hold)
    · exact .inr (hlent hk)

/-- What is kept later was kept before, new cells aside. -/
theorem kept (h : g.Develops g') (hkept : g'.Kept k) (hk : k ∈ g.allLinks) : g.Kept k := by
  obtain ⟨top, htop, hreach⟩ := hkept
  rcases h.reaches hreach hk with hold | hold
  · have hcell : top ∈ g.allLinks := by
      rcases Relation.ReflTransGen.cases_head hold with rfl | ⟨mid, hstep, -⟩
      · exact hk
      · exact mem_allLinks_of_holds hstep
    rcases htop with ⟨r, hr, hheld⟩ | hself
    · exact (h.names r hr top hheld hcell).reaches hold
    · -- a chain back to `top` is an old one, or it passes through something kept
      have hchain : ∀ {x y : Link}, Relation.TransGen g'.Holds x y → y ∈ g.allLinks →
          Relation.TransGen g.Holds x y ∨ g.Kept y := by
        intro x y hxy
        induction hxy with
        | single hstep =>
          intro hy
          exact (h.holds _ _ hstep).imp .single (· hy)
        | tail _ hstep ih =>
          intro hy
          rcases h.holds _ _ hstep with hold | hlent
          · exact (ih (mem_allLinks_of_holds hold)).imp (·.tail hold) (·.holds hold)
          · exact .inr (hlent hy)
      rcases hchain hself hcell with hself | hkept
      · exact ⟨top, .inr hself, hold⟩
      · exact hkept.reaches hold
  · exact hold

/-- What a developed grammar lends it lent before. -/
theorem lends (h : g.Develops g') (hl : g'.Lends l) : g.Lends l := fun hcell =>
  h.kept (hl (mem_allLinks_mono h.definitions_le h.deferrals_le hcell)) hcell

theorem trans (h : g.Develops g') (h' : g'.Develops g'') : g.Develops g'' where
  nextNode_le := Nat.le_trans h.nextNode_le h'.nextNode_le
  definitions_le := Nat.le_trans h.definitions_le h'.definitions_le
  deferrals_le := Nat.le_trans h.deferrals_le h'.deferrals_le
  definitions cell hcell :=
    (h'.definitions cell (Nat.lt_of_lt_of_le hcell h.definitions_le)).trans
      (h.definitions cell hcell)
  settled cell r hr := h'.settled cell r (h.settled cell r hr)
  holds l k hstep := (h'.holds l k hstep).elim (h.holds l k) fun hlent => .inr (h.lends hlent)
  names r hr l hl := h.lends (h'.names r hr l hl)

/-- Every grammar develops from the empty one. -/
theorem of_empty (g : Grammar V α) : ({} : Grammar V α).Develops g where
  nextNode_le := Nat.zero_le _
  definitions_le := Nat.zero_le _
  deferrals_le := Nat.zero_le _
  definitions _ hcell := absurd hcell (Nat.not_lt_zero _)
  settled _ _ hr := by cases hr
  holds _ _ _ := .inr fun hcell => by cases hcell
  names _ _ _ _ hcell := by cases hcell

end Develops

/-! ## Steps -/

/-- Whether what stands for the names of a scope is in hand, and holds nothing. -/
def Scope.InHand (scope : Scope V α) (hand : List (Recognizer V α)) : Prop :=
  ∀ x ∈ scope, x.2 ∈ hand ∧ x.2.held = []

/-- A scope is in hand when more is in hand. -/
theorem Scope.InHand.take {scope : Scope V α} {hand : List (Recognizer V α)}
    (h : scope.InHand hand) (r : Recognizer V α) : scope.InHand (r :: hand) :=
  fun x hx => ⟨List.mem_cons_of_mem r (h x hx).1, (h x hx).2⟩

/-- A name may stand for a recognizer in hand that holds nothing. -/
theorem Scope.InHand.cons {scope : Scope V α} {hand : List (Recognizer V α)}
    (h : scope.InHand hand) (name : String) {r : Recognizer V α} (hr : r.held = []) :
    Scope.InHand ((name, r) :: scope) (r :: hand) :=
  List.forall_mem_cons.2 ⟨⟨List.mem_cons_self, hr⟩, h.take r⟩

/-- Whether a grammar is a grounded later state of another one, with some recognizers in hand
that are grounded as well and hold only what has been lent. -/
structure Tended (base g : Grammar V α) (hand : List (Recognizer V α)) : Prop where
  develops : base.Develops g
  grounded : g.Grounded
  hand_grounded : ∀ r ∈ hand, r.Grounded g
  hand_lent : ∀ r ∈ hand, base.LendsAll r

/-- Whether a step changes a grammar by what is in hand: names and cells get nothing else, and
cells that an earlier state had defined or settled stay what they are. -/
structure Updates (base : Grammar V α) (hand : List (Recognizer V α)) (g g' : Grammar V α) :
    Prop where
  widens : g.Widens g'
  defined : ∀ cell < base.definitions.size, g'.definitions[cell]? = g.definitions[cell]?
  kept : ∀ (cell : Nat) (r : Recognizer V α), base.deferrals[cell]? = some (.settled r) →
    g'.deferrals[cell]? = g.deferrals[cell]?
  names : ∀ r ∈ g'.names.values, r ∈ g.names.values ∨ r ∈ hand
  definitions : ∀ (cell : Nat) (r : Recognizer V α), g'.definitions[cell]? = some (some r) →
    g.definitions[cell]? = some (some r) ∨ r ∈ hand
  settled : ∀ (cell : Nat) (r : Recognizer V α), g'.deferrals[cell]? = some (.settled r) →
    g.deferrals[cell]? = some (.settled r) ∨ r ∈ hand
  awaiting : ∀ (cell : Nat) (label : String) (e : Expr V α) (scope : Scope V α),
    g'.deferrals[cell]? = some (.awaiting label e scope) →
    g.deferrals[cell]? = some (.awaiting label e scope) ∨ scope.InHand hand

namespace Updates

variable {base g g' : Grammar V α} {hand : List (Recognizer V α)}

/-- Other names. -/
theorem of_names {names : Table String (Recognizer V α)}
    (hnames : ∀ r ∈ names.values, r ∈ g.names.values ∨ r ∈ hand) :
    Updates base hand g { g with names } where
  widens := ⟨Nat.le_refl _, Nat.le_refl _, Nat.le_refl _, fun _ r hr => ⟨r, hr⟩⟩
  defined _ _ := rfl
  kept _ _ _ := rfl
  names := hnames
  definitions _ _ hr := .inl hr
  settled _ _ hr := .inl hr
  awaiting _ _ _ _ hcell := .inl hcell

/-- Other definitions. -/
theorem of_definitions {definitions : Array (Option (Recognizer V α))}
    (hsize : g.definitions.size ≤ definitions.size)
    (hfilled : ∀ (cell : Nat) (r : Recognizer V α), g.definitions[cell]? = some (some r) →
      ∃ r', definitions[cell]? = some (some r'))
    (hdefined : ∀ cell < base.definitions.size, definitions[cell]? = g.definitions[cell]?)
    (hdefinitions : ∀ (cell : Nat) (r : Recognizer V α), definitions[cell]? = some (some r) →
      g.definitions[cell]? = some (some r) ∨ r ∈ hand) :
    Updates base hand g { g with definitions } where
  widens := ⟨Nat.le_refl _, hsize, Nat.le_refl _, hfilled⟩
  defined := hdefined
  kept _ _ _ := rfl
  names _ hr := .inl hr
  definitions := hdefinitions
  settled _ _ hr := .inl hr
  awaiting _ _ _ _ hcell := .inl hcell

/-- Other deferrals. -/
theorem of_deferrals {deferrals : Array (Deferral V α)}
    (hsize : g.deferrals.size ≤ deferrals.size)
    (hkept : ∀ (cell : Nat) (r : Recognizer V α), base.deferrals[cell]? = some (.settled r) →
      deferrals[cell]? = g.deferrals[cell]?)
    (hsettled : ∀ (cell : Nat) (r : Recognizer V α), deferrals[cell]? = some (.settled r) →
      g.deferrals[cell]? = some (.settled r) ∨ r ∈ hand)
    (hawaiting : ∀ (cell : Nat) (label : String) (e : Expr V α) (scope : Scope V α),
      deferrals[cell]? = some (.awaiting label e scope) →
      g.deferrals[cell]? = some (.awaiting label e scope) ∨ scope.InHand hand) :
    Updates base hand g { g with deferrals } where
  widens := ⟨Nat.le_refl _, Nat.le_refl _, hsize, fun _ r hr => ⟨r, hr⟩⟩
  defined _ _ := rfl
  kept := hkept
  names _ hr := .inl hr
  definitions _ _ hr := .inl hr
  settled := hsettled
  awaiting := hawaiting

/-- What a step makes a cell hold is what some recognizer in hand holds. -/
theorem holds (h : Updates base hand g g') {l k : Link} (hstep : g'.Holds l k) :
    g.Holds l k ∨ ∃ r ∈ hand, k ∈ r.held := by
  unfold Holds linksBehind at hstep ⊢
  cases l with
  | definition cell =>
    dsimp only at hstep ⊢
    split at hstep
    next r hr =>
      rcases h.definitions cell r hr with hold | hnew
      · rw [hold]
        exact .inl hstep
      · exact .inr ⟨r, hnew, hstep⟩
    · cases hstep
  | deferred cell =>
    dsimp only at hstep ⊢
    split at hstep
    next r hr =>
      rcases h.settled cell r hr with hold | hnew
      · rw [hold]
        exact .inl hstep
      · exact .inr ⟨r, hnew, hstep⟩
    · cases hstep
  | self cell => cases hstep
  | unbound => cases hstep

end Updates

namespace Tended

variable {base g g' : Grammar V α} {hand : List (Recognizer V α)} {r : Recognizer V α}

/-- One more recognizer comes to hand. -/
theorem take (h : base.Tended g hand) (hgrounded : r.Grounded g) (hlent : base.LendsAll r) :
    base.Tended g (r :: hand) :=
  ⟨h.develops, h.grounded, List.forall_mem_cons.2 ⟨hgrounded, h.hand_grounded⟩,
    List.forall_mem_cons.2 ⟨hlent, h.hand_lent⟩⟩

/-- Fewer recognizers in hand are tended too. -/
theorem mono (h : base.Tended g hand) {hand' : List (Recognizer V α)}
    (hsub : ∀ r ∈ hand', r ∈ hand) : base.Tended g hand' :=
  ⟨h.develops, h.grounded, fun r hr => h.hand_grounded r (hsub r hr),
    fun r hr => h.hand_lent r (hsub r hr)⟩

/-- A step that changes a grammar by what is in hand tends it. -/
theorem update (h : base.Tended g hand) (hstep : Updates base hand g g') : base.Tended g' hand := by
  have hold := hstep.widens.groundedIn h.grounded
  have hhand : ∀ r ∈ hand, r.Grounded g' := fun r hr =>
    hstep.widens.grounded (h.hand_grounded r hr)
  refine ⟨?_, ?_, hhand, h.hand_lent⟩
  · exact {
      nextNode_le := Nat.le_trans h.develops.nextNode_le hstep.widens.nextNode_le
      definitions_le := Nat.le_trans h.develops.definitions_le hstep.widens.definitions_le
      deferrals_le := Nat.le_trans h.develops.deferrals_le hstep.widens.deferrals_le
      definitions := fun cell hcell =>
        (hstep.defined cell hcell).trans (h.develops.definitions cell hcell)
      settled := fun cell r hr => (hstep.kept cell r hr).trans (h.develops.settled cell r hr)
      holds := by
        intro l k hlk
        rcases hstep.holds hlk with hold | ⟨r, hr, hk⟩
        · exact h.develops.holds l k hold
        · exact .inr (h.hand_lent r hr k hk)
      names := fun r hr => (hstep.names r hr).elim (h.develops.names r) (h.hand_lent r) }
  · exact {
      names := fun r hr => (hstep.names r hr).elim (hold.names r) (hhand r)
      definitions := fun cell r hr =>
        (hstep.definitions cell r hr).elim (hold.definitions cell r) (hhand r)
      settled := fun cell r hr => (hstep.settled cell r hr).elim (hold.settled cell r) (hhand r)
      awaiting := by
        intro cell label e scope hcell x hx
        rcases hstep.awaiting cell label e scope hcell with hsame | hnew
        · exact hold.awaiting cell label e scope hsame x hx
        · exact ⟨hhand x.2 (hnew x hx).1, (hnew x hx).2⟩ }

/-- A step that gives out handles and changes stores. -/
theorem advance (h : base.Tended g hand) {node : Nat} (hnode : g.nextNode ≤ node)
    (stores : Stores V α) (nextSession : SessionId) :
    base.Tended { g with nextNode := node, stores, nextSession } hand :=
  h.update
    { widens := ⟨hnode, Nat.le_refl _, Nat.le_refl _, fun _ r hr => ⟨r, hr⟩⟩
      defined := fun _ _ => rfl
      kept := fun _ _ _ => rfl
      names := fun _ hr => .inl hr
      definitions := fun _ _ hr => .inl hr
      settled := fun _ _ hr => .inl hr
      awaiting := fun _ _ _ _ hcell => .inl hcell }

/-- A new recognizer is built over some that are in hand. -/
theorem newNode (h : base.Tended g hand) {shape : Shape V α (Recognizer V α)}
    (hparts : ∀ p ∈ shape.parts, p ∈ hand) :
    base.Tended (Grammar.newNode shape g).2 ((Grammar.newNode shape g).1 :: hand) := by
  have hnext := h.advance (Nat.le_succ g.nextNode) g.stores g.nextSession
  refine hnext.take (.node (Nat.lt_succ_self g.nextNode) ?_ ?_) ?_
  · exact fun p hp l hl => Shape.mem_held_iff.2 ⟨p, hp, hl⟩
  · exact fun p hp => hnext.hand_grounded p (hparts p hp)
  · intro l hl
    obtain ⟨p, hp, hl⟩ := Shape.mem_held_iff.1 hl
    exact h.hand_lent p (hparts p hp) l hl

/-- A new link has a cell and holds what has been lent. -/
theorem newLink (h : base.Tended g hand) {l : Link} (hl : l.Founded g)
    (hlent : ∀ k ∈ l.held, base.Lends k) :
    base.Tended (Grammar.newLink l g).2 ((Grammar.newLink l g).1 :: hand) := by
  have hnext := h.advance (Nat.le_succ g.nextNode) g.stores g.nextSession
  exact hnext.take
    (.link (Nat.lt_succ_self g.nextNode) (fun k hk => hk) (by cases l <;> exact hl)) hlent

/-- Toggling gives a handle that holds the same. -/
theorem withCaching (h : base.Tended g hand) (on : Bool) (hr : r ∈ hand) :
    base.Tended (Grammar.withCaching r on g).2 ((Grammar.withCaching r on g).1 :: hand) := by
  rcases withCaching_cases r on g with heq | ⟨caching, stores, -, -, heq⟩
  · rw [heq]
    exact h.take (h.hand_grounded r hr) (h.hand_lent r hr)
  · rw [heq]
    have hnext := h.advance (Nat.le_succ g.nextNode) stores g.nextSession
    refine hnext.take ((hnext.hand_grounded r hr).withHandle (Nat.lt_succ_self g.nextNode) rfl) ?_
    intro l hl
    rw [Recognizer.held, Recognizer.handle_withHandle] at hl
    exact h.hand_lent r hr l hl

/-- A name is bound to a recognizer that is in hand. -/
theorem bind (h : base.Tended g hand) (name : String) (hr : r ∈ hand) :
    base.Tended (g.bind name r) hand := by
  refine h.update (.of_names ?_)
  intro x hx
  rcases Table.mem_values_put hx with rfl | hold
  · exact .inr hr
  · exact .inl hold

/-- A name is removed. -/
theorem unbind (h : base.Tended g hand) (name : String) : base.Tended (g.unbind name) hand := by
  refine h.update (.of_names ?_)
  intro x hx
  obtain ⟨e, he, rfl⟩ := List.mem_map.1 hx
  exact .inl (List.mem_map_of_mem (List.mem_filter.1 he).1)

/-- A new cell for a definition is empty. -/
theorem newDefinition (h : base.Tended g hand) : base.Tended (Grammar.newDefinition g).2 hand := by
  have hsame : ∀ cell < g.definitions.size,
      (g.definitions.push none)[cell]? = g.definitions[cell]? := by
    intro cell hlt
    rw [Array.getElem?_push_lt hlt, Array.getElem?_eq_getElem hlt]
  show base.Tended { g with definitions := g.definitions.push none } hand
  refine h.update (.of_definitions (by simp) ?_ ?_ ?_)
  · exact fun cell r hr => ⟨r, (hsame cell (Array.getElem?_eq_some_iff.1 hr).1).trans hr⟩
  · exact fun cell hlt => hsame cell (Nat.lt_of_lt_of_le hlt h.develops.definitions_le)
  · intro cell r hr
    rw [Array.getElem?_push] at hr
    split at hr
    · cases hr
    · exact .inl hr

/-- A cell that is new is filled with a recognizer in hand. -/
theorem define (h : base.Tended g hand) {cell : Nat} (hcell : base.definitions.size ≤ cell)
    (hr : r ∈ hand) : base.Tended (Grammar.define cell r g).2 hand := by
  show base.Tended { g with definitions := g.definitions.setIfInBounds cell (some r) } hand
  refine h.update (.of_definitions (by simp) ?_ ?_ ?_)
  · intro c x hx
    by_cases hc : cell = c
    · subst hc
      exact ⟨r, Array.getElem?_setIfInBounds_self_of_lt (Array.getElem?_eq_some_iff.1 hx).1⟩
    · exact ⟨x, (Array.getElem?_setIfInBounds_ne hc).trans hx⟩
  · exact fun c hc => Array.getElem?_setIfInBounds_ne (by omega)
  · intro c x hx
    rw [Array.getElem?_setIfInBounds] at hx
    split at hx
    · split at hx
      · cases hx
        exact .inr hr
      · cases hx
    · exact .inl hx

/-- A deferral keeps what the names around it stand for. -/
theorem newDeferral (h : base.Tended g hand) (label : String) (e : Expr V α) {scope : Scope V α}
    (hscope : scope.InHand hand) :
    base.Tended (Grammar.newDeferral (.awaiting label e scope) g).2 hand := by
  show base.Tended { g with deferrals := g.deferrals.push (.awaiting label e scope) } hand
  refine h.update (.of_deferrals (by simp) ?_ ?_ ?_)
  · intro cell r hr
    have hlt : cell < g.deferrals.size :=
      Nat.lt_of_lt_of_le (Array.getElem?_eq_some_iff.1 hr).1 h.develops.deferrals_le
    exact (Array.getElem?_push_lt hlt).trans (Array.getElem?_eq_getElem hlt).symm
  · intro cell r hr
    rw [Array.getElem?_push] at hr
    split at hr
    · cases hr
    · exact .inl hr
  · intro cell label' e' scope' hr
    rw [Array.getElem?_push] at hr
    split at hr
    · cases hr
      exact .inr hscope
    · exact .inl hr

/-- A deferral is settled with a recognizer in hand. -/
theorem settle (h : base.Tended g hand) {cell : Nat}
    (hcell : ∀ x, base.deferrals[cell]? ≠ some (.settled x)) (hr : r ∈ hand) :
    base.Tended (Grammar.settle cell r g).2 hand := by
  show base.Tended { g with deferrals := g.deferrals.setIfInBounds cell (.settled r) } hand
  refine h.update (.of_deferrals (by simp) ?_ ?_ ?_)
  · intro c x hx
    apply Array.getElem?_setIfInBounds_ne
    rintro rfl
    exact hcell x hx
  · intro c x hx
    rw [Array.getElem?_setIfInBounds] at hx
    split at hx
    · split at hx
      · cases hx
        exact .inr hr
      · cases hx
    · exact .inl hx
  · intro c label e scope hx
    rw [Array.getElem?_setIfInBounds] at hx
    split at hx
    · split at hx <;> cases hx
    · exact .inl hx

/-! ## Building -/

/-- A deferred expression gets a cell, and a link to it. -/
theorem deferred (h : base.Tended g hand) (label : String) (e : Expr V α) {scope : Scope V α}
    (hscope : scope.InHand hand) :
    base.Tended (Grammar.build scope (.deferred label e) g).2
      ((Grammar.build scope (.deferred label e) g).1 :: hand) := by
  have hbuild : Grammar.build scope (.deferred label e) g =
      Grammar.newLink (.deferred g.deferrals.size)
        (Grammar.newDeferral (.awaiting label e scope) g).2 := by
    rw [Grammar.build]
    rfl
  have hcell : (Link.deferred g.deferrals.size).Founded
      (Grammar.newDeferral (.awaiting label e scope) g).2 := by
    simp [Link.Founded, Grammar.newDeferral]
  rw [hbuild]
  refine (h.newDeferral label e hscope).newLink hcell ?_
  intro k hk hbase
  -- the cell is new
  cases List.mem_singleton.1 hk
  exact absurd (mem_allLinks_deferred.1 hbase) (Nat.not_lt.2 h.develops.deferrals_le)

/-- A name gives what it stands for, which is in hand or in the table. -/
theorem ref (h : base.Tended g hand) {scope : Scope V α}
    (hscope : scope.InHand hand) (name : String) :
    base.Tended (Grammar.build scope (.ref name) g).2
      ((Grammar.build scope (.ref name) g).1 :: hand) := by
  cases hname : g.resolve? scope name with
  | some r =>
    rw [build_ref hname]
    rcases resolve?_eq_some hname with ⟨n, hmem⟩ | hmem
    · have hr : r ∈ hand := (hscope _ hmem).1
      exact h.take (h.hand_grounded r hr) (h.hand_lent r hr)
    · exact h.take (h.grounded.names r hmem) (h.develops.names r hmem)
  | none =>
    rw [build_unresolved hname]
    exact h.newLink trivial fun k hk => by cases hk

end Tended

/-- The grammar after the build function of a definition has returned a recognizer, and the
owner of the definition. -/
def concluded (g : Grammar V α) (cell : Nat) (r : Recognizer V α) :
    Recognizer V α × Grammar V α :=
  newLink (.definition cell) (define cell r g).2

namespace Tended

variable {base g : Grammar V α} {hand : List (Recognizer V α)} {r : Recognizer V α}

/-- A build function is given a link to its definition. -/
theorem opened (h : base.Tended g hand) : base.Tended g.opened.2 (g.opened.1 :: hand) := by
  refine h.newDefinition.newLink ?_ fun k hk => by cases hk
  simp [Link.Founded, Grammar.newDefinition]

/-- A definition is concluded with a recognizer in hand. -/
theorem concluded (h : base.Tended g hand) {cell : Nat} (hbase : base.definitions.size ≤ cell)
    (hcell : cell < g.definitions.size) (hr : r ∈ hand) :
    base.Tended (g.concluded cell r).2 ((g.concluded cell r).1 :: hand) := by
  refine (h.define hbase hr).newLink ⟨r, Array.getElem?_setIfInBounds_self_of_lt hcell⟩ ?_
  intro k hk hlink
  -- the cell is new
  cases List.mem_singleton.1 hk
  exact absurd (mem_allLinks_definition.1 hlink) (Nat.not_lt.2 hbase)

/-- The parts of a list are built one after the other. -/
theorem buildParts {scope : Scope V α} {es : List (Expr V α)}
    (hparts : ∀ e ∈ es, ∀ {g : Grammar V α} {hand : List (Recognizer V α)}, base.Tended g hand →
      scope.InHand hand →
      base.Tended (Grammar.build scope e g).2 ((Grammar.build scope e g).1 :: hand))
    (h : base.Tended g hand) (hscope : scope.InHand hand) :
    base.Tended (Grammar.buildParts scope es g).2 ((Grammar.buildParts scope es g).1 ++ hand) := by
  induction es generalizing g hand with
  | nil => exact h
  | cons e es ih =>
    rw [Grammar.buildParts]
    have hfirst := hparts e List.mem_cons_self h hscope
    have hrest := ih (fun e' he' => hparts e' (List.mem_cons_of_mem e he')) hfirst (hscope.take _)
    refine hrest.mono ?_
    intro r hr
    have hr : r ∈ (Grammar.build scope e g).1 ::
      ((Grammar.buildParts scope es (Grammar.build scope e g).2).1 ++ hand) := hr
    simpa [or_left_comm] using hr

/-- Building an expression develops a grammar and keeps it grounded. -/
theorem build {e : Expr V α} {scope : Scope V α} (h : base.Tended g hand)
    (hscope : scope.InHand hand) :
    base.Tended (Grammar.build scope e g).2 ((Grammar.build scope e g).1 :: hand) := by
  have huses : e.Uses fun _ => True := e.uses_of_forall fun _ => trivial
  induction huses generalizing scope g hand with
  | @make shape _ _ ih =>
    have hbuild : Grammar.build scope (.make shape) g =
        Grammar.newNode (shape.withParts (Grammar.buildParts scope shape.parts g).1)
          (Grammar.buildParts scope shape.parts g).2 := by
      rw [Grammar.build, buildShape_eq, bind_assoc]
      rfl
    have hparts := buildParts (fun p hp _ _ h hscope => ih p hp h hscope) h hscope
    rw [hbuild]
    refine (hparts.newNode ?_).mono ?_
    · rw [shape.parts_withParts (buildParts_length scope shape.parts g)]
      exact fun p hp => List.mem_append_left _ hp
    · intro r hr
      rcases List.mem_cons.1 hr with rfl | hr
      · exact List.mem_cons_self
      · exact List.mem_cons_of_mem _ (List.mem_append_right _ hr)
  | @cached on e _ ih =>
    rw [Grammar.build]
    refine ((ih h hscope).withCaching on List.mem_cons_self).mono ?_
    intro r hr
    rcases List.mem_cons.1 hr with rfl | hr
    · exact List.mem_cons_self
    · exact List.mem_cons_of_mem _ (List.mem_cons_of_mem _ hr)
  | @deferred label e _ _ => exact h.deferred label e hscope
  | @recursive name body _ ih =>
    have hbody : base.Tended (g.bodyBuilt scope name body).2
        ((g.bodyBuilt scope name body).1 :: g.opened.1 :: hand) :=
      ih h.opened (hscope.cons name rfl)
    have hself := hbody.hand_grounded g.opened.1 (by simp) _ .refl
    rw [build_recursive]
    refine (hbody.concluded h.develops.definitions_le (hself.founded _ _ rfl)
      List.mem_cons_self).mono ?_
    intro r hr
    rcases List.mem_cons.1 hr with rfl | hr
    · exact List.mem_cons_self
    · simp [hr]
  | @named name e _ ih =>
    rw [Grammar.build]
    exact (ih h hscope).bind name List.mem_cons_self
  | ref name => exact h.ref hscope name

end Tended

/-- What a deferral builds in the scope that it has kept tends its grammar. -/
theorem Grounded.awaited {g : Grammar V α} (hg : g.Grounded) {cell : Nat} {label : String}
    {e : Expr V α} {scope : Scope V α}
    (hcell : g.deferrals[cell]? = some (.awaiting label e scope)) :
    g.Tended (build scope e g).2 ((build scope e g).1 :: scope.map Prod.snd) := by
  have hscope := hg.awaiting cell label e scope hcell
  have hstart : g.Tended g (scope.map Prod.snd) := by
    refine ⟨.refl g, hg, ?_, ?_⟩
    · intro r hr
      obtain ⟨x, hx, rfl⟩ := List.mem_map.1 hr
      exact (hscope x hx).1
    · intro r hr l hl
      obtain ⟨x, hx, rfl⟩ := List.mem_map.1 hr
      rw [(hscope x hx).2] at hl
      cases hl
  exact hstart.build fun x hx => ⟨List.mem_map_of_mem hx, (hscope x hx).2⟩

/-- A deferral that is settled with what it builds tends its grammar. -/
theorem Grounded.supplied {g : Grammar V α} (hg : g.Grounded) {cell : Nat} {label : String}
    {e : Expr V α} {scope : Scope V α}
    (hcell : g.deferrals[cell]? = some (.awaiting label e scope)) :
    g.Tended (settle cell (build scope e g).1 (build scope e g).2).2 [(build scope e g).1] := by
  refine ((hg.awaited hcell).settle ?_ List.mem_cons_self).mono ?_
  · intro x hx
    rw [hcell] at hx
    cases hx
  · intro r hr
    rw [List.mem_singleton.1 hr]
    exact List.mem_cons_self

/-! ## Running -/

/-- Changes to stores and sessions leave a grammar what it is. -/
theorem Grounded.onStores {g : Grammar V α} (hg : g.Grounded) (stores : Stores V α)
    (nextSession : SessionId) :
    Grammar.Grounded { g with stores, nextSession } ∧
      g.Develops { g with stores, nextSession } := by
  have hstart : g.Tended g [] := ⟨.refl g, hg, by simp, by simp⟩
  have hnext := hstart.advance (Nat.le_refl g.nextNode) stores nextSession
  exact ⟨hnext.grounded, hnext.develops⟩

end Grammar

/-- Whether a run has come to a grounded later state of a grammar. -/
def Run.Grown (g : Grammar V α) (run : Run V α) : Prop :=
  run.grammar.Grounded ∧ g.Develops run.grammar

namespace Run

variable (run : Run V α)

/-- A call that is over keeps the grammar grounded. -/
theorem grown_built (hg : run.grammar.Grounded) (s : StoreId) (k : Nat) (ending : Ending V α) :
    (Act.built s k ending run).Grown run.grammar := by
  unfold Act.built
  cases ending with
  | error e => exact ⟨hg, .refl run.grammar⟩
  | ok outcome =>
    cases run.session with
    | none => exact ⟨hg, .refl run.grammar⟩
    | some ses => exact hg.onStores _ run.grammar.nextSession

/-- The start of a parse keeps the grammar grounded. -/
theorem grown_opened (hg : run.grammar.Grounded) (ctx : Context V α) (root : Recognizer V α) :
    (run.opened ctx root).Grown run.grammar := by
  unfold opened
  split
  · exact hg.onStores run.grammar.stores (run.grammar.nextSession + 1)
  · exact ⟨hg, .refl run.grammar⟩

/-- The end of a parse keeps the grammar grounded. -/
theorem grown_closed (hg : run.grammar.Grounded) (outer : Option Session) (ending : Ending V α) :
    (run.closed outer ending).Grown run.grammar := by
  unfold closed
  split
  · exact hg.onStores _ run.grammar.nextSession
  · exact ⟨hg, .refl run.grammar⟩

/-- Clearing keeps the grammar grounded. -/
theorem grown_cleared (hg : run.grammar.Grounded) (t : Recognizer V α) :
    Grown run.grammar { run with grammar := run.grammar.dropTraces t } := by
  obtain ⟨stores, heq, -⟩ := run.grammar.dropTraces_eq t
  unfold Grown
  rw [heq]
  exact hg.onStores stores run.grammar.nextSession

end Run

/-- A link is followed in the same context, or in one that holds what has been found. -/
theorem Act.context_followed {ctx : Context V α} {l : Link} {run run' : Run V α}
    {x : Context V α × Recognizer V α} (h : Act.follow ctx l run = some (.ok (some x), run')) :
    x.1 = ctx ∨ x.1 = ctx.hold x.2 := by
  have hsame : ∀ {hold : Recognizer V α → Context V α} {found : Option (Recognizer V α)}
      {mid : Run V α}, (∀ r, hold r = ctx ∨ hold r = ctx.hold r) →
      (some (.ok (found.map fun r => (hold r, r)), mid) :
        Option (Except ParseError (Option (Context V α × Recognizer V α)) × Run V α)) =
          some (.ok (some x), run') → x.1 = ctx ∨ x.1 = ctx.hold x.2 := by
    intro hold found mid hhold heq
    cases found with
    | none => cases heq
    | some r =>
      cases heq
      exact hhold r
  cases l with
  | definition cell => exact hsame (fun _ => .inl rfl) h
  | self cell => exact hsame (fun _ => .inr rfl) h
  | unbound => cases h
  | deferred cell =>
    have hstep : follow ctx (.deferred cell) run =
        (settled cell >>= fun found => pure (found.map fun r => (ctx, r))) run := rfl
    rw [hstep, bind_apply] at h
    obtain ⟨⟨ending, mid⟩, -, h⟩ := Option.bind_eq_some_iff.1 h
    cases ending with
    | error e => cases h
    | ok found => exact hsame (fun _ => .inl rfl) h

/-- What a context holds it goes on to hold. -/
theorem Context.mem_held_hold {ctx : Context V α} {r x : Recognizer V α} (h : x ∈ ctx.held) :
    x ∈ (ctx.hold r).held := by
  unfold hold
  split
  · exact h
  · exact List.mem_cons_of_mem _ h

/-- A run develops its grammar, and holds the recognizer that it started from all the time. -/
def developing (root : Recognizer V α) : Conduct V α where
  Ok _ run := run.grammar.Grounded
  Knows g r := r.Grounded g
  Sees ctx := root ∈ ctx.held
  Goes run _ run' := run.grammar.Develops run'.grammar
  Fair _ := True
  refl run := .refl run.grammar
  trans h h' := h.trans h'
  knows_goes h hr := h.widens.grounded hr
  knows_part h hp := h.part hp
  entered _ _ _ := trivial
  working _ _ _ := trivial
  returned _ _ _ _ := trivial
  noted {_} {run} _ _ h := ⟨h, .refl run.grammar⟩
  cleared {_} {run} {_} {t} {_} h _ := run.grown_cleared h t
  followed := by
    intro nesting run run' ctx handle target found h hsees hknows hfollow
    have hctx : ∀ x ∈ found, root ∈ x.1.held := by
      intro x hx
      cases hx
      rcases Act.context_followed hfollow with heq | heq
      · rw [heq]
        exact hsees
      · rw [heq]
        exact Context.mem_held_hold hsees
    rcases Act.follow_cases ctx target run with ⟨found', hfollow', hfound⟩ |
      ⟨cell, label, e, scope, hcell, hfollow'⟩
    · rw [hfollow'] at hfollow
      cases hfollow
      refine ⟨h, .refl run.grammar, ?_⟩
      intro x hx
      refine ⟨hctx x hx, ?_⟩
      rcases hfound x hx with ⟨cell, hcell⟩ | ⟨cell, hcell⟩
      · exact h.definitions cell x.2 hcell
      · exact h.settled cell x.2 hcell
    · rw [hfollow'] at hfollow
      cases hfollow
      have hsupplied := h.supplied hcell
      refine ⟨hsupplied.grounded, hsupplied.develops, ?_⟩
      intro x hx
      refine ⟨hctx x hx, ?_⟩
      cases hx
      exact hsupplied.hand_grounded _ (by simp)
  straight := by
    intro nesting run r pos h hknows _
    exact ⟨h, fun l mid ending hmid hgoes => ⟨hmid, hgoes⟩⟩
  replays := by
    intro nesting run r pos ses outcome h _ _
    exact ⟨h, .refl run.grammar⟩
  builds := by
    intro nesting run r pos s ses h _ _
    refine ⟨h, fun l mid ending hmid hgoes => ⟨fun _ _ => trivial, ?_⟩⟩
    have hbuilt := mid.grown_built hmid s ses.ordinal ending
    exact ⟨hbuilt.1, Grammar.Develops.trans hgoes hbuilt.2⟩
  nested := by
    intro nesting run ctx handle sub p h hsees hknows
    have hopened := run.grown_opened h (ctx.inside sub p) p
    refine ⟨hopened.1, List.mem_cons_of_mem _ hsees, hopened.2.widens.grounded
      (hknows.part (by simp [Shape.parts])), ?_⟩
    intro l mid ending hmid hgoes
    have hclosed := mid.grown_closed hmid run.session ending
    exact ⟨trivial, hclosed.1, hopened.2.trans (Grammar.Develops.trans hgoes hclosed.2)⟩

/-! ## Parses and attempts -/

section Growth

variable {attempt : Attempt V α} {watch : Watch V α} {root r : Recognizer V α} {ctx : Context V α}
  {run run' : Run V α} {pos : Position} {ending : Ending V α}

/-- An attempt lets a grammar grow. -/
theorem Attempt.grown (h : (developing root).Keeps attempt watch) (hg : run.grammar.Grounded)
    (hroot : root ∈ ctx.held) (hr : r.Grounded run.grammar)
    (heq : attempt ctx r pos run = some (ending, run')) : run'.Grown run.grammar :=
  (h ⟨{ root, input := ctx.input }, []⟩ ctx r pos run hg hroot hr).goes ending run' heq

/-- A script lets a grammar grow when the attempts in it do. -/
theorem Script.grown_play (h : (developing root).Keeps attempt watch) {handle : Handle}
    {shape : Shape V α (Recognizer V α)} {script : Script V α} (hscript : script.Within shape)
    (hg : run.grammar.Grounded) (hroot : root ∈ ctx.held)
    (hshape : (Recognizer.node handle shape).Grounded run.grammar)
    (heq : script.play attempt ctx run = some (ending, run')) : run'.Grown run.grammar := by
  have hok : (developing root).Ok ⟨{ root, input := ctx.input }, []⟩ run := hg
  exact (Conduct.passes_play h hroot hscript hok hshape).goes ending run' heq

/-- A recognizer's own logic lets a grammar grow when the attempts in it do. -/
theorem Recognizer.grown_work (h : (developing root).Keeps attempt watch) {limit : Nat}
    (hg : run.grammar.Grounded) (hroot : root ∈ ctx.held) (hr : r.Grounded run.grammar)
    (heq : r.work attempt limit ctx pos run = some (ending, run')) : run'.Grown run.grammar := by
  have hok : (developing root).Ok ⟨{ root, input := ctx.input }, []⟩ run := hg
  exact (Conduct.passes_work h limit pos hok hroot hr).goes ending run' heq

/-- Following a link lets a grammar grow, and gives what is grounded. -/
theorem Act.grown_follow {handle : Handle} {l : Link}
    {found : Option (Context V α × Recognizer V α)} (hg : run.grammar.Grounded)
    (hroot : root ∈ ctx.held) (hl : (Recognizer.link handle l).Grounded run.grammar)
    (heq : Act.follow ctx l run = some (.ok found, run')) :
    run'.Grown run.grammar ∧ ∀ x ∈ found, root ∈ x.1.held ∧ x.2.Grounded run'.grammar := by
  have hok : (developing root).Ok ⟨{ root, input := ctx.input }, []⟩ run := hg
  have hfollowed := (developing root).followed hok hroot hl heq
  exact ⟨⟨hfollowed.1, hfollowed.2.1⟩, hfollowed.2.2⟩

end Growth

namespace Grammar

section Runs

variable {g : Grammar V α}

/-- A parse leads to a grounded later state, past the one in which the attempt of its root has
ended. -/
theorem Grounded.parsed (hg : g.Grounded) {q : Query V α} (hroot : q.root.Grounded g)
    {limit : Nat} {report : Report V α} (h : q.parse? g limit = some report) :
    report.grammar.Grounded ∧ g.Develops report.grammar ∧
      ∃ mid, SlotGrammar.exec limit q.context q.root .start (q.opened g) =
        some (report.ending, mid) ∧ mid.grammar.Develops report.grammar := by
  obtain ⟨mid, hmid, hgrammar, -⟩ := q.exec_of_parse? h
  have hopened : (q.opened g).Grown g :=
    ({ grammar := g } : Run V α).grown_opened hg q.context q.root
  have hend := Attempt.grown ((developing q.root).passes_exec limit) hopened.1 List.mem_cons_self
    (hopened.2.widens.grounded hroot) hmid
  have hclosed := mid.grown_closed hend.1 none report.ending
  rw [hgrammar]
  exact ⟨hclosed.1, (hopened.2.trans hend.2).trans hclosed.2, mid, hmid, hclosed.2⟩

/-- An attempt by itself leads to a grounded later state. -/
theorem Grounded.attempted (hg : g.Grounded) {root : Recognizer V α} (hroot : root.Grounded g)
    {limit : Nat} {input : Fragments} {values : List V} {window : ErrorWindow} {pos : Position}
    {report : Report V α} (h : g.exec? limit root input values window pos = some report) :
    report.grammar.Grounded ∧ g.Develops report.grammar := by
  obtain ⟨⟨ending, mid⟩, hmid, rfl⟩ := Option.map_eq_some_iff.1 h
  have hstart : ({ grammar := g } : Run V α).grammar.Grounded := hg
  exact Attempt.grown ((developing root).passes_exec limit) hstart List.mem_cons_self hroot hmid

end Runs

/-! ## Grammars under way -/

end Grammar

/-- A toggling: what was in hand then, the handle that was asked and for what, and the handle
that came back. -/
structure Toggle (V α : Type) where
  hand : List (Recognizer V α)
  receiver : Recognizer V α
  on : Bool
  result : Recognizer V α

/-- What has been done with a grammar: the togglings, and what happened in its runs, the latest
first. -/
structure Past (V α : Type) where
  toggles : List (Toggle V α) := []
  events : List (Event V α) := []

namespace Past

/-- One more toggling. -/
def toggled (past : Past V α) (t : Toggle V α) : Past V α :=
  { past with toggles := t :: past.toggles }

/-- One more run. -/
def ran (past : Past V α) (report : Report V α) : Past V α :=
  { past with events := report.events.reverse ++ past.events }

end Past

namespace Grammar

/-- Whether a grammar comes from the empty one by some uses, in which some recognizers have come
to hand, while some definitions are still being built.  These stand under their names in the
scope, the innermost first.  The build function of a definition may use the grammar in any way
before it returns. -/
inductive Underway : Past V α → Scope V α → Grammar V α → List (Recognizer V α) → Prop where
  | empty : Underway {} [] {} []
  | build {past : Past V α} {scope : Scope V α} {g : Grammar V α} {hand : List (Recognizer V α)}
      (h : Underway past scope g hand) (e : Expr V α) :
      Underway past scope (build scope e g).2 ((build scope e g).1 :: hand)
  | begin {past : Past V α} {scope : Scope V α} {g : Grammar V α} {hand : List (Recognizer V α)}
      (h : Underway past scope g hand) (name : String) :
      Underway past ((name, g.opened.1) :: scope) g.opened.2 (g.opened.1 :: hand)
  | conclude {past : Past V α} {scope : Scope V α} {g : Grammar V α}
      {hand : List (Recognizer V α)} {name : String} {handle : Handle} {cell : Nat}
      {r : Recognizer V α} (h : Underway past ((name, .link handle (.self cell)) :: scope) g hand)
      (hr : r ∈ hand) : Underway past scope (g.concluded cell r).2 ((g.concluded cell r).1 :: hand)
  | bind {past : Past V α} {scope : Scope V α} {g : Grammar V α} {hand : List (Recognizer V α)}
      {r : Recognizer V α} (h : Underway past scope g hand) (name : String) (hr : r ∈ hand) :
      Underway past scope (g.bind name r) hand
  | unbind {past : Past V α} {scope : Scope V α} {g : Grammar V α} {hand : List (Recognizer V α)}
      (h : Underway past scope g hand) (name : String) : Underway past scope (g.unbind name) hand
  | find {past : Past V α} {scope : Scope V α} {g : Grammar V α} {hand : List (Recognizer V α)}
      {name : String} {r : Recognizer V α} (h : Underway past scope g hand)
      (hr : g.find? name = some r) : Underway past scope g (r :: hand)
  | toggle {past : Past V α} {scope : Scope V α} {g : Grammar V α} {hand : List (Recognizer V α)}
      {r : Recognizer V α} (h : Underway past scope g hand) (on : Bool) (hr : r ∈ hand) :
      Underway (past.toggled ⟨hand, r, on, (withCaching r on g).1⟩) scope (withCaching r on g).2
        ((withCaching r on g).1 :: hand)
  | clear {past : Past V α} {scope : Scope V α} {g : Grammar V α} {hand : List (Recognizer V α)}
      {t : Recognizer V α} (h : Underway past scope g hand) (ht : t ∈ hand) :
      Underway past scope (g.dropTraces t) hand
  | parse {past : Past V α} {scope : Scope V α} {g : Grammar V α} {hand : List (Recognizer V α)}
      {q : Query V α} {limit : Nat} {report : Report V α} (h : Underway past scope g hand)
      (hroot : q.root ∈ hand) (hreport : q.parse? g limit = some report) :
      Underway (past.ran report) scope report.grammar hand
  | exec {past : Past V α} {scope : Scope V α} {g : Grammar V α} {hand : List (Recognizer V α)}
      {root : Recognizer V α} {limit : Nat} {input : Fragments} {values : List V}
      {window : ErrorWindow} {pos : Position} {report : Report V α}
      (h : Underway past scope g hand) (hroot : root ∈ hand)
      (hreport : g.exec? limit root input values window pos = some report) :
      Underway (past.ran report) scope report.grammar hand

/-- Seen from the empty grammar, in which no cell is old, what is grounded is tended. -/
theorem Grounded.tended {g : Grammar V α} (hg : g.Grounded) {hand : List (Recognizer V α)}
    (hhand : ∀ r ∈ hand, r.Grounded g) : ({} : Grammar V α).Tended g hand :=
  ⟨.of_empty g, hg, hhand, fun _ _ _ _ hcell => by cases hcell⟩

/-- Whatever has been done with a grammar, it is grounded, with all recognizers that have come
to hand, and what stands for the definitions that are being built is in hand and holds
nothing. -/
theorem Underway.tended {past : Past V α} {scope : Scope V α} {g : Grammar V α}
    {hand : List (Recognizer V α)} (h : Underway past scope g hand) :
    ({} : Grammar V α).Tended g hand ∧ scope.InHand hand := by
  induction h with
  | empty => exact ⟨Grounded.tended ⟨by simp [Table.values, Table.empty], by simp, by simp, by simp⟩
      (by simp), fun x hx => by cases hx⟩
  | build _ e ih => exact ⟨ih.1.build ih.2, ih.2.take _⟩
  | begin _ name ih => exact ⟨ih.1.opened, ih.2.cons name rfl⟩
  | conclude _ hr ih =>
    have hnamed := List.forall_mem_cons.1 ih.2
    have hself := ih.1.hand_grounded _ hnamed.1.1 _ .refl
    exact ⟨ih.1.concluded (Nat.zero_le _) (hself.founded _ _ rfl) hr, Scope.InHand.take hnamed.2 _⟩
  | bind _ name hr ih => exact ⟨ih.1.bind name hr, ih.2⟩
  | unbind _ name ih => exact ⟨ih.1.unbind name, ih.2⟩
  | find _ hr ih =>
    have hnamed := ih.1.grounded.names _ (List.mem_map.2 ⟨_, Table.mem_of_lookup hr, rfl⟩)
    exact ⟨ih.1.grounded.tended (List.forall_mem_cons.2 ⟨hnamed, ih.1.hand_grounded⟩), ih.2.take _⟩
  | toggle _ on hr ih => exact ⟨ih.1.withCaching on hr, ih.2.take _⟩
  | @clear past scope g hand t _ _ ih =>
    obtain ⟨stores, heq, -⟩ := g.dropTraces_eq t
    rw [heq]
    exact ⟨ih.1.advance (Nat.le_refl g.nextNode) stores g.nextSession, ih.2⟩
  | parse _ hroot hreport ih =>
    have hparsed := ih.1.grounded.parsed (ih.1.hand_grounded _ hroot) hreport
    exact ⟨hparsed.1.tended fun r hr => hparsed.2.1.widens.grounded (ih.1.hand_grounded r hr), ih.2⟩
  | exec _ hroot hreport ih =>
    have hend := ih.1.grounded.attempted (ih.1.hand_grounded _ hroot) hreport
    exact ⟨hend.1.tended fun r hr => hend.2.widens.grounded (ih.1.hand_grounded r hr), ih.2⟩

end Grammar

end SlotGrammar
