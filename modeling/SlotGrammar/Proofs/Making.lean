import SlotGrammar.Proofs.Following

/-!
# What expressions make

The recognizer that is built from an expression has its shape, over recognizers that are
built from its parts.  Which handles these have says nothing about what they match, so
this file leaves them open: it says when a recognizer is one that an expression makes,
up to handles.

Main results:

- Theorem `buildShape_eq`: the parts of a shape are built from left to right.
- Theorem `Closed.build`: a closed expression makes the recognizer that is built from it,
  and this one reaches every definition that is built on the way.
-/

namespace SlotGrammar

variable {V α : Type}

/-! ## Shapes and their parts -/

/-- A shape over other parts.  Only lists of as many parts as the shape has make sense. -/
def Shape.withParts {ρ σ : Type} : Shape V α ρ → List σ → Shape V α σ
  | .leaf l, [] => .leaf l
  | .mapped transform _, [p] => .mapped transform p
  | .sequence _, ps => .sequence ps
  | .choice _, ps => .choice ps
  | .optional _, [p] => .optional p
  | .required _, [p] => .required p
  | .conditional _ _ _, [t, p, q] => .conditional t p q
  | .repeated _, [p] => .repeated p
  | .separated _ _, [p, d] => .separated p d
  | .butNot _ _, [p, q] => .butNot p q
  | .catching _, [p] => .catching p
  | .nested sub _, [p] => .nested sub p
  | .clearing _ _, [t, p] => .clearing t p
  | .counted label _, [p] => .counted label p
  | .probed label _, [p] => .probed label p
  | _, _ => .leaf .fail

/-- The parts of a shape over other parts are these. -/
theorem Shape.parts_withParts {ρ σ : Type} (shape : Shape V α ρ) {ps : List σ}
    (h : ps.length = shape.parts.length) : (shape.withParts ps).parts = ps := by
  cases shape <;> simp only [parts, List.length_cons, List.length_nil] at h
  case sequence => rfl
  case choice => rfl
  all_goals
    first
    | (obtain rfl := List.eq_nil_of_length_eq_zero h; rfl)
    | (obtain ⟨p, rfl⟩ := List.length_eq_one_iff.1 h; rfl)
    | (obtain ⟨p, q, rfl⟩ := List.length_eq_two.1 h; rfl)
    | (obtain ⟨p, q, r, rfl⟩ := List.length_eq_three.1 h; rfl)

namespace Grammar

/-- The parts of a shape are built from left to right. -/
theorem buildShape_eq (scope : Scope V α) (shape : Shape V α (Expr V α)) :
    buildShape scope shape = do return shape.withParts (← buildParts scope shape.parts) := by
  cases shape <;> simp only [buildShape, buildParts, Shape.parts, bind_assoc, pure_bind] <;> rfl

end Grammar

/-! ## Making -/

/-- What names may stand for. -/
abbrev Meaning (V α : Type) := String → Recognizer V α → Prop

/-- What names may stand for inside a recursive expression: its name stands for links to
the recognizer of its body. -/
def Meaning.within (S : Meaning V α) (ρ : Targets V α) (name : String) (r : Recognizer V α) :
    Meaning V α :=
  fun n q => if n = name then ∃ handle l, q = .link handle l ∧ ρ l = some r else S n q

/-- Whether a recognizer is one that an expression makes, up to handles. -/
inductive Expr.Makes (ρ : Targets V α) : Meaning V α → Expr V α → Recognizer V α → Prop where
  | make {S : Meaning V α} {shape : Shape V α (Expr V α)} {handle : Handle}
      {ps : List (Recognizer V α)} (hlength : ps.length = shape.parts.length)
      (h : ∀ x ∈ shape.parts.zip ps, Makes ρ S x.1 x.2) :
      Makes ρ S (.make shape) (.node handle (shape.withParts ps))
  | cached {S : Meaning V α} {on : Bool} {e : Expr V α} {handle : Handle} {p : Recognizer V α}
      (h : Makes ρ S e p) : Makes ρ S (.cached on e) (p.withHandle handle)
  | recursive {S : Meaning V α} {name : String} {body : Expr V α} {handle : Handle} {l : Link}
      {p : Recognizer V α} (hl : ρ l = some p) (h : Makes ρ (S.within ρ name p) body p) :
      Makes ρ S (.recursive name body) (.link handle l)
  | ref {S : Meaning V α} {name : String} {r : Recognizer V α} (h : S name r) :
      Makes ρ S (.ref name) r

namespace Expr.Makes

variable {ρ : Targets V α} {S : Meaning V α} {shape : Shape V α (Expr V α)} {e e' : Expr V α}
  {r : Recognizer V α}

/-- A shape makes recognizers with the shape, over what its parts make. -/
theorem parts (h : Expr.Makes ρ S (.make shape) r) :
    ∃ handle ps, List.Forall₂ (Expr.Makes ρ S) shape.parts ps ∧
      r = .node handle (shape.withParts ps) := by
  cases h with
  | make hlength h =>
    exact ⟨_, _, List.forall₂_iff_zip.2 ⟨hlength.symm, fun hx => h _ hx⟩, rfl⟩

/-- A shape over one part. -/
theorem one (h : Expr.Makes ρ S (.make shape) r) (hshape : shape.parts = [e]) :
    ∃ handle p, Expr.Makes ρ S e p ∧ r = .node handle (shape.withParts [p]) := by
  obtain ⟨handle, ps, hps, rfl⟩ := h.parts
  rw [hshape] at hps
  obtain ⟨p, _, hp, hnil, rfl⟩ := List.forall₂_cons_left_iff.1 hps
  cases hnil
  exact ⟨handle, p, hp, rfl⟩

/-- A shape over two parts. -/
theorem two (h : Expr.Makes ρ S (.make shape) r) (hshape : shape.parts = [e, e']) :
    ∃ handle p p', Expr.Makes ρ S e p ∧ Expr.Makes ρ S e' p' ∧
      r = .node handle (shape.withParts [p, p']) := by
  obtain ⟨handle, ps, hps, rfl⟩ := h.parts
  rw [hshape] at hps
  obtain ⟨p, _, hp, hrest, rfl⟩ := List.forall₂_cons_left_iff.1 hps
  obtain ⟨p', _, hp', hnil, rfl⟩ := List.forall₂_cons_left_iff.1 hrest
  cases hnil
  exact ⟨handle, p, p', hp, hp', rfl⟩

end Expr.Makes

/-- Whether an expression refers only to recursive expressions around it, and binds no
name and defers nothing. -/
inductive Expr.Closed : List String → Expr V α → Prop where
  | make {bound : List String} {shape : Shape V α (Expr V α)}
      (h : ∀ p ∈ shape.parts, Closed bound p) : Closed bound (.make shape)
  | cached {bound : List String} {on : Bool} {e : Expr V α} (h : Closed bound e) :
      Closed bound (.cached on e)
  | recursive {bound : List String} {name : String} {body : Expr V α}
      (h : Closed (name :: bound) body) : Closed bound (.recursive name body)
  | ref {bound : List String} {name : String} (h : name ∈ bound) : Closed bound (.ref name)

/-- Whether all shapes in an expression that binds no name and defers nothing have a
property. -/
inductive Expr.All (T : Shape V α (Expr V α) → Prop) : Expr V α → Prop where
  | make {shape : Shape V α (Expr V α)} (h : T shape) (hparts : ∀ p ∈ shape.parts, All T p) :
      All T (.make shape)
  | cached {on : Bool} {e : Expr V α} (h : All T e) : All T (.cached on e)
  | recursive {name : String} {body : Expr V α} (h : All T body) : All T (.recursive name body)
  | ref (name : String) : All T (.ref name)

namespace Expr

variable {bound : List String} {T : Shape V α (Expr V α) → Prop}

/-- A new recognizer is closed when all its parts are. -/
@[simp]
theorem closed_make_iff {shape : Shape V α (Expr V α)} :
    (make shape).Closed bound ↔ ∀ p ∈ shape.parts, p.Closed bound :=
  ⟨fun | .make h => h, .make⟩

/-- A handle is closed when what it is on is. -/
@[simp]
theorem closed_cached_iff {on : Bool} {e : Expr V α} :
    (cached on e).Closed bound ↔ e.Closed bound :=
  ⟨fun | .cached h => h, .cached⟩

/-- A definition is closed when its body is under one more name. -/
@[simp]
theorem closed_recursive_iff {name : String} {body : Expr V α} :
    (recursive name body).Closed bound ↔ body.Closed (name :: bound) :=
  ⟨fun | .recursive h => h, .recursive⟩

@[simp]
theorem closed_ref_iff {name : String} : (ref name : Expr V α).Closed bound ↔ name ∈ bound :=
  ⟨fun | .ref h => h, .ref⟩

/-- A new recognizer has shapes of some kind when it is of that kind and its parts have. -/
@[simp]
theorem all_make_iff {shape : Shape V α (Expr V α)} :
    (make shape).All T ↔ T shape ∧ ∀ p ∈ shape.parts, p.All T :=
  ⟨fun | .make h hparts => ⟨h, hparts⟩, fun h => .make h.1 h.2⟩

/-- A handle has the shapes of what it is on. -/
@[simp]
theorem all_cached_iff {on : Bool} {e : Expr V α} : (cached on e).All T ↔ e.All T :=
  ⟨fun | .cached h => h, .cached⟩

/-- A definition has the shapes of its body. -/
@[simp]
theorem all_recursive_iff {name : String} {body : Expr V α} :
    (recursive name body).All T ↔ body.All T :=
  ⟨fun | .recursive h => h, .recursive⟩

/-- A name has no shapes. -/
@[simp]
theorem all_ref (name : String) : (ref name : Expr V α).All T := .ref name

end Expr

/-! ## What is reached -/

section Reached

variable {ρ : Targets V α} {T : Shape V α (Expr V α) → Prop}

/-- Whether names only ever stand for links to what expressions with a property make. -/
def Consistent (ρ : Targets V α) (T : Shape V α (Expr V α) → Prop) (P : Meaning V α → Prop) :
    Prop :=
  ∀ S, P S → ∀ n q, S n q → ∃ handle l p, ∃ body : Expr V α, ∃ S', q = .link handle l ∧
    ρ l = some p ∧ body.All T ∧ P S' ∧ body.Makes ρ S' p

/-- Whether a recognizer is made by an expression in which all shapes have a property. -/
def MadeFrom (ρ : Targets V α) (T : Shape V α (Expr V α) → Prop) (r : Recognizer V α) : Prop :=
  ∃ P, Consistent ρ T P ∧ ∃ S, ∃ e : Expr V α, P S ∧ e.All T ∧ e.Makes ρ S r

/-- A recognizer with a shape is made by an expression with that shape. -/
theorem MadeFrom.node {handle : Handle} {shape : Shape V α (Recognizer V α)}
    (h : MadeFrom ρ T (.node handle shape)) :
    ∃ shape' ps, shape = shape'.withParts ps ∧ T shape' ∧ shape.parts = ps ∧
      ∀ p ∈ ps, MadeFrom ρ T p := by
  obtain ⟨P, hP, S, e, hS, hall, hmakes⟩ := h
  generalize hr : Recognizer.node handle shape = r at hmakes
  induction hmakes generalizing handle with
  | @make S shape' handle' ps hlength hparts _ =>
    cases hr
    cases hall with
    | make hT hall =>
      refine ⟨shape', ps, rfl, hT, shape'.parts_withParts hlength, ?_⟩
      intro p hp
      obtain ⟨n, hn, rfl⟩ := List.getElem_of_mem hp
      have hn' : n < shape'.parts.length := hlength ▸ hn
      have hzip : (shape'.parts[n], ps[n]) ∈ shape'.parts.zip ps := by
        rw [← List.getElem_zip (h := by simp [hn, hn'])]
        exact List.getElem_mem _
      exact ⟨P, hP, S, _, hS, hall _ (List.getElem_mem hn'), hparts _ hzip⟩
  | @cached S on e handle' p _ ih =>
    cases hall with
    | cached hall =>
      cases p with
      | node handle'' shape' =>
        cases hr
        exact ih hS hall rfl
      | link handle'' l => cases hr
  | recursive _ _ _ => cases hr
  | ref hname =>
    obtain ⟨_, _, _, _, _, rfl, _⟩ := hP _ hS _ _ hname
    cases hr

/-- What a link leads to is made by an expression as well. -/
theorem MadeFrom.target {handle : Handle} {l : Link} (h : MadeFrom ρ T (.link handle l))
    {r : Recognizer V α} (hr : ρ l = some r) : MadeFrom ρ T r := by
  obtain ⟨P, hP, S, e, hS, hall, hmakes⟩ := h
  generalize hq : Recognizer.link handle l = q at hmakes
  induction hmakes generalizing handle with
  | make _ _ _ => cases hq
  | @cached S on e handle' p _ ih =>
    cases hall with
    | cached hall =>
      cases p with
      | node handle'' shape => cases hq
      | link handle'' l' =>
        cases hq
        exact ih hS hall rfl
  | @recursive S name body handle' l' p hl hbody _ =>
    cases hq
    cases hall with
    | recursive hall =>
      rw [hr] at hl
      cases hl
      -- the name of the expression joins the names that were there before
      refine ⟨fun S' => P S' ∨ S' = S.within ρ name r, ?_, _, _, .inr rfl, hall, hbody⟩
      have hold : ∀ S', P S' → ∀ n q, S' n q → ∃ handle l p, ∃ body : Expr V α, ∃ S'',
          q = .link handle l ∧ ρ l = some p ∧ body.All T ∧ (P S'' ∨ S'' = S.within ρ name r) ∧
          body.Makes ρ S'' p := by
        intro S' hS' n q hq
        obtain ⟨handle, l, p, body, S'', hlink, hl, hall, hS'', hmakes⟩ := hP S' hS' n q hq
        exact ⟨handle, l, p, body, S'', hlink, hl, hall, .inl hS'', hmakes⟩
      rintro S' (hS' | rfl) n q hq
      · exact hold S' hS' n q hq
      · unfold Meaning.within at hq
        split at hq
        · obtain ⟨handle, l, rfl, hl⟩ := hq
          exact ⟨handle, l, r, body, _, rfl, hl, hall, .inr rfl, hbody⟩
        · exact hold S hS n q hq
  | ref hname =>
    obtain ⟨_, _, p, body, S', rfl, hl, hall, hS', hmakes⟩ := hP _ hS _ _ hname
    cases hq
    rw [hr] at hl
    cases hl
    exact ⟨P, hP, S', body, hS', hall, hmakes⟩

/-- The recognizers that expressions with a property make are closed under parts and
targets. -/
theorem closed_madeFrom (ρ : Targets V α) (T : Shape V α (Expr V α) → Prop) :
    SlotGrammar.Closed ρ (MadeFrom ρ T) := by
  refine ⟨fun h hp => ?_, fun h hr => h.target hr⟩
  obtain ⟨shape', ps, -, -, rfl, hparts⟩ := h.node
  exact hparts _ hp

end Reached

namespace Grammar

/-! ## Building more -/

/-- Whether a grammar has grown into another one by new definitions only. -/
structure Extends (g g' : Grammar V α) : Prop where
  names : g'.names = g.names
  deferrals : g'.deferrals = g.deferrals
  size_le : g.definitions.size ≤ g'.definitions.size
  kept : ∀ cell < g.definitions.size, g'.definitions[cell]? = g.definitions[cell]?

namespace Extends

variable {g g' g'' : Grammar V α}

theorem refl (g : Grammar V α) : Extends g g := ⟨rfl, rfl, Nat.le_refl _, fun _ _ => rfl⟩

theorem trans (h : Extends g g') (h' : Extends g' g'') : Extends g g'' where
  names := h'.names.trans h.names
  deferrals := h'.deferrals.trans h.deferrals
  size_le := Nat.le_trans h.size_le h'.size_le
  kept cell hcell := (h'.kept cell (Nat.lt_of_lt_of_le hcell h.size_le)).trans (h.kept cell hcell)

/-- A definition that is there stays there. -/
theorem getElem?_eq (h : Extends g g') {cell : Nat} {r : Recognizer V α}
    (hr : g.definitions[cell]? = some (some r)) : g'.definitions[cell]? = some (some r) :=
  (h.kept cell (Array.getElem?_eq_some_iff.1 hr).1).trans hr

end Extends

/-- Whether every definition from a cell on is reached from some recognizers. -/
def Covers (g : Grammar V α) (lo : Nat) (made : List (Recognizer V α)) : Prop :=
  ∀ cell, lo ≤ cell → cell < g.definitions.size →
    ∃ r ∈ made, ∃ l ∈ r.held, g.Reaches l (.definition cell)

/-- Recognizers that hold more cover more. -/
theorem Covers.mono {g : Grammar V α} {lo : Nat} {made made' : List (Recognizer V α)}
    (h : g.Covers lo made) (hheld : ∀ r ∈ made, ∀ l ∈ r.held, ∃ r' ∈ made', l ∈ r'.held) :
    g.Covers lo made' := by
  intro cell hlo hcell
  obtain ⟨r, hr, l, hl, hreach⟩ := h cell hlo hcell
  obtain ⟨r', hr', hl'⟩ := hheld r hr l hl
  exact ⟨r', hr', l, hl', hreach⟩

/-- A chain of contents stays one while the definitions on it stay. -/
theorem Reaches.mono {g g' : Grammar V α} (hdeferrals : g'.deferrals = g.deferrals)
    (hkept : ∀ (cell : Nat) (r : Recognizer V α), g.definitions[cell]? = some (some r) →
      g'.definitions[cell]? = some (some r)) {l k : Link} (h : g.Reaches l k) : g'.Reaches l k := by
  refine Relation.ReflTransGen.mono ?_ _ _ h
  intro l k hk
  unfold Holds linksBehind at hk ⊢
  cases l with
  | definition cell =>
    dsimp only at hk ⊢
    split at hk
    next r hr =>
      rw [hkept cell r hr]
      exact hk
    · cases hk
  | self cell => exact hk
  | deferred cell =>
    dsimp only at hk ⊢
    rw [hdeferrals]
    exact hk
  | unbound => exact hk

/-- Whether links to definitions from a cell on lead to these. -/
def Answers (g : Grammar V α) (lo : Nat) (ρ : Targets V α) : Prop :=
  ∀ (cell : Nat) (r : Recognizer V α), lo ≤ cell → g.definitions[cell]? = some (some r) →
    ρ (.definition cell) = some r ∧ ρ (.self cell) = some r

/-- Whether a construction only adds definitions, covers them by what it makes if those so
far are covered by what is in hand, and has a property wherever links lead to these
definitions. -/
def Constructs {β : Type} (hand : List (Recognizer V α)) (m : GrammarM V α β)
    (made : β → List (Recognizer V α)) (Q : Targets V α → β → Prop) : Prop :=
  ∀ g : Grammar V α, g.Extends (m g).2 ∧
    (∀ lo, g.Covers lo hand → (m g).2.Covers lo (made (m g).1)) ∧
    ∀ ρ, (m g).2.Answers g.definitions.size ρ → Q ρ (m g).1

namespace Constructs

variable {β γ : Type} {hand : List (Recognizer V α)}

/-- Nothing is constructed when what is given back is in hand. -/
theorem pure {b : β} {made : β → List (Recognizer V α)} {Q : Targets V α → β → Prop}
    (hmade : ∀ r ∈ hand, r ∈ made b) (h : ∀ ρ, Q ρ b) : Constructs hand (Pure.pure b) made Q :=
  fun g => ⟨.refl g, fun _ hcovers => hcovers.mono fun r hr _ hl => ⟨r, hmade r hr, hl⟩,
    fun ρ _ => h ρ⟩

/-- A construction in two parts constructs what its parts construct. -/
theorem bind {m : GrammarM V α β} {next : β → GrammarM V α γ}
    {made : β → List (Recognizer V α)} {made' : γ → List (Recognizer V α)}
    {Q : Targets V α → β → Prop} {Q' : Targets V α → γ → Prop} (hm : Constructs hand m made Q)
    (hnext : ∀ g, Constructs (made (m g).1) (next (m g).1) made' fun ρ c => Q ρ (m g).1 → Q' ρ c) :
    Constructs hand (m >>= next) made' Q' := by
  intro g
  obtain ⟨hextends, hcovers, hQ⟩ := hm g
  obtain ⟨hextends', hcovers', hQ'⟩ := hnext g (m g).2
  refine ⟨hextends.trans hextends', fun lo h => hcovers' lo (hcovers lo h), ?_⟩
  intro ρ hρ
  refine hQ' ρ (fun cell r hlo => hρ cell r (Nat.le_trans hextends.size_le hlo)) (hQ ρ ?_)
  intro cell r hlo hr
  exact hρ cell r hlo (hextends'.getElem?_eq hr)

/-- A new recognizer covers what its parts cover. -/
theorem newNode {shape : Shape V α (Recognizer V α)} {ps : List (Recognizer V α)}
    (hps : shape.parts = ps) {Q : Targets V α → Recognizer V α → Prop}
    (h : ∀ ρ handle, Q ρ (.node handle shape)) :
    Constructs (hand ++ ps) (Grammar.newNode shape) (fun r => hand ++ [r]) Q := by
  subst hps
  intro g
  refine ⟨⟨rfl, rfl, Nat.le_refl _, fun _ _ => rfl⟩, ?_, fun ρ _ => h ρ _⟩
  intro lo hcovers
  have hcovers' : (Grammar.newNode shape g).2.Covers lo (hand ++ shape.parts) := by
    intro cell hlo hcell
    obtain ⟨r, hr, l, hl, hreach⟩ := hcovers cell hlo hcell
    exact ⟨r, hr, l, hl, hreach.mono rfl fun _ _ h => h⟩
  refine hcovers'.mono ?_
  intro r hr l hl
  rcases List.mem_append.1 hr with hr | hr
  · exact ⟨r, List.mem_append_left _ hr, hl⟩
  · exact ⟨_, List.mem_append_right _ (List.mem_singleton.2 rfl), Shape.mem_held_iff.2 ⟨r, hr, hl⟩⟩

/-- Toggling gives a handle on the same recognizer, which holds the same. -/
theorem withCaching (r : Recognizer V α) (on : Bool) {Q : Targets V α → Recognizer V α → Prop}
    (h : ∀ ρ handle, Q ρ (r.withHandle handle)) :
    Constructs (hand ++ [r]) (Grammar.withCaching r on) (fun r => hand ++ [r]) Q := by
  intro g
  have hheld := withCaching_held g r on
  have hcells : (Grammar.withCaching r on g).2.definitions = g.definitions ∧
      (Grammar.withCaching r on g).2.deferrals = g.deferrals ∧
      (Grammar.withCaching r on g).2.names = g.names ∧
      ∃ handle, (Grammar.withCaching r on g).1 = r.withHandle handle := by
    rcases withCaching_cases r on g with heq | ⟨caching, stores, -, -, heq⟩
    · rw [heq]
      exact ⟨rfl, rfl, rfl, r.handle, by cases r <;> rfl⟩
    · rw [heq]
      exact ⟨rfl, rfl, rfl, _, rfl⟩
  obtain ⟨hdefinitions, hdeferrals, hnames, handle, hhandle⟩ := hcells
  refine ⟨⟨hnames, hdeferrals, by rw [hdefinitions], fun _ _ => by rw [hdefinitions]⟩, ?_, ?_⟩
  · intro lo hcovers
    have hcovers' : (Grammar.withCaching r on g).2.Covers lo (hand ++ [r]) := by
      intro cell hlo hcell
      rw [hdefinitions] at hcell
      obtain ⟨q, hq, l, hl, hreach⟩ := hcovers cell hlo hcell
      exact ⟨q, hq, l, hl, hreach.mono hdeferrals fun _ _ h => by rw [hdefinitions, h]⟩
    refine hcovers'.mono ?_
    intro q hq l hl
    rcases List.mem_append.1 hq with hq | hq
    · exact ⟨q, List.mem_append_left _ hq, hl⟩
    · obtain rfl := List.mem_singleton.1 hq
      exact ⟨_, List.mem_append_right _ (List.mem_singleton.2 rfl), by rw [hheld]; exact hl⟩
  · intro ρ _
    rw [hhandle]
    exact h ρ handle

end Constructs

/-- What the building of an expression comes to. -/
def Makes (scope : Scope V α) (bound : List String) (e : Expr V α) : Prop :=
  ∀ hand, Constructs hand (build scope e) (fun r => hand ++ [r]) fun ρ r =>
    ∀ S : Meaning V α, (∀ n ∈ bound, ∀ q, Table.lookup n scope = some q → S n q) → e.Makes ρ S r

/-- A list of expressions makes what its members make. -/
theorem buildParts_constructs {scope : Scope V α} {bound : List String} {es : List (Expr V α)}
    (h : ∀ e ∈ es, Grammar.Makes scope bound e) (hand : List (Recognizer V α)) :
    Constructs hand (buildParts scope es) (fun rs => hand ++ rs) fun ρ rs =>
      rs.length = es.length ∧ ∀ S : Meaning V α,
        (∀ n ∈ bound, ∀ q, Table.lookup n scope = some q → S n q) →
          ∀ x ∈ es.zip rs, x.1.Makes ρ S x.2 := by
  induction es generalizing hand with
  | nil =>
    rw [buildParts]
    refine .pure (by simp) fun ρ => ⟨rfl, ?_⟩
    intro S _ x hx
    cases hx
  | cons e es ih =>
    rw [buildParts]
    refine (h e List.mem_cons_self hand).bind fun g => ?_
    refine (ih (fun e' he' => h e' (List.mem_cons_of_mem _ he')) _).bind fun g' => ?_
    refine .pure (by simp) fun ρ hrest hfirst => ?_
    refine ⟨congrArg (· + 1) hrest.1, ?_⟩
    intro S hS x hx
    rcases List.mem_cons.1 hx with rfl | hx
    · exact hfirst S hS
    · exact hrest.2 S hS x hx

/-- Each part is built once. -/
theorem buildParts_length (scope : Scope V α) (es : List (Expr V α)) (g : Grammar V α) :
    (buildParts scope es g).1.length = es.length := by
  induction es generalizing g with
  | nil => rfl
  | cons e es ih =>
    rw [buildParts]
    exact congrArg (· + 1) (ih (build scope e g).2)

/-! ## Recursive definitions -/

section Recursive

variable (scope : Scope V α) (name : String) (body : Expr V α) (g : Grammar V α)

/-- The grammar with an empty cell for a definition, and the recognizer that stands for
the definition inside its body. -/
def opened : Recognizer V α × Grammar V α :=
  newLink (.self g.definitions.size) (newDefinition g).2

/-- The recognizer of the body of a recursive expression, and the grammar after it. -/
def bodyBuilt : Recognizer V α × Grammar V α :=
  build ((name, g.opened.1) :: scope) body g.opened.2

/-- A definition is built in three steps: its cell, its body and the link to it. -/
theorem build_recursive :
    build scope (.recursive name body) g =
      newLink (.definition g.definitions.size)
        (define g.definitions.size (g.bodyBuilt scope name body).1
          (g.bodyBuilt scope name body).2).2 := by
  rw [build]
  rfl

end Recursive

section Filled

variable {g mid : Grammar V α}

/-- The grammar after a definition, whose body is built, and the link to it. -/
def filled (g : Grammar V α) (r : Recognizer V α) (mid : Grammar V α) :
    Recognizer V α × Grammar V α :=
  newLink (.definition g.definitions.size) (define g.definitions.size r mid).2

/-- The cell of a definition is filled with what was built. -/
theorem filled_definitions (r : Recognizer V α) :
    (g.filled r mid).2.definitions = mid.definitions.setIfInBounds g.definitions.size (some r) :=
  rfl

/-- A definition begins with an empty cell. -/
theorem opened_definitions : g.opened.2.definitions = g.definitions.push none := rfl

/-- The other cells are left as they are. -/
theorem filled_of_ne (r : Recognizer V α) {cell : Nat} (hne : cell ≠ g.definitions.size) :
    (g.filled r mid).2.definitions[cell]? = mid.definitions[cell]? := by
  rw [filled_definitions]
  exact Array.getElem?_setIfInBounds_ne (Ne.symm hne)

/-- The cell of a definition holds the recognizer of its body. -/
theorem filled_self (h : Extends g.opened.2 mid) (r : Recognizer V α) :
    (g.filled r mid).2.definitions[g.definitions.size]? = some (some r) := by
  have hsize := h.size_le
  rw [opened_definitions, Array.size_push] at hsize
  rw [filled_definitions, Array.getElem?_setIfInBounds_self_of_lt hsize]

/-- What the body of a definition defines stays, since the cell of the definition is empty
until it is filled. -/
theorem filled_kept (h : Extends g.opened.2 mid) (r : Recognizer V α) {cell : Nat}
    {q : Recognizer V α} (hq : mid.definitions[cell]? = some (some q)) :
    (g.filled r mid).2.definitions[cell]? = some (some q) := by
  rw [filled_of_ne r ?_]
  · exact hq
  · rintro rfl
    rw [h.kept _ (by rw [opened_definitions, Array.size_push]; omega), opened_definitions,
      Array.getElem?_push_size] at hq
    cases hq

/-- A definition is new. -/
theorem extends_filled (h : Extends g.opened.2 mid) (r : Recognizer V α) :
    g.Extends (g.filled r mid).2 := by
  have hsize : g.opened.2.definitions.size = g.definitions.size + 1 := by
    rw [opened_definitions, Array.size_push]
  refine ⟨h.names, h.deferrals, ?_, ?_⟩
  · have hle := h.size_le
    rw [filled_definitions, Array.size_setIfInBounds]
    omega
  · intro cell hcell
    refine (filled_of_ne r (by omega)).trans ((h.kept cell (by omega)).trans ?_)
    rw [opened_definitions, Array.getElem?_push_lt hcell, Array.getElem?_eq_getElem hcell]

/-- The link to a definition covers the definition and what its body covers. -/
theorem covers_filled (h : Extends g.opened.2 mid) {r : Recognizer V α}
    (hbody : mid.Covers (g.definitions.size + 1) [r]) {hand : List (Recognizer V α)} {lo : Nat}
    (hhand : g.Covers lo hand) :
    (g.filled r mid).2.Covers lo (hand ++ [(g.filled r mid).1]) := by
  have hgrown := extends_filled h r
  intro cell hlo hcell
  rw [filled_definitions, Array.size_setIfInBounds] at hcell
  rcases Nat.lt_trichotomy cell g.definitions.size with hlt | rfl | hgt
  · obtain ⟨q, hq, l, hl, hreach⟩ := hhand cell hlo hlt
    exact ⟨q, List.mem_append_left _ hq, l, hl,
      hreach.mono hgrown.deferrals fun _ _ => hgrown.getElem?_eq⟩
  · exact ⟨_, List.mem_append_right _ (List.mem_singleton.2 rfl), .definition _,
      List.mem_singleton.2 rfl, .refl⟩
  · obtain ⟨q, hq, l, hl, hreach⟩ := hbody cell hgt hcell
    obtain rfl := List.mem_singleton.1 hq
    have hholds : (g.filled q mid).2.Holds (.definition g.definitions.size) l := by
      unfold Holds linksBehind
      dsimp only
      rw [filled_self h q]
      exact hl
    have hsame : (g.filled q mid).2.deferrals = mid.deferrals := rfl
    have hreach : (g.filled q mid).2.Reaches l (.definition cell) :=
      hreach.mono hsame fun _ _ => filled_kept h q
    exact ⟨_, List.mem_append_right _ (List.mem_singleton.2 rfl), .definition _,
      List.mem_singleton.2 rfl, .head hholds hreach⟩

end Filled

/-- A recursive expression makes a link to the recognizer of its body. -/
theorem makes_recursive {scope : Scope V α} {bound : List String} {name : String}
    {body : Expr V α}
    (h : ∀ self, Grammar.Makes ((name, self) :: scope) (name :: bound) body) :
    Grammar.Makes scope bound (.recursive name body) := by
  intro hand g
  obtain ⟨hextends, hcovers, hmakes⟩ := h g.opened.1 [] g.opened.2
  rw [build_recursive]
  have hbody : (g.bodyBuilt scope name body).2.Covers (g.definitions.size + 1)
      [(g.bodyBuilt scope name body).1] := by
    refine hcovers _ ?_
    intro cell hlo hcell
    rw [opened_definitions, Array.size_push] at hcell
    omega
  refine ⟨extends_filled hextends _, fun lo hhand => covers_filled hextends hbody hhand, ?_⟩
  intro ρ hρ S hS
  have hanswer := hρ _ _ (Nat.le_refl _) (filled_self hextends _)
  refine .recursive hanswer.1 (hmakes ρ ?_ (S.within ρ name _) ?_)
  · intro cell q hlo hq
    rw [opened_definitions, Array.size_push] at hlo
    exact hρ cell q (by omega) (filled_kept hextends _ hq)
  · intro n hn q hq
    unfold Meaning.within
    rw [Table.lookup] at hq
    split at hq
    next hname =>
      cases hq
      rw [if_pos hname.symm]
      exact ⟨_, _, rfl, hanswer.2⟩
    next hname =>
      rw [if_neg (Ne.symm hname)]
      exact hS n ((List.mem_cons.1 hn).resolve_left (Ne.symm hname)) q hq

/-- A closed expression makes the recognizer that is built from it. -/
theorem makes_of_closed {bound : List String} {e : Expr V α} (h : e.Closed bound)
    {scope : Scope V α} (hscope : ∀ n ∈ bound, ∃ r, Table.lookup n scope = some r) :
    Grammar.Makes scope bound e := by
  induction h generalizing scope with
  | @make bound shape _ ih =>
    intro hand
    have hbuild : build scope (.make shape) =
        buildParts scope shape.parts >>= fun ps => newNode (shape.withParts ps) := by
      rw [build, buildShape_eq, bind_assoc]
      rfl
    rw [hbuild]
    refine (buildParts_constructs (fun p hp => ih p hp hscope) hand).bind fun g => ?_
    have hparts := shape.parts_withParts (buildParts_length scope shape.parts g)
    exact .newNode hparts fun ρ handle hmakes S hS => .make hmakes.1 (hmakes.2 S hS)
  | @cached bound on e _ ih =>
    intro hand
    rw [build]
    refine (ih hscope hand).bind fun g => ?_
    exact .withCaching _ on fun ρ handle hmakes S hS => .cached (hmakes S hS)
  | @recursive bound name body _ ih =>
    refine makes_recursive fun self => ih ?_
    intro n hn
    rw [Table.lookup]
    split
    · exact ⟨_, rfl⟩
    next hname => exact hscope n ((List.mem_cons.1 hn).resolve_left (Ne.symm hname))
  | @ref bound name hname =>
    intro hand g
    obtain ⟨r, hr⟩ := hscope name hname
    have hresolve : g.resolve? scope name = some r := by
      rw [resolve?, hr]
      rfl
    rw [build_ref hresolve]
    refine ⟨.refl g, fun lo hcovers => hcovers.mono fun q hq l hl =>
      ⟨q, List.mem_append_left _ hq, hl⟩, ?_⟩
    intro ρ _ S hS
    exact .ref (hS name hname r hr)

/-- A closed expression that is built into an empty grammar makes the recognizer that is
built from it, and this one reaches every definition. -/
theorem built_of_closed {e : Expr V α} (h : e.Closed []) :
    (build [] e {}).2.names = .empty ∧ (build [] e {}).2.deferrals = #[] ∧
      (build [] e {}).2.Covers 0 [(build [] e {}).1] ∧
      ∀ ρ, (build [] e {}).2.Answers 0 ρ → ∀ S, e.Makes ρ S (build [] e {}).1 := by
  have hmade : Grammar.Makes [] [] e := makes_of_closed h (by simp)
  obtain ⟨hextends, hcovers, hmakes⟩ := hmade [] {}
  refine ⟨hextends.names, hextends.deferrals, hcovers 0 ?_, fun ρ hρ S => hmakes ρ hρ S (by simp)⟩
  intro cell _ hcell
  cases hcell

/-- Links lead to the definitions that a recognizer with a name reaches. -/
theorem Covers.answers {g : Grammar V α} {r : Recognizer V α} (h : g.Covers 0 [r])
    (hnamed : r ∈ g.names.values) : g.Answers 0 g.target := by
  intro cell p _ hp
  have hjoin : (g.definitions[cell]?).join = some p := by
    rw [hp]
    rfl
  obtain ⟨q, hq, l, hl, hreach⟩ := h cell (Nat.zero_le _) (Array.getElem?_eq_some_iff.1 hp).1
  cases List.mem_singleton.1 hq
  have halive : g.isAlive [] cell = true :=
    (isAlive_iff_kept (by simp)).2 ((keeps_of_named hnamed l hl).reaches hreach)
  refine ⟨hjoin, ?_⟩
  rw [target_self, definition?, if_pos halive]
  exact hjoin

end Grammar

end SlotGrammar
