import SlotGrammar.Proofs.Conduct
import SlotGrammar.Proofs.Making
import SlotGrammar.Proofs.Parses

/-!
# Grammars in use

A grammar is used in any order of steps: expressions are built, names are bound and
removed, caches are toggled and cleared, inputs are parsed and recognizers are attempted.
Recognizers may be built at any time, also by a run that comes to a deferred one.  All
recognizers of a grammar in use keep their outcomes in its stores, and are of the shapes
that its expressions use.

Main results:

- Theorem `build_adds`: building an expression adds empty stores and nothing else to the
  stores.
- Theorem `Enlarges.followed`: a run that follows a link adds as little.
-/

namespace SlotGrammar

variable {V α : Type}

/-! ## Kinds of shapes -/

/-- A shape without its parts. -/
def Shape.outline {ρ : Type} (shape : Shape V α ρ) : Shape V α Unit :=
  shape.withParts (List.replicate shape.parts.length ())

/-- The outline of a shape does not depend on its parts. -/
theorem Shape.outline_withParts {ρ σ : Type} (shape : Shape V α ρ) {ps : List σ}
    (h : ps.length = shape.parts.length) : (shape.withParts ps).outline = shape.outline := by
  unfold outline
  rw [shape.parts_withParts h, h]
  cases shape <;> simp only [parts, List.length_cons, List.length_nil] at h
  case sequence => rfl
  case choice => rfl
  all_goals
    first
    | (obtain rfl := List.eq_nil_of_length_eq_zero h; rfl)
    | (obtain ⟨p, rfl⟩ := List.length_eq_one_iff.1 h; rfl)
    | (obtain ⟨p, q, rfl⟩ := List.length_eq_two.1 h; rfl)
    | (obtain ⟨p, q, r, rfl⟩ := List.length_eq_three.1 h; rfl)

/-- Whether a shape neither parses another input nor drops outcomes. -/
def Shape.Contained {ρ : Type} : Shape V α ρ → Prop
  | .nested _ _ => False
  | .clearing _ _ => False
  | _ => True

/-- Whether all shapes in an expression are of some kind, those that are built later
included. -/
inductive Expr.Uses (T : Shape V α Unit → Prop) : Expr V α → Prop where
  | make {shape : Shape V α (Expr V α)} (h : T shape.outline)
      (hparts : ∀ p ∈ shape.parts, Uses T p) : Uses T (.make shape)
  | cached {on : Bool} {e : Expr V α} (h : Uses T e) : Uses T (.cached on e)
  | deferred {label : String} {e : Expr V α} (h : Uses T e) : Uses T (.deferred label e)
  | recursive {name : String} {body : Expr V α} (h : Uses T body) : Uses T (.recursive name body)
  | named {name : String} {e : Expr V α} (h : Uses T e) : Uses T (.named name e)
  | ref (name : String) : Uses T (.ref name)

namespace Expr

variable {T : Shape V α Unit → Prop}

/-- A new recognizer is of the shapes that are used when it is and its parts are. -/
@[simp]
theorem uses_make_iff {shape : Shape V α (Expr V α)} :
    (make shape).Uses T ↔ T shape.outline ∧ ∀ p ∈ shape.parts, p.Uses T := by
  constructor
  · intro h
    cases h with
    | make h hparts => exact ⟨h, hparts⟩
  · intro h
    exact .make h.1 h.2

/-- A handle is of the shapes that are used when what it is on is. -/
@[simp]
theorem uses_cached_iff {on : Bool} {e : Expr V α} : (cached on e).Uses T ↔ e.Uses T := by
  constructor
  · intro h
    cases h with
    | cached h => exact h
  · exact .cached

/-- A deferral is of the shapes that are used when what it builds is. -/
@[simp]
theorem uses_deferred_iff {label : String} {e : Expr V α} :
    (deferred label e).Uses T ↔ e.Uses T := by
  constructor
  · intro h
    cases h with
    | deferred h => exact h
  · exact .deferred

/-- A definition is of the shapes that are used when its body is. -/
@[simp]
theorem uses_recursive_iff {name : String} {body : Expr V α} :
    (recursive name body).Uses T ↔ body.Uses T := by
  constructor
  · intro h
    cases h with
    | recursive h => exact h
  · exact .recursive

/-- A name does not count among the shapes that are used. -/
@[simp]
theorem uses_named_iff {name : String} {e : Expr V α} : (named name e).Uses T ↔ e.Uses T := by
  constructor
  · intro h
    cases h with
    | named h => exact h
  · exact .named

/-- A name makes no shape. -/
@[simp]
theorem uses_ref (name : String) : (ref name : Expr V α).Uses T := .ref name

end Expr

/-- The parts of a shape are smaller than the shape. -/
theorem Shape.sizeOf_lt_of_mem_parts {shape : Shape V α (Expr V α)} {p : Expr V α}
    (hp : p ∈ shape.parts) : sizeOf p < sizeOf shape := by
  cases shape with
  | sequence ps | choice ps =>
    have hlt : sizeOf p < sizeOf ps := List.sizeOf_lt_of_mem hp
    simp only [sequence.sizeOf_spec, choice.sizeOf_spec]
    omega
  | _ =>
    simp only [parts, List.mem_cons, List.not_mem_nil, or_false] at hp
    all_goals
      first
      | (subst hp; simp +arith)
      | (rcases hp with rfl | rfl <;> simp +arith)
      | (rcases hp with rfl | rfl | rfl <;> simp +arith)

/-- Every expression uses shapes of a kind to which all shapes belong. -/
theorem Expr.uses_of_forall {T : Shape V α Unit → Prop} (h : ∀ shape, T shape) (e : Expr V α) :
    e.Uses T := by
  cases e with
  | make shape =>
    refine .make (h _) ?_
    intro p hp
    have hlt := Shape.sizeOf_lt_of_mem_parts hp
    exact uses_of_forall h p
  | cached _ e => exact .cached (uses_of_forall h e)
  | deferred _ e => exact .deferred (uses_of_forall h e)
  | recursive _ body => exact .recursive (uses_of_forall h body)
  | named _ e => exact .named (uses_of_forall h e)
  | ref name => exact .ref name
termination_by sizeOf e
decreasing_by
  all_goals
    simp only [make.sizeOf_spec, cached.sizeOf_spec, deferred.sizeOf_spec, recursive.sizeOf_spec,
      named.sizeOf_spec]
    omega

/-! ## Recognizers of a grammar -/

section Kinds

variable {T : Shape V α Unit → Prop}

/-- Whether a recognizer, with everything that it is built over, keeps its outcomes in the
first stores of a grammar and has shapes of some kind. -/
structure Recognizer.Belongs (T : Shape V α Unit → Prop) (stores : Nat) (top : Recognizer V α) :
    Prop where
  store_lt : ∀ r s, top.Over r → r.handle.caching.store? = some s → s < stores
  kind : ∀ handle shape, top.Over (.node handle shape) → T shape.outline

namespace Recognizer.Belongs

variable {n m : Nat} {r : Recognizer V α} {handle : Handle}
  {shape : Shape V α (Recognizer V α)}

/-- What belongs to a grammar belongs to one with more stores. -/
theorem mono (h : r.Belongs T n) (hle : n ≤ m) : r.Belongs T m :=
  ⟨fun x s hx hs => Nat.lt_of_lt_of_le (h.store_lt x s hx hs) hle, h.kind⟩

/-- A recognizer with a shape belongs to a grammar when its store and all its parts do. -/
theorem node (hstore : ∀ s, handle.caching.store? = some s → s < n) (hkind : T shape.outline)
    (hparts : ∀ p ∈ shape.parts, p.Belongs T n) : (Recognizer.node handle shape).Belongs T n := by
  constructor
  · intro r s hr hs
    rcases over_node_iff.1 hr with rfl | ⟨p, hp, hover⟩
    · exact hstore s hs
    · exact (hparts p hp).store_lt r s hover hs
  · intro handle' shape' hr
    rcases over_node_iff.1 hr with heq | ⟨p, hp, hover⟩
    · cases heq
      exact hkind
    · exact (hparts p hp).kind handle' shape' hover

/-- A link belongs to a grammar when its store does. -/
theorem link {l : Link} (hstore : ∀ s, handle.caching.store? = some s → s < n) :
    (Recognizer.link handle l).Belongs T n := by
  constructor
  · intro r s hr hs
    cases over_link_iff.1 hr
    exact hstore s hs
  · intro handle' shape hr
    cases over_link_iff.1 hr

/-- The parts of a recognizer belong where it does. -/
theorem part (h : (Recognizer.node handle shape).Belongs T n) {p : Recognizer V α}
    (hp : p ∈ shape.parts) : p.Belongs T n := by
  have hover : ∀ {r}, p.Over r → (Recognizer.node handle shape).Over r :=
    fun hr => over_node_iff.2 (.inr ⟨p, hp, hr⟩)
  exact ⟨fun r s hr hs => h.store_lt r s (hover hr) hs,
    fun handle' shape' hr => h.kind handle' shape' (hover hr)⟩

/-- Another handle on a recognizer belongs to a grammar as well. -/
theorem withHandle (h : r.Belongs T n) (hstore : ∀ s, handle.caching.store? = some s → s < n) :
    (r.withHandle handle).Belongs T n := by
  cases r with
  | node handle' shape => exact .node hstore (h.kind handle' shape .refl) fun p hp => h.part hp
  | link handle' l => exact .link hstore

end Recognizer.Belongs

namespace Grammar

/-- Whether all recognizers of a grammar keep their outcomes in the first stores and have
shapes of some kind, those that are still to be built included. -/
structure Coherent (T : Shape V α Unit → Prop) (stores : Nat) (g : Grammar V α) : Prop where
  names : ∀ r ∈ g.names.values, r.Belongs T stores
  definitions : ∀ (cell : Nat) (r : Recognizer V α), g.definitions[cell]? = some (some r) →
    r.Belongs T stores
  settled : ∀ (cell : Nat) (r : Recognizer V α), g.deferrals[cell]? = some (.settled r) →
    r.Belongs T stores
  awaiting : ∀ (cell : Nat) (label : String) (e : Expr V α) (scope : Scope V α),
    g.deferrals[cell]? = some (.awaiting label e scope) →
    e.Uses T ∧ ∀ x ∈ scope, x.2.Belongs T stores

/-- Whether a grammar has got more stores, with nothing in them. -/
structure Enlarges (g g' : Grammar V α) : Prop where
  nextSession_eq : g'.nextSession = g.nextSession
  size_le : g.stores.size ≤ g'.stores.size
  kept : ∀ s < g.stores.size, g'.stores[s]? = g.stores[s]?
  blank : ∀ (s : StoreId) (store : Store V α), g.stores.size ≤ s → g'.stores[s]? = some store →
    store = {}

namespace Enlarges

variable {g g' g'' : Grammar V α}

/-- A grammar with the same stores and sessions has been enlarged. -/
theorem of_eq (hsession : g'.nextSession = g.nextSession) (hstores : g'.stores = g.stores) :
    g.Enlarges g' := by
  refine ⟨hsession, by rw [hstores], fun s _ => by rw [hstores], ?_⟩
  intro s store hle hs
  rw [hstores, Array.getElem?_eq_none hle] at hs
  cases hs

theorem refl (g : Grammar V α) : g.Enlarges g := of_eq rfl rfl

theorem trans (h : g.Enlarges g') (h' : g'.Enlarges g'') : g.Enlarges g'' where
  nextSession_eq := h'.nextSession_eq.trans h.nextSession_eq
  size_le := Nat.le_trans h.size_le h'.size_le
  kept s hs := (h'.kept s (Nat.lt_of_lt_of_le hs h.size_le)).trans (h.kept s hs)
  blank s store hle hs := by
    by_cases hlt : s < g'.stores.size
    · rw [h'.kept s hlt] at hs
      exact h.blank s store hle hs
    · exact h'.blank s store (Nat.le_of_not_lt hlt) hs

/-- A new store enlarges a grammar. -/
theorem push (g : Grammar V α) (node : Nat) :
    g.Enlarges { g with nextNode := node, stores := g.stores.push {} } := by
  refine ⟨rfl, by simp, fun s hs => ?_, ?_⟩
  · simp [Array.getElem?_push, Nat.ne_of_lt hs]
  · intro s store hle hs
    have hs : (g.stores.push {})[s]? = some store := hs
    rw [Array.getElem?_push] at hs
    split at hs
    · cases hs
      rfl
    · rw [Array.getElem?_eq_none hle] at hs
      cases hs

/-- Nothing new is found in the stores. -/
theorem bind_eq {β : Type} (h : g.Enlarges g') {ask : Store V α → Option β} (hblank : ask {} = none)
    (s : StoreId) : g'.stores[s]?.bind ask = g.stores[s]?.bind ask := by
  by_cases hlt : s < g.stores.size
  · rw [h.kept s hlt]
  · have hle := Nat.le_of_not_lt hlt
    rw [Array.getElem?_eq_none hle]
    cases hs : g'.stores[s]? with
    | none => rfl
    | some store =>
      rw [h.blank s store hle hs]
      exact hblank

/-- An enlarged grammar has the same outcomes committed. -/
theorem committed_eq (h : g.Enlarges g') : g'.stores.committed = g.stores.committed := by
  ext s key n : 3
  exact h.bind_eq rfl s

/-- An enlarged grammar has the same outcomes pending. -/
theorem pending_eq (h : g.Enlarges g') : g'.stores.pending = g.stores.pending := by
  ext s id n : 3
  exact h.bind_eq rfl s

end Enlarges

/-- A grammar that is coherent for some stores is so for more of them. -/
theorem Coherent.mono {n m : Nat} {g : Grammar V α} (h : g.Coherent T n) (hle : n ≤ m) :
    g.Coherent T m where
  names r hr := (h.names r hr).mono hle
  definitions cell r hr := (h.definitions cell r hr).mono hle
  settled cell r hr := (h.settled cell r hr).mono hle
  awaiting cell label e scope hcell :=
    have hold := h.awaiting cell label e scope hcell
    ⟨hold.1, fun x hx => (hold.2 x hx).mono hle⟩

/-- A grammar whose stores change stays coherent. -/
theorem Coherent.onStores {n : Nat} {g : Grammar V α} (h : g.Coherent T n) (stores : Stores V α)
    (nextSession : SessionId) : Grammar.Coherent T n { g with stores, nextSession } :=
  ⟨h.names, h.definitions, h.settled, h.awaiting⟩

/-- Dropping traces touches nothing that is pending, and commits nothing. -/
theorem dropTraces_eq (g : Grammar V α) (t : Recognizer V α) :
    ∃ stores : Stores V α, g.dropTraces t = { g with stores } ∧ stores.size = g.stores.size ∧
      stores.pending = g.stores.pending ∧ ∀ s key n outcome,
        stores.committed s key n = some outcome → g.stores.committed s key n = some outcome := by
  unfold dropTraces
  cases t.handle.caching.store? with
  | none => exact ⟨g.stores, rfl, rfl, rfl, fun _ _ _ _ ho => ho⟩
  | some s =>
    refine ⟨Array.modify g.stores s Store.clear, rfl, Array.size_modify, ?_, ?_⟩
    · ext t' id n : 3
      exact g.stores.pending_clear s t' id n
    · intro t' key n outcome ho
      rw [g.stores.committed_clear] at ho
      split at ho
      · cases ho
      · exact ho

/-! ## Building -/

/-- Whether a construction adds only empty stores, and only recognizers that belong to the
grammar when those in hand did at the start. -/
structure Adds {β : Type} (T : Shape V α Unit → Prop) (hand : List (Recognizer V α))
    (m : GrammarM V α β) (made : β → List (Recognizer V α)) : Prop where
  enlarges : ∀ g : Grammar V α, g.Enlarges (m g).2
  coherent : ∀ g : Grammar V α, g.Coherent T g.stores.size →
    (∀ r ∈ hand, r.Belongs T g.stores.size) →
      (m g).2.Coherent T (m g).2.stores.size ∧
        ∀ r ∈ hand ++ made (m g).1, r.Belongs T (m g).2.stores.size

namespace Adds

variable {β γ : Type} {hand : List (Recognizer V α)} {scope : Scope V α}

/-- Nothing is added when what is given back is in hand. -/
theorem pure {b : β} {made : β → List (Recognizer V α)} (h : ∀ r ∈ made b, r ∈ hand) :
    Adds T hand (Pure.pure b) made := by
  refine ⟨.refl, fun g hg hhand => ⟨hg, ?_⟩⟩
  intro r hr
  rcases List.mem_append.1 hr with hold | hnew
  · exact hhand r hold
  · exact hhand r (h r hnew)

/-- A construction in two parts adds what its parts add. -/
theorem bind {m : GrammarM V α β} {next : β → GrammarM V α γ}
    {made : β → List (Recognizer V α)} {made' : γ → List (Recognizer V α)}
    (hm : Adds T hand m made)
    (hnext : ∀ g, Adds T (hand ++ made (m g).1) (next (m g).1) made') :
    Adds T hand (m >>= next) made' := by
  refine ⟨fun g => (hm.enlarges g).trans ((hnext g).enlarges _), fun g hg hhand => ?_⟩
  rcases hm.coherent g hg hhand with ⟨hg', hhand'⟩
  rcases (hnext g).coherent (m g).2 hg' hhand' with ⟨hg'', hhand''⟩
  refine ⟨hg'', ?_⟩
  intro r hr
  apply hhand''
  rw [List.mem_append] at hr ⊢
  exact hr.imp_left (List.mem_append_left _)

/-- A construction that leaves the stores alone. -/
theorem ofGrammar {m : GrammarM V α β} {made : β → List (Recognizer V α)}
    (hstores : ∀ g, (m g).2.stores = g.stores) (hsession : ∀ g, (m g).2.nextSession = g.nextSession)
    (h : ∀ (n : Nat) (g : Grammar V α), g.Coherent T n → (∀ r ∈ hand, r.Belongs T n) →
      (m g).2.Coherent T n ∧ ∀ r ∈ made (m g).1, r.Belongs T n) : Adds T hand m made := by
  refine ⟨fun g => .of_eq (hsession g) (hstores g), fun g hg hhand => ?_⟩
  have hmade := h g.stores.size g hg hhand
  rw [hstores g]
  refine ⟨hmade.1, ?_⟩
  intro r hr
  rcases List.mem_append.1 hr with hold | hnew
  · exact hhand r hold
  · exact hmade.2 r hnew

/-- A new recognizer over parts in hand is added. -/
theorem newNode {shape : Shape V α (Recognizer V α)} (hkind : T shape.outline)
    (h : ∀ p ∈ shape.parts, p ∈ hand) : Adds T hand (Grammar.newNode shape) fun r => [r] := by
  apply ofGrammar (fun _ => rfl) (fun _ => rfl)
  intro n g hg hhand
  refine ⟨⟨hg.names, hg.definitions, hg.settled, hg.awaiting⟩, ?_⟩
  intro r hr
  rw [List.mem_singleton.1 hr]
  exact .node (fun s hs => by cases hs) hkind fun p hp => hhand p (h p hp)

/-- A new link is added. -/
theorem newLink (target : Link) : Adds T hand (Grammar.newLink target) fun r => [r] := by
  apply ofGrammar (fun _ => rfl) (fun _ => rfl)
  intro n g hg hhand
  refine ⟨⟨hg.names, hg.definitions, hg.settled, hg.awaiting⟩, ?_⟩
  intro r hr
  rw [List.mem_singleton.1 hr]
  exact .link fun s hs => by cases hs

/-- Toggling adds a store at most. -/
theorem withCaching {r : Recognizer V α} (on : Bool) (h : r ∈ hand) :
    Adds T hand (Grammar.withCaching r on) fun r => [r] := by
  have hgrow : ∀ g : Grammar V α, g.Enlarges (Grammar.withCaching r on g).2 := by
    intro g
    rcases withCaching_cases r on g with heq | ⟨caching, stores, hstores, -, heq⟩
    · rw [heq]
      exact .refl g
    · rw [heq]
      rcases hstores with rfl | rfl
      · exact .of_eq rfl rfl
      · exact .push g _
  refine ⟨hgrow, fun g hg hhand => ?_⟩
  have hle := (hgrow g).size_le
  have hg' := hg.mono hle
  have hold : ∀ x ∈ hand, x.Belongs T (Grammar.withCaching r on g).2.stores.size :=
    fun x hx => (hhand x hx).mono hle
  rcases withCaching_cases r on g with heq | ⟨caching, stores, -, hstore, heq⟩
  · rw [heq] at hold ⊢
    refine ⟨hg, ?_⟩
    intro x hx
    rcases List.mem_append.1 hx with hx | hx
    · exact hold x hx
    · rw [List.mem_singleton.1 hx]
      exact hold r h
  · rw [heq] at hle hg' hold ⊢
    refine ⟨⟨hg'.names, hg'.definitions, hg'.settled, hg'.awaiting⟩, ?_⟩
    intro x hx
    rcases List.mem_append.1 hx with hx | hx
    · exact hold x hx
    · rw [List.mem_singleton.1 hx]
      apply (hold r h).withHandle
      intro s hs
      rcases hstore s hs with hsame | hnew
      · exact (hold r h).store_lt r s .refl hsame
      · exact hnew

/-- A new definition adds no recognizer. -/
theorem newDefinition : Adds T hand (Grammar.newDefinition : GrammarM V α Nat) fun _ => [] := by
  apply ofGrammar (fun _ => rfl) (fun _ => rfl)
  intro n g hg hhand
  refine ⟨⟨hg.names, ?_, hg.settled, hg.awaiting⟩, by simp⟩
  intro cell r hr
  simp only [Grammar.newDefinition, Array.getElem?_push] at hr
  split at hr
  · cases hr
  · exact hg.definitions cell r hr

/-- To fill the cell of a definition adds no recognizer. -/
theorem define {r : Recognizer V α} (cell : Nat) (h : r ∈ hand) :
    Adds T hand (Grammar.define cell r) fun _ => [] := by
  apply ofGrammar (fun _ => rfl) (fun _ => rfl)
  intro n g hg hhand
  refine ⟨⟨hg.names, ?_, hg.settled, hg.awaiting⟩, by simp⟩
  intro c x hx
  simp only [Grammar.define, Array.getElem?_setIfInBounds] at hx
  split at hx
  · split at hx
    · cases hx
      exact hhand r h
    · cases hx
  · exact hg.definitions c x hx

/-- A new deferral adds no recognizer yet. -/
theorem newDeferral (label : String) {e : Expr V α} (he : e.Uses T)
    (hscope : ∀ x ∈ scope, x.2 ∈ hand) :
    Adds T hand (Grammar.newDeferral (.awaiting label e scope)) fun _ => [] := by
  apply ofGrammar (fun _ => rfl) (fun _ => rfl)
  intro n g hg hhand
  refine ⟨⟨hg.names, hg.definitions, ?_, ?_⟩, by simp⟩
  · intro cell r hr
    simp only [Grammar.newDeferral, Array.getElem?_push] at hr
    split at hr
    · cases hr
    · exact hg.settled cell r hr
  · intro cell label' e' scope' hr
    simp only [Grammar.newDeferral, Array.getElem?_push] at hr
    split at hr
    · cases hr
      exact ⟨he, fun x hx => hhand x.2 (hscope x hx)⟩
    · exact hg.awaiting cell label' e' scope' hr

/-- A deferral is settled with a recognizer that is in hand. -/
theorem settle {r : Recognizer V α} (cell : Nat) (h : r ∈ hand) :
    Adds T hand (Grammar.settle cell r) fun _ => [] := by
  apply ofGrammar (fun _ => rfl) (fun _ => rfl)
  intro n g hg hhand
  refine ⟨⟨hg.names, hg.definitions, ?_, ?_⟩, by simp⟩
  · intro c x hx
    simp only [Grammar.settle, Array.getElem?_setIfInBounds] at hx
    split at hx
    · split at hx
      · cases hx
        exact hhand r h
      · cases hx
    · exact hg.settled c x hx
  · intro c label e scope hx
    simp only [Grammar.settle, Array.getElem?_setIfInBounds] at hx
    split at hx
    · split at hx
      · cases hx
      · cases hx
    · exact hg.awaiting c label e scope hx

/-- To bind a name adds no recognizer. -/
theorem bindName {r : Recognizer V α} (name : String) (h : r ∈ hand) :
    Adds T hand (modify fun g : Grammar V α => g.bind name r) fun _ => [] := by
  apply ofGrammar (fun _ => rfl) (fun _ => rfl)
  intro n g hg hhand
  refine ⟨⟨?_, hg.definitions, hg.settled, hg.awaiting⟩, by simp⟩
  intro x hx
  rcases Table.mem_values_put hx with rfl | hold
  · exact hhand x h
  · exact hg.names x hold

/-- A name gives a recognizer in hand, or a new link that leads nowhere. -/
theorem ref (hscope : ∀ x ∈ scope, x.2 ∈ hand) (name : String) :
    Adds T hand (Grammar.build scope (.ref name)) fun r => [r] := by
  have hlink : Adds T hand (Grammar.newLink .unbound) fun r => [r] := newLink .unbound
  constructor
  · intro g
    cases hname : g.resolve? scope name with
    | some r =>
      rw [build_ref hname]
      exact .refl g
    | none =>
      rw [build_unresolved hname]
      exact hlink.enlarges g
  · intro g hg hhand
    cases hname : g.resolve? scope name with
    | some r =>
      rw [build_ref hname]
      refine ⟨hg, ?_⟩
      intro x hx
      rcases List.mem_append.1 hx with hold | hnew
      · exact hhand x hold
      · rw [List.mem_singleton.1 hnew]
        rcases resolve?_eq_some hname with ⟨n, hmem⟩ | hmem
        · exact hhand r (hscope (n, r) hmem)
        · exact hg.names r hmem
    | none =>
      rw [build_unresolved hname]
      exact hlink.coherent g hg hhand

/-- The parts of a list are built one after the other. -/
theorem buildParts {es : List (Expr V α)}
    (h : ∀ e ∈ es, ∀ hand : List (Recognizer V α), (∀ x ∈ scope, x.2 ∈ hand) →
      Adds T hand (Grammar.build scope e) fun r => [r])
    {hand : List (Recognizer V α)} (hscope : ∀ x ∈ scope, x.2 ∈ hand) :
    Adds T hand (Grammar.buildParts scope es) id := by
  induction es generalizing hand with
  | nil =>
    rw [Grammar.buildParts]
    exact pure (by simp)
  | cons e es ih =>
    rw [Grammar.buildParts]
    apply (h e List.mem_cons_self hand hscope).bind
    intro g
    apply (ih (fun e' he' => h e' (List.mem_cons_of_mem e he')) ?_).bind
    · intro g'
      exact pure (by simp +contextual)
    · exact fun x hx => List.mem_append_left _ (hscope x hx)

end Adds

/-- Building an expression adds empty stores and nothing else to the stores. -/
theorem build_adds {e : Expr V α} (he : e.Uses T) {scope : Scope V α}
    {hand : List (Recognizer V α)} (hscope : ∀ x ∈ scope, x.2 ∈ hand) :
    Adds T hand (build scope e) fun r => [r] := by
  induction he generalizing scope hand with
  | @make shape hkind hparts ih =>
    rw [build, buildShape_eq, bind_assoc]
    apply (Adds.buildParts (fun p hp hand hscope => ih p hp hscope) hscope).bind
    intro g
    have hlength := buildParts_length scope shape.parts g
    apply Adds.newNode
    · rw [shape.outline_withParts hlength]
      exact hkind
    · rw [shape.parts_withParts hlength]
      exact fun p hp => List.mem_append_right _ hp
  | @cached on e _ ih =>
    rw [build]
    apply (ih hscope).bind
    intro g
    exact Adds.withCaching on (by simp)
  | @deferred label e he ih =>
    rw [build]
    apply (Adds.newDeferral label he hscope).bind
    intro g
    exact Adds.newLink _
  | @recursive name body _ ih =>
    rw [build]
    apply Adds.newDefinition.bind
    intro g
    apply (Adds.newLink _).bind
    intro g'
    apply (ih ?_).bind
    · intro g''
      apply (Adds.define _ (by simp)).bind
      intro _
      exact Adds.newLink _
    · intro x hx
      rcases List.mem_cons.1 hx with rfl | hx
      · simp
      · simp [hscope x hx]
  | @named name e _ ih =>
    rw [build]
    apply (ih hscope).bind
    intro g
    apply (Adds.bindName name (by simp)).bind
    intro _
    exact Adds.pure (by simp)
  | ref name => exact Adds.ref hscope name

/-! ## Following links -/

/-- A deferral is settled with what is built in its scope. -/
theorem supplied_adds {e : Expr V α} (he : e.Uses T) (scope : Scope V α) (cell : Nat) :
    Adds T (scope.map Prod.snd)
      (build scope e >>= fun r => Grammar.settle cell r >>= fun _ => Pure.pure r)
      fun r => [r] := by
  apply (build_adds he fun x hx => List.mem_map_of_mem hx).bind
  intro g
  apply (Adds.settle cell (by simp)).bind
  intro _
  exact Adds.pure (by simp)

/-- A run that follows a link may have got empty stores by then, and goes on in its
session. -/
theorem Enlarges.followed {run run' : Run V α} {ctx : Context V α} {target : Link}
    {found : Option (Context V α × Recognizer V α)}
    (h : Act.follow ctx target run = some (.ok found, run')) :
    run.grammar.Enlarges run'.grammar ∧ run'.session = run.session := by
  rcases Act.follow_cases ctx target run with ⟨_, hfollow, -⟩ | ⟨cell, label, e, scope, -, hfollow⟩
  · rw [hfollow] at h
    cases h
    exact ⟨.refl _, rfl⟩
  · rw [hfollow] at h
    cases h
    have huses : e.Uses fun _ => True := e.uses_of_forall fun _ => trivial
    exact ⟨(supplied_adds huses scope cell).enlarges run.grammar, rfl⟩

/-- A run that follows a link finds a recognizer of its grammar. -/
theorem Coherent.followed {run run' : Run V α} {ctx : Context V α} {target : Link}
    {found : Option (Context V α × Recognizer V α)}
    (hg : run.grammar.Coherent T run.grammar.stores.size)
    (h : Act.follow ctx target run = some (.ok found, run')) :
    run'.grammar.Coherent T run'.grammar.stores.size ∧
      ∀ x ∈ found, x.2.Belongs T run'.grammar.stores.size := by
  rcases Act.follow_cases ctx target run with ⟨found', hfollow, hfound⟩ |
    ⟨cell, label, e, scope, hcell, hfollow⟩
  · rw [hfollow] at h
    cases h
    refine ⟨hg, ?_⟩
    intro x hx
    rcases hfound x hx with ⟨cell, hcell⟩ | ⟨cell, hcell⟩
    · exact hg.definitions cell x.2 hcell
    · exact hg.settled cell x.2 hcell
  · rw [hfollow] at h
    cases h
    have hawaiting := hg.awaiting cell label e scope hcell
    have hsupplied := (supplied_adds hawaiting.1 scope cell).coherent run.grammar hg (by
      intro r hr
      rcases List.mem_map.1 hr with ⟨x, hx, rfl⟩
      exact hawaiting.2 x hx)
    refine ⟨hsupplied.1, ?_⟩
    intro x hx
    cases hx
    exact hsupplied.2 _ (List.mem_append_right _ List.mem_cons_self)

/-! ## Uses -/

/-- Whether a grammar comes from the empty one by some uses, in which all expressions were
of some kind of shapes and some recognizers have come to hand. -/
inductive InUse (T : Shape V α Unit → Prop) : Grammar V α → List (Recognizer V α) → Prop where
  | empty : InUse T {} []
  | build {g : Grammar V α} {hand : List (Recognizer V α)} {e : Expr V α} (h : InUse T g hand)
      (he : e.Uses T) : InUse T (build [] e g).2 ((build [] e g).1 :: hand)
  | bind {g : Grammar V α} {hand : List (Recognizer V α)} {r : Recognizer V α} (h : InUse T g hand)
      (name : String) (hr : r ∈ hand) : InUse T (g.bind name r) hand
  | unbind {g : Grammar V α} {hand : List (Recognizer V α)} (h : InUse T g hand) (name : String) :
      InUse T (g.unbind name) hand
  | find {g : Grammar V α} {hand : List (Recognizer V α)} {name : String} {r : Recognizer V α}
      (h : InUse T g hand) (hr : g.find? name = some r) : InUse T g (r :: hand)
  | toggle {g : Grammar V α} {hand : List (Recognizer V α)} {r : Recognizer V α}
      (h : InUse T g hand) (on : Bool) (hr : r ∈ hand) :
      InUse T (withCaching r on g).2 ((withCaching r on g).1 :: hand)
  | clear {g : Grammar V α} {hand : List (Recognizer V α)} {t : Recognizer V α}
      (h : InUse T g hand) (ht : t ∈ hand) : InUse T (g.dropTraces t) hand
  | parse {g : Grammar V α} {hand : List (Recognizer V α)} {q : Query V α} {limit : Nat}
      {report : Report V α} (h : InUse T g hand) (hroot : q.root ∈ hand)
      (hreport : q.parse? g limit = some report) : InUse T report.grammar hand
  | exec {g : Grammar V α} {hand : List (Recognizer V α)} {root : Recognizer V α} {limit : Nat}
      {input : Fragments} {values : List V} {window : ErrorWindow} {pos : Position}
      {report : Report V α} (h : InUse T g hand) (hroot : root ∈ hand)
      (hreport : g.exec? limit root input values window pos = some report) :
      InUse T report.grammar hand

/-- Building an expression under a name is a use. -/
theorem InUse.add {g : Grammar V α} {hand : List (Recognizer V α)} (h : InUse T g hand)
    (name : String) {e : Expr V α} (he : e.Uses T) :
    InUse T (g.add name e).2 ((g.add name e).1 :: hand) :=
  .bind (.build h he) name List.mem_cons_self

end Grammar

end Kinds

namespace Query

/-- The snapshots of a parse that starts from a grammar. -/
def snapshots (q : Query V α) (g : Grammar V α) (limit : Nat) : List (Snapshot V α) :=
  parseSnapshots limit [] q.context q.root { grammar := g }

/-- The state in which a parse that starts from a grammar attempts its root. -/
def opened (q : Query V α) (g : Grammar V α) : Run V α :=
  Run.opened q.context q.root { grammar := g }

/-- A parse that ends is an attempt of its root whose session is settled. -/
theorem exec_of_parse? {q : Query V α} {g : Grammar V α} {limit : Nat} {report : Report V α}
    (h : q.parse? g limit = some report) :
    ∃ mid, exec limit q.context q.root .start (q.opened g) = some (report.ending, mid) ∧
      report.grammar = (mid.closed none report.ending).grammar ∧
      report.events = mid.log.reverse := by
  rcases parse?_eq_some.1 h with ⟨run, hrun, hgrammar, hevents⟩
  rw [Act.inSession_eq] at hrun
  rcases Option.map_eq_some_iff.1 hrun with ⟨⟨ending, mid⟩, hmid, heq⟩
  rcases Prod.mk.inj heq with ⟨rfl, rfl⟩
  exact ⟨mid, hmid, hgrammar, by rw [hevents, log_closed]⟩

/-- A parse comes to an end when the attempt of its root does, and ends alike. -/
theorem exists_parse? {q : Query V α} {g : Grammar V α} {limit : Nat} {ending : Ending V α}
    {mid : Run V α} (h : exec limit q.context q.root .start (q.opened g) = some (ending, mid)) :
    ∃ report, q.parse? g limit = some report ∧ report.ending = ending := by
  have hrun := Act.inSession_eq q.context q.root (exec limit q.context q.root .start)
    { grammar := g }
  rw [show Run.opened q.context q.root { grammar := g } = q.opened g from rfl, h] at hrun
  exact ⟨_, parse?_of_run hrun, rfl⟩

end Query

end SlotGrammar
