import Mathlib.Logic.Function.Basic
import SlotGrammar.Grammar.Liveness

/-!
# Built grammars

A grammar starts empty and grows by building expressions and by binding and
removing names.  Every recognizer of such a grammar holds what its parts hold,
keeps its outcomes in a store of the grammar, and shares its identity only with
handles on the same recognizer.  Nothing is recorded yet.

Main results:

- Theorem `build_formed`: building an expression keeps a grammar well formed.
- Theorem `Built.formed`: every built grammar is well formed.
-/

namespace SlotGrammar

variable {V α : Type}

/-! ## Tables -/

namespace Table

variable {κ β : Type} [DecidableEq κ]

/-- A value that is found lies in the list under its key. -/
theorem mem_of_lookup {key : κ} {value : β} {es : List (κ × β)}
    (h : lookup key es = some value) : (key, value) ∈ es := by
  induction es with
  | nil => cases h
  | cons e es ih =>
    rw [lookup] at h
    split at h
    next hkey =>
      cases h
      subst hkey
      exact List.mem_cons_self
    · exact List.mem_cons_of_mem _ (ih h)

/-- Binding a key adds no value but the one that it is bound to. -/
theorem mem_values_put {t : Table κ β} {key : κ} {value x : β}
    (h : x ∈ (t.put key value).values) : x = value ∨ x ∈ t.values := by
  obtain ⟨e, he, rfl⟩ := List.mem_map.1 h
  have hreplace : ∀ es : List (κ × β), e ∈ replace key value es → e = (key, value) ∨ e ∈ es := by
    intro es
    induction es with
    | nil => simp [replace]
    | cons e' es ih =>
      intro hmem
      rw [replace] at hmem
      split at hmem
      · exact (List.mem_cons.1 hmem).imp_right (List.mem_cons_of_mem _)
      · rcases List.mem_cons.1 hmem with rfl | hmem
        · exact .inr List.mem_cons_self
        · exact (ih hmem).imp_right (List.mem_cons_of_mem _)
  rcases hreplace t.entries he with rfl | hold
  · exact .inl rfl
  · exact .inr (List.mem_map_of_mem hold)

end Table

/-! ## Well-formed recognizers -/

/-- Whether one recognizer is built over another, or is that one itself. -/
inductive Recognizer.Over (top : Recognizer V α) : Recognizer V α → Prop where
  | refl : Over top top
  | part {p : Recognizer V α} {handle : Handle} {shape : Shape V α (Recognizer V α)}
      (h : Over top (.node handle shape)) (hp : p ∈ shape.parts) : Over top p

/-- Whether a handle holds what the parts or the target of its recognizer hold. -/
def Recognizer.HoldsParts : Recognizer V α → Prop
  | .node handle shape => ∀ p ∈ shape.parts, ∀ l ∈ p.held, l ∈ handle.held
  | .link handle target => ∀ l ∈ target.held, l ∈ handle.held

/-- The recognizers without their handles, by their identities. -/
abbrev Bodies (V α : Type) := Nat → Recognizer V α

/-- Whether the handle of a recognizer agrees with the grammar around it: its
identity was given out, names its body, and its store exists. -/
structure Recognizer.Agrees (bodies : Bodies V α) (g : Grammar V α) (r : Recognizer V α) :
    Prop where
  id_lt : r.handle.id < g.nextNode
  body_eq : (bodies r.handle.id).withHandle r.handle = r
  store_lt : ∀ s, r.handle.caching.store? = some s → s < g.stores.size
  holdsParts : r.HoldsParts

/-- Whether a recognizer and everything that it is built over agree with a grammar. -/
def Recognizer.Formed (bodies : Bodies V α) (g : Grammar V α) (top : Recognizer V α) : Prop :=
  ∀ r, top.Over r → r.Agrees bodies g

/-- Whether a scope stands for recursive uses, which hold nothing. -/
def Grammar.ScopeFormed (bodies : Bodies V α) (g : Grammar V α) (scope : Grammar.Scope V α) :
    Prop :=
  ∀ x ∈ scope, x.2.Formed bodies g ∧ x.2.held = []

/-- Whether nothing is recorded in any store of a grammar. -/
def Grammar.Blank (g : Grammar V α) : Prop :=
  ∀ (s : StoreId) (store : Store V α), g.stores[s]? = some store → store = {}

/-- Whether everything in a grammar is well formed, by the identities and stores of
another state of it, and nothing is recorded. -/
structure Grammar.FormedIn (bodies : Bodies V α) (g base : Grammar V α) : Prop where
  names : ∀ r ∈ g.names.values, r.Formed bodies base
  definitions : ∀ (cell : Nat) (r : Recognizer V α), g.definitions[cell]? = some (some r) →
    r.Formed bodies base
  settled : ∀ (cell : Nat) (r : Recognizer V α), g.deferrals[cell]? = some (.settled r) →
    r.Formed bodies base
  scopes : ∀ (cell : Nat) (label : String) (e : Expr V α) (scope : Grammar.Scope V α),
    g.deferrals[cell]? = some (.awaiting label e scope) → base.ScopeFormed bodies scope
  blank : g.Blank

/-- Whether everything in a grammar is well formed and nothing is recorded. -/
abbrev Grammar.Formed (bodies : Bodies V α) (g : Grammar V α) : Prop := g.FormedIn bodies g

namespace Grammar

/-- Whether a grammar has grown into another one, whose bodies extend the old ones. -/
structure Grows (bodies : Bodies V α) (g : Grammar V α) (bodies' : Bodies V α)
    (g' : Grammar V α) : Prop where
  bodies_eq : ∀ i < g.nextNode, bodies' i = bodies i
  nextNode_le : g.nextNode ≤ g'.nextNode
  stores_le : g.stores.size ≤ g'.stores.size

namespace Grows

variable {bodies bodies' bodies'' : Bodies V α} {g g' g'' : Grammar V α}

/-- A grammar grows from itself. -/
theorem refl (bodies : Bodies V α) (g : Grammar V α) : Grows bodies g bodies g :=
  ⟨fun _ _ => rfl, Nat.le_refl _, Nat.le_refl _⟩

/-- Growth upon growth is growth. -/
theorem trans (h : Grows bodies g bodies' g') (h' : Grows bodies' g' bodies'' g'') :
    Grows bodies g bodies'' g'' where
  bodies_eq i hi := (h'.bodies_eq i (Nat.lt_of_lt_of_le hi h.nextNode_le)).trans (h.bodies_eq i hi)
  nextNode_le := Nat.le_trans h.nextNode_le h'.nextNode_le
  stores_le := Nat.le_trans h.stores_le h'.stores_le

/-- A well-formed recognizer stays well formed. -/
theorem formed (h : Grows bodies g bodies' g') {top : Recognizer V α}
    (htop : top.Formed bodies g) : top.Formed bodies' g' := by
  intro r hr
  have hold := htop r hr
  exact
    { id_lt := Nat.lt_of_lt_of_le hold.id_lt h.nextNode_le
      body_eq := by rw [h.bodies_eq _ hold.id_lt]; exact hold.body_eq
      store_lt := fun s hs => Nat.lt_of_lt_of_le (hold.store_lt s hs) h.stores_le
      holdsParts := hold.holdsParts }

/-- A scope stays well formed while the grammar grows. -/
theorem scopeFormed (h : Grows bodies g bodies' g') {scope : Scope V α}
    (hscope : g.ScopeFormed bodies scope) : g'.ScopeFormed bodies' scope :=
  fun x hx => ⟨h.formed (hscope x hx).1, (hscope x hx).2⟩

/-- What is well formed in a grammar stays so as the grammar grows. -/
theorem formedIn (h : Grows bodies g bodies' g') (hg : g''.FormedIn bodies g) :
    g''.FormedIn bodies' g' where
  names r hr := h.formed (hg.names r hr)
  definitions cell r hr := h.formed (hg.definitions cell r hr)
  settled cell r hr := h.formed (hg.settled cell r hr)
  scopes cell label e scope hs := h.scopeFormed (hg.scopes cell label e scope hs)
  blank := hg.blank

end Grows

end Grammar

/-- What a recognizer with a shape is built over is itself or below one of its parts. -/
theorem Recognizer.over_node_iff {handle : Handle} {shape : Shape V α (Recognizer V α)}
    {r : Recognizer V α} :
    (Recognizer.node handle shape).Over r ↔
      r = .node handle shape ∨ ∃ p ∈ shape.parts, p.Over r := by
  constructor
  · intro h
    induction h with
    | refl => exact .inl rfl
    | part _ hp ih =>
      rcases ih with heq | ⟨q, hq, hover⟩
      · cases heq
        exact .inr ⟨_, hp, .refl⟩
      · exact .inr ⟨q, hq, .part hover hp⟩
  · rintro (rfl | ⟨p, hp, hover⟩)
    · exact .refl
    · induction hover with
      | refl => exact .part .refl hp
      | part _ hq ih => exact .part ih hq

/-- A link is built over nothing but itself. -/
theorem Recognizer.over_link_iff {handle : Handle} {target : Link} {r : Recognizer V α} :
    (Recognizer.link handle target).Over r ↔ r = .link handle target := by
  constructor
  · intro h
    induction h with
    | refl => rfl
    | part _ _ ih => cases ih
  · rintro rfl
    exact .refl

/-- A recognizer is well formed when it agrees with the grammar and its parts are
well formed. -/
theorem Recognizer.formed_node {bodies : Bodies V α} {g : Grammar V α} {handle : Handle}
    {shape : Shape V α (Recognizer V α)} (hself : (Recognizer.node handle shape).Agrees bodies g)
    (hparts : ∀ p ∈ shape.parts, p.Formed bodies g) :
    (Recognizer.node handle shape).Formed bodies g := by
  intro r hr
  rcases Recognizer.over_node_iff.1 hr with rfl | ⟨p, hp, hover⟩
  · exact hself
  · exact hparts p hp r hover

/-- A link is well formed as soon as it agrees with the grammar. -/
theorem Recognizer.formed_link {bodies : Bodies V α} {g : Grammar V α} {handle : Handle}
    {target : Link} (hself : (Recognizer.link handle target).Agrees bodies g) :
    (Recognizer.link handle target).Formed bodies g := by
  intro r hr
  cases Recognizer.over_link_iff.1 hr
  exact hself

namespace Grammar

/-! ## Names -/

/-- What a name stands for is in the scope or bound in the table. -/
theorem resolve?_eq_some {g : Grammar V α} {scope : Scope V α} {name : String}
    {r : Recognizer V α} (h : g.resolve? scope name = some r) :
    (∃ n, (n, r) ∈ scope) ∨ r ∈ g.names.values := by
  unfold resolve? at h
  cases hscope : Table.lookup name scope with
  | some r' =>
    rw [hscope] at h
    cases h
    exact .inl ⟨name, Table.mem_of_lookup hscope⟩
  | none =>
    rw [hscope] at h
    exact .inr (List.mem_map.2 ⟨_, Table.mem_of_lookup h, rfl⟩)

/-! ## Toggling -/

/-- Toggling gives the handle itself, or another handle on the same body, with the
store that there was or with a new one. -/
theorem withCaching_cases (r : Recognizer V α) (on : Bool) (g : Grammar V α) :
    withCaching r on g = (r, g) ∨
      ∃ caching stores, (stores = g.stores ∨ stores = g.stores.push {}) ∧
        (∀ s, caching.store? = some s → r.handle.caching.store? = some s ∨ s < stores.size) ∧
        withCaching r on g =
          (r.withHandle { r.handle with node := g.nextNode, caching },
            { g with nextNode := g.nextNode + 1, stores }) := by
  unfold withCaching
  split
  · exact .inl rfl
  right
  cases on with
  | true =>
    cases hstore : r.handle.caching.store? with
    | none => exact ⟨.active g.stores.size, _, .inr rfl, by simp [Caching.store?], rfl⟩
    | some s => exact ⟨.active s, _, .inl rfl, by simp [Caching.store?], rfl⟩
  | false =>
    cases hstore : r.handle.caching.store? with
    | none => exact ⟨.never, _, .inl rfl, by simp [Caching.store?], rfl⟩
    | some s => exact ⟨.paused s, _, .inl rfl, by simp [Caching.store?], rfl⟩

/-- A blank grammar with one more empty store is blank. -/
theorem Blank.push {g : Grammar V α} (h : g.Blank) {n : Nat} :
    Blank { g with nextNode := n, stores := g.stores.push {} } := by
  intro s store hs
  rcases Nat.lt_trichotomy s g.stores.size with hlt | heq | hgt
  · rw [Array.getElem?_push_lt hlt] at hs
    exact h s store (by rw [← hs, Array.getElem?_eq_getElem hlt])
  · rw [heq, Array.getElem?_push_size] at hs
    exact (Option.some.inj hs).symm
  · rw [Array.getElem?_eq_none (by simp; omega)] at hs
    cases hs

/-- A well-formed recognizer is well formed under another handle with its identity
and with a store that exists. -/
theorem Grows.withHandle {bodies bodies' : Bodies V α} {g g' : Grammar V α}
    (h : Grows bodies g bodies' g') {r : Recognizer V α} (hr : r.Formed bodies g) {node : Nat}
    {caching : Caching} (hstore : ∀ s, caching.store? = some s → s < g'.stores.size) :
    (r.withHandle { r.handle with node, caching }).Formed bodies' g' := by
  have hself := h.formed hr r .refl
  have hbody : (bodies' r.handle.id).withHandle { r.handle with node, caching } =
      r.withHandle { r.handle with node, caching } := by
    conv => rhs; rw [← hself.body_eq]
    cases bodies' r.handle.id <;> rfl
  cases r with
  | node handle shape =>
    exact Recognizer.formed_node ⟨hself.id_lt, hbody, hstore, hself.holdsParts⟩
      fun p hp x hx => h.formed hr x (Recognizer.over_node_iff.2 (.inr ⟨p, hp, hx⟩))
  | link handle target =>
    exact Recognizer.formed_link ⟨hself.id_lt, hbody, hstore, hself.holdsParts⟩

/-! ## Building -/

/-- Whether a construction, started with some well-formed recognizers in hand, keeps
the grammar and these recognizers well formed and makes well-formed ones. -/
def Careful {β : Type} (scope : Scope V α) (hand : List (Recognizer V α)) (m : GrammarM V α β)
    (made : β → List (Recognizer V α)) : Prop :=
  ∀ (bodies : Bodies V α) (g : Grammar V α), g.Formed bodies → g.ScopeFormed bodies scope →
    (∀ r ∈ hand, r.Formed bodies g) →
    ∃ bodies', Grows bodies g bodies' (m g).2 ∧ (m g).2.Formed bodies' ∧
      ∀ r ∈ hand ++ made (m g).1, r.Formed bodies' (m g).2

namespace Careful

variable {β γ : Type} {scope : Scope V α} {hand : List (Recognizer V α)}

/-- A builder that makes nothing is careful with what is at hand. -/
theorem pure {b : β} {made : β → List (Recognizer V α)} (h : ∀ r ∈ made b, r ∈ hand) :
    Careful scope hand (Pure.pure b) made := by
  intro bodies g hg _ hhand
  refine ⟨bodies, .refl bodies g, hg, ?_⟩
  intro r hr
  rcases List.mem_append.1 hr with hold | hnew
  · exact hhand r hold
  · exact hhand r (h r hnew)

/-- Two careful builders in a row are careful with what both of them make. -/
theorem bind {m : GrammarM V α β} {next : β → GrammarM V α γ}
    {made : β → List (Recognizer V α)} {made' : γ → List (Recognizer V α)}
    (hm : Careful scope hand m made)
    (hnext : ∀ g, Careful scope (hand ++ made (m g).1) (next (m g).1) made') :
    Careful scope hand (m >>= next) made' := by
  intro bodies g hg hscope hhand
  obtain ⟨bodies₁, hgrow₁, hg₁, hhand₁⟩ := hm bodies g hg hscope hhand
  obtain ⟨bodies₂, hgrow₂, hg₂, hhand₂⟩ :=
    hnext g bodies₁ (m g).2 hg₁ (hgrow₁.scopeFormed hscope) hhand₁
  refine ⟨bodies₂, hgrow₁.trans hgrow₂, hg₂, ?_⟩
  intro r hr
  apply hhand₂
  rw [List.mem_append] at hr ⊢
  exact hr.imp_left (List.mem_append_left _)

/-- A construction may use a recursive name for a recognizer that is in hand. -/
theorem inScope {m : GrammarM V α β} {made : β → List (Recognizer V α)} {name : String}
    {self : Recognizer V α} (hm : Careful ((name, self) :: scope) hand m made)
    (hself : self ∈ hand) (hheld : self.held = []) : Careful scope hand m made := by
  intro bodies g hg hscope hhand
  refine hm bodies g hg ?_ hhand
  intro x hx
  rcases List.mem_cons.1 hx with rfl | hx
  · exact ⟨hhand self hself, hheld⟩
  · exact hscope x hx

/-- A construction that changes nothing but cells and names leaves all recognizers
well formed. -/
theorem ofGrammar {m : GrammarM V α β} {made : β → List (Recognizer V α)}
    (hnode : ∀ g, (m g).2.nextNode = g.nextNode) (hstores : ∀ g, (m g).2.stores = g.stores)
    (hformed : ∀ (bodies : Bodies V α) (g : Grammar V α), g.Formed bodies →
      g.ScopeFormed bodies scope → (∀ r ∈ hand, r.Formed bodies g) →
      (m g).2.FormedIn bodies g ∧ ∀ r ∈ made (m g).1, r.Formed bodies g) :
    Careful scope hand m made := by
  intro bodies g hg hscope hhand
  have hgrow : Grows bodies g bodies (m g).2 :=
    ⟨fun _ _ => rfl, Nat.le_of_eq (hnode g).symm, Nat.le_of_eq (by rw [hstores g])⟩
  obtain ⟨hg', hmade⟩ := hformed bodies g hg hscope hhand
  refine ⟨bodies, hgrow, hgrow.formedIn hg', ?_⟩
  intro r hr
  rcases List.mem_append.1 hr with hold | hnew
  · exact hgrow.formed (hhand r hold)
  · exact hgrow.formed (hmade r hnew)

/-- A recognizer with a new handle is well formed when it is built over recognizers
that are in hand. -/
theorem newHandle {held : List Link} (make : Handle → Recognizer V α)
    (hhandle : ∀ handle, (make handle).handle = handle)
    (hbody : ∀ handle handle', (make handle).withHandle handle' = make handle')
    (hholds : ∀ handle, handle.held = held → (make handle).HoldsParts)
    (hformed : ∀ (bodies : Bodies V α) (g : Grammar V α) (handle : Handle),
      (make handle).Agrees bodies g → (∀ r ∈ hand, r.Formed bodies g) →
      (make handle).Formed bodies g) :
    Careful scope hand (do return make (← Grammar.newHandle held)) fun r => [r] := by
  intro bodies g hg _ hhand
  let handle : Handle := ⟨g.nextNode, g.nextNode, .never, held⟩
  let bodies' : Bodies V α := Function.update bodies g.nextNode (make handle)
  let g' : Grammar V α := { g with nextNode := g.nextNode + 1 }
  have hgrow : Grows bodies g bodies' g' := by
    refine ⟨?_, Nat.le_succ _, Nat.le_refl _⟩
    intro i hi
    exact Function.update_of_ne (Nat.ne_of_lt hi) _ _
  have hself : (make handle).Agrees bodies' g' := by
    refine ⟨?_, ?_, ?_, hholds handle rfl⟩
    · rw [hhandle]
      exact Nat.lt_succ_self _
    · rw [hhandle]
      show (Function.update bodies g.nextNode (make handle) g.nextNode).withHandle handle = _
      rw [Function.update_self, hbody]
    · rw [hhandle]
      intro s hs
      cases hs
  refine ⟨bodies', hgrow, ⟨(hgrow.formedIn hg).names, (hgrow.formedIn hg).definitions,
    (hgrow.formedIn hg).settled, (hgrow.formedIn hg).scopes, hg.blank⟩, ?_⟩
  intro r hr
  rcases List.mem_append.1 hr with hold | hnew
  · exact hgrow.formed (hhand r hold)
  · rw [List.mem_singleton.1 hnew]
    exact hformed bodies' g' handle hself fun p hp => hgrow.formed (hhand p hp)

/-- A new node over parts at hand is made with care. -/
theorem newNode {shape : Shape V α (Recognizer V α)} (h : ∀ p ∈ shape.parts, p ∈ hand) :
    Careful scope hand (Grammar.newNode shape) fun r => [r] := by
  refine newHandle (fun handle => .node handle shape) (fun _ => rfl) (fun _ _ => rfl) ?_ ?_
  · intro handle hheld p hp l hl
    rw [hheld]
    exact Shape.mem_held_iff.2 ⟨p, hp, hl⟩
  · intro bodies g handle hself hhand
    exact Recognizer.formed_node hself fun p hp => hhand p (h p hp)

/-- A new link is made with care. -/
theorem newLink (target : Link) : Careful scope hand (Grammar.newLink target) fun r => [r] := by
  refine newHandle (fun handle => .link handle target) (fun _ => rfl) (fun _ _ => rfl) ?_ ?_
  · intro handle hheld l hl
    rw [hheld]
    exact hl
  · intro bodies g handle hself _
    exact Recognizer.formed_link hself

/-- Toggling gives a well-formed handle, on an empty store if it has a new one. -/
theorem withCaching {r : Recognizer V α} (on : Bool) (h : r ∈ hand) :
    Careful scope hand (Grammar.withCaching r on) fun r => [r] := by
  intro bodies g hg _ hhand
  have hr := hhand r h
  rcases withCaching_cases r on g with heq | ⟨caching, stores, hstores, hstore, heq⟩
  · rw [heq]
    refine ⟨bodies, .refl bodies g, hg, ?_⟩
    intro x hx
    rcases List.mem_append.1 hx with hold | hnew
    · exact hhand x hold
    · rw [List.mem_singleton.1 hnew]
      exact hr
  · rw [heq]
    have hsize : g.stores.size ≤ stores.size := by
      rcases hstores with rfl | rfl
      · exact Nat.le_refl _
      · simp
    have hgrow : Grows bodies g bodies { g with nextNode := g.nextNode + 1, stores } :=
      ⟨fun _ _ => rfl, Nat.le_succ _, hsize⟩
    have hblank : Blank { g with nextNode := g.nextNode + 1, stores } := by
      rcases hstores with rfl | rfl
      · exact hg.blank
      · exact hg.blank.push
    refine ⟨bodies, hgrow, ⟨(hgrow.formedIn hg).names, (hgrow.formedIn hg).definitions,
      (hgrow.formedIn hg).settled, (hgrow.formedIn hg).scopes, hblank⟩, ?_⟩
    intro x hx
    rcases List.mem_append.1 hx with hold | hnew
    · exact hgrow.formed (hhand x hold)
    · rw [List.mem_singleton.1 hnew]
      refine hgrow.withHandle hr ?_
      intro s hs
      rcases hstore s hs with hold | hnew
      · exact Nat.lt_of_lt_of_le ((hr r .refl).store_lt s hold) hsize
      · exact hnew

/-- A cell for a definition that is about to be built is empty. -/
theorem newDefinition :
    Careful scope hand (Grammar.newDefinition : GrammarM V α Nat) fun _ => [] := by
  refine ofGrammar (fun _ => rfl) (fun _ => rfl) ?_
  intro bodies g hg _ _
  refine ⟨⟨hg.names, ?_, hg.settled, hg.scopes, hg.blank⟩, by simp⟩
  intro cell r hr
  have hold : g.definitions[cell]? = some (some r) := by
    simp only [Grammar.newDefinition, Array.getElem?_push] at hr
    split at hr
    · cases hr
    · exact hr
  exact hg.definitions cell r hold

/-- A definition is filled with a recognizer that is in hand. -/
theorem define {r : Recognizer V α} (cell : Nat) (h : r ∈ hand) :
    Careful scope hand (Grammar.define cell r) fun _ => [] := by
  refine ofGrammar (fun _ => rfl) (fun _ => rfl) ?_
  intro bodies g hg _ hhand
  refine ⟨⟨hg.names, ?_, hg.settled, hg.scopes, hg.blank⟩, by simp⟩
  intro c x hx
  simp only [Grammar.define, Array.getElem?_setIfInBounds] at hx
  split at hx
  · split at hx
    · cases hx
      exact hhand _ h
    · cases hx
  · exact hg.definitions c x hx

/-- A recognizer that is built later keeps the scope of its expression. -/
theorem newDeferral (label : String) (e : Expr V α) :
    Careful scope hand (Grammar.newDeferral (.awaiting label e scope)) fun _ => [] := by
  refine ofGrammar (fun _ => rfl) (fun _ => rfl) ?_
  intro bodies g hg hscope _
  refine ⟨⟨hg.names, hg.definitions, ?_, ?_, hg.blank⟩, by simp⟩
  · intro cell r hr
    simp only [Grammar.newDeferral, Array.getElem?_push] at hr
    split at hr
    · cases hr
    · exact hg.settled cell r hr
  · intro cell label' e' scope' hr
    simp only [Grammar.newDeferral, Array.getElem?_push] at hr
    split at hr
    · cases hr
      exact hscope
    · exact hg.scopes cell label' e' scope' hr

/-- A name is bound to a recognizer that is in hand. -/
theorem bindName {r : Recognizer V α} (name : String) (h : r ∈ hand) :
    Careful scope hand (modify fun g : Grammar V α => g.bind name r) fun _ => [] := by
  refine ofGrammar (fun _ => rfl) (fun _ => rfl) ?_
  intro bodies g hg _ hhand
  refine ⟨⟨?_, hg.definitions, hg.settled, hg.scopes, hg.blank⟩, by simp⟩
  intro x hx
  rcases Table.mem_values_put hx with rfl | hold
  · exact hhand x h
  · exact hg.names x hold

/-- A name stands for a well-formed recognizer. -/
theorem ref (name : String) :
    Careful scope hand (Grammar.build scope (.ref name)) fun r => [r] := by
  intro bodies g hg hscope hhand
  cases hname : g.resolve? scope name with
  | some r =>
    rw [build_ref hname]
    refine ⟨bodies, .refl bodies g, hg, ?_⟩
    intro x hx
    rcases List.mem_append.1 hx with hold | hnew
    · exact hhand x hold
    · rw [List.mem_singleton.1 hnew]
      rcases resolve?_eq_some hname with ⟨n, hmem⟩ | hmem
      · exact (hscope _ hmem).1
      · exact hg.names r hmem
  | none =>
    rw [build_unresolved hname]
    exact newLink .unbound bodies g hg hscope hhand

end Careful

mutual

/-- Building an expression keeps a grammar well formed and gives a well-formed
recognizer. -/
theorem build_careful (scope : Scope V α) (hand : List (Recognizer V α)) :
    ∀ e : Expr V α, Careful scope hand (build scope e) fun r => [r]
  | .make shape => by
    rw [build]
    refine (buildShape_careful scope hand shape).bind fun g => ?_
    exact Careful.newNode fun p hp => List.mem_append_right _ hp
  | .cached on e => by
    rw [build]
    refine (build_careful scope hand e).bind fun g => ?_
    exact Careful.withCaching on (by simp)
  | .deferred label e => by
    rw [build]
    refine (Careful.newDeferral label e).bind fun g => ?_
    exact Careful.newLink _
  | .recursive name body => by
    rw [build]
    refine Careful.newDefinition.bind fun g => ?_
    refine (Careful.newLink _).bind fun g' => ?_
    refine (Careful.inScope (build_careful _ _ body) (by simp) (newLink_held _ _)).bind
      fun g'' => ?_
    refine (Careful.define _ (by simp)).bind fun _ => ?_
    exact Careful.newLink _
  | .named name e => by
    rw [build]
    refine (build_careful scope hand e).bind fun g => ?_
    refine (Careful.bindName name (by simp)).bind fun _ => ?_
    exact Careful.pure (by simp)
  | .ref name => Careful.ref name

/-- Building the parts of a shape gives a shape over well-formed recognizers. -/
theorem buildShape_careful (scope : Scope V α) (hand : List (Recognizer V α)) :
    ∀ shape : Shape V α (Expr V α), Careful scope hand (buildShape scope shape) Shape.parts
  | .leaf leaf => by
    rw [buildShape]
    exact Careful.pure (by simp [Shape.parts])
  | .mapped transform p => by
    rw [buildShape]
    exact (build_careful scope hand p).bind fun _ => Careful.pure (by simp [Shape.parts])
  | .sequence ps => by
    rw [buildShape]
    exact (buildParts_careful scope hand ps).bind fun _ =>
      Careful.pure fun _ hr => List.mem_append_right _ hr
  | .choice ps => by
    rw [buildShape]
    exact (buildParts_careful scope hand ps).bind fun _ =>
      Careful.pure fun _ hr => List.mem_append_right _ hr
  | .optional p => by
    rw [buildShape]
    exact (build_careful scope hand p).bind fun _ => Careful.pure (by simp [Shape.parts])
  | .required p => by
    rw [buildShape]
    exact (build_careful scope hand p).bind fun _ => Careful.pure (by simp [Shape.parts])
  | .conditional t p q => by
    rw [buildShape]
    refine (build_careful scope hand t).bind fun _ => ?_
    refine (build_careful scope _ p).bind fun _ => ?_
    exact (build_careful scope _ q).bind fun _ => Careful.pure (by simp [Shape.parts])
  | .repeated p => by
    rw [buildShape]
    exact (build_careful scope hand p).bind fun _ => Careful.pure (by simp [Shape.parts])
  | .separated p d => by
    rw [buildShape]
    refine (build_careful scope hand p).bind fun _ => ?_
    exact (build_careful scope _ d).bind fun _ => Careful.pure (by simp [Shape.parts])
  | .butNot p q => by
    rw [buildShape]
    refine (build_careful scope hand p).bind fun _ => ?_
    exact (build_careful scope _ q).bind fun _ => Careful.pure (by simp [Shape.parts])
  | .catching p => by
    rw [buildShape]
    exact (build_careful scope hand p).bind fun _ => Careful.pure (by simp [Shape.parts])
  | .nested sub p => by
    rw [buildShape]
    exact (build_careful scope hand p).bind fun _ => Careful.pure (by simp [Shape.parts])
  | .clearing t p => by
    rw [buildShape]
    refine (build_careful scope hand t).bind fun _ => ?_
    exact (build_careful scope _ p).bind fun _ => Careful.pure (by simp [Shape.parts])
  | .counted label p => by
    rw [buildShape]
    exact (build_careful scope hand p).bind fun _ => Careful.pure (by simp [Shape.parts])
  | .probed label p => by
    rw [buildShape]
    exact (build_careful scope hand p).bind fun _ => Careful.pure (by simp [Shape.parts])

/-- Building a list of parts gives well-formed recognizers. -/
theorem buildParts_careful (scope : Scope V α) (hand : List (Recognizer V α)) :
    ∀ es : List (Expr V α), Careful scope hand (buildParts scope es) id
  | [] => by
    rw [buildParts]
    exact Careful.pure (by simp)
  | e :: es => by
    rw [buildParts]
    refine (build_careful scope hand e).bind fun _ => ?_
    exact (buildParts_careful scope _ es).bind fun _ => Careful.pure (by simp +contextual)

end

/-- Building an expression keeps a grammar well formed, bodies aside that it adds. -/
theorem build_formed {bodies : Bodies V α} {g : Grammar V α} (hg : g.Formed bodies)
    (e : Expr V α) :
    ∃ bodies', (build [] e g).2.Formed bodies' ∧
      (build [] e g).1.Formed bodies' (build [] e g).2 := by
  obtain ⟨bodies', -, hg', hhand⟩ :=
    build_careful [] [] e bodies g hg (by simp [ScopeFormed]) (by simp)
  exact ⟨bodies', hg', hhand _ (by simp)⟩

/-! ## Built grammars -/

/-- The grammars that come from the empty one by building expressions under names and
by removing names. -/
inductive Built : Grammar V α → Prop where
  | empty : Built {}
  | add {g : Grammar V α} (h : Built g) (name : String) (e : Expr V α) : Built (g.add name e).2
  | unbind {g : Grammar V α} (h : Built g) (name : String) : Built (g.unbind name)

/-- Every built grammar is well formed. -/
theorem Built.formed {g : Grammar V α} (h : g.Built) : ∃ bodies, g.Formed bodies := by
  induction h with
  | empty =>
    refine ⟨fun _ => .link ⟨0, 0, .never, []⟩ .unbound, ?_, ?_, ?_, ?_, ?_⟩
    · simp [Table.values, Table.empty]
    · simp
    · simp
    · simp
    · simp [Blank]
  | @add g _ name e ih =>
    obtain ⟨bodies, hg⟩ := ih
    obtain ⟨bodies', hg', hr⟩ := build_formed hg e
    have hgrow : Grows bodies' (build [] e g).2 bodies' (g.add name e).2 :=
      ⟨fun _ _ => rfl, Nat.le_refl _, Nat.le_refl _⟩
    refine ⟨bodies', hgrow.formedIn ⟨?_, hg'.definitions, hg'.settled, hg'.scopes, hg'.blank⟩⟩
    intro r hmem
    rcases Table.mem_values_put hmem with rfl | hold
    · exact hr
    · exact hg'.names r hold
  | @unbind g _ name ih =>
    obtain ⟨bodies, hg⟩ := ih
    have hgrow : Grows bodies g bodies (g.unbind name) :=
      ⟨fun _ _ => rfl, Nat.le_refl _, Nat.le_refl _⟩
    refine ⟨bodies, hgrow.formedIn ⟨?_, hg.definitions, hg.settled, hg.scopes, hg.blank⟩⟩
    intro r hmem
    obtain ⟨e, he, rfl⟩ := List.mem_map.1 hmem
    exact hg.names _ (List.mem_map_of_mem (List.mem_filter.1 he).1)

end Grammar

end SlotGrammar
