import SlotGrammar.Proofs.Lazy.Renumbering
import SlotGrammar.Proofs.Following

/-!
# Unfolding

A deferral is built when a run first comes to it.  What is built for it holds only what names
hold and what was built for it, and no stores matter to it, so it matters little when that
happens.

Main results:

- Theorem `build_draws`: what is built holds what names hold and what is new.
- Theorem `BuiltOf.whole`: the library's grammars are whole.
- Theorem `build_unaware`: building takes no notice of what stores hold.
-/

namespace SlotGrammar

variable {V α : Type}

/-! ## What recognizers hold -/

/-- Whether a link is to a cell that a grammar does not have yet. -/
def Link.Since (lo : Grammar V α) : Link → Prop
  | .definition c => lo.definitions.size ≤ c
  | .deferred c => lo.deferrals.size ≤ c
  | .self _ => False
  | .unbound => False

/-- Whether a link is held by a recognizer with a name. -/
def Grammar.NamedHeld (g : Grammar V α) (l : Link) : Prop := ∃ r ∈ g.names.values, l ∈ r.held

/-- Whether a recognizer holds only what names of a grammar hold and what is new in it. -/
def Recognizer.Draws (lo : Grammar V α) (r : Recognizer V α) : Prop :=
  ∀ l ∈ r.held, lo.NamedHeld l ∨ l.Since lo

namespace Grammar

/-- Whether a grammar has the names of an earlier state, and its new definitions hold only
what these names hold and what is new. -/
structure Drawn (lo a : Grammar V α) : Prop where
  names : a.names = lo.names
  count_le : ∀ k, lo.count k ≤ a.count k
  definitions : ∀ (c : Nat) (r : Recognizer V α), lo.definitions.size ≤ c →
    a.definitions[c]? = some (some r) → r.Draws lo

/-- Whether a construction makes recognizers that hold only what names hold and what is new,
when those in hand do. -/
def Drawing {β : Type} (lo : Grammar V α) (hand : List (Recognizer V α)) (m : GrammarM V α β)
    (made : β → List (Recognizer V α)) : Prop :=
  ∀ a, lo.Drawn a → (∀ r ∈ hand, r.Draws lo) →
    lo.Drawn (m a).2 ∧ ∀ r ∈ hand ++ made (m a).1, r.Draws lo

namespace Drawing

variable {β γ : Type} {lo : Grammar V α} {hand : List (Recognizer V α)}

/-- Nothing is drawn on when what is given back is in hand. -/
theorem pure {b : β} {made : β → List (Recognizer V α)} (h : ∀ r ∈ made b, r ∈ hand) :
    Drawing lo hand (Pure.pure b) made := by
  intro a ha hhand
  refine ⟨ha, ?_⟩
  intro r hr
  rcases List.mem_append.1 hr with hold | hnew
  · exact hhand r hold
  · exact hhand r (h r hnew)

/-- A construction in two parts draws on what its parts draw on. -/
theorem bind {m : GrammarM V α β} {next : β → GrammarM V α γ}
    {made : β → List (Recognizer V α)} {made' : γ → List (Recognizer V α)}
    (hm : Drawing lo hand m made)
    (hnext : ∀ a, lo.Drawn a → Drawing lo (hand ++ made (m a).1) (next (m a).1) made') :
    Drawing lo hand (m >>= next) made' := by
  intro a ha hhand
  obtain ⟨ha', hhand'⟩ := hm a ha hhand
  obtain ⟨ha'', hhand''⟩ := hnext a ha (m a).2 ha' hhand'
  refine ⟨ha'', ?_⟩
  intro r hr
  apply hhand''
  rw [List.mem_append] at hr ⊢
  exact hr.imp_left (List.mem_append_left _)

/-- A construction that fills no cell. -/
theorem ofGrammar {m : GrammarM V α β} {made : β → List (Recognizer V α)}
    (hnames : ∀ a, (m a).2.names = a.names) (hcount : ∀ a k, a.count k ≤ (m a).2.count k)
    (hcells : ∀ (a : Grammar V α) (c : Nat) (r : Recognizer V α),
      (m a).2.definitions[c]? = some (some r) → a.definitions[c]? = some (some r))
    (hmade : ∀ a, lo.Drawn a → (∀ r ∈ hand, r.Draws lo) → ∀ r ∈ made (m a).1, r.Draws lo) :
    Drawing lo hand m made := by
  intro a ha hhand
  refine ⟨⟨(hnames a).trans ha.names, fun k => Nat.le_trans (ha.count_le k) (hcount a k),
    fun c r hle hr => ha.definitions c r hle (hcells a c r hr)⟩, ?_⟩
  intro r hr
  rcases List.mem_append.1 hr with hold | hnew
  · exact hhand r hold
  · exact hmade a ha hhand r hnew

/-- A new recognizer draws on its parts. -/
theorem newNode {shape : Shape V α (Recognizer V α)} (h : ∀ p ∈ shape.parts, p ∈ hand) :
    Drawing lo hand (Grammar.newNode shape) fun r => [r] := by
  refine ofGrammar (fun _ => rfl) ?_ (fun _ _ _ hr => hr) ?_
  · exact fun a k => (Advances.more a (.inl rfl)).count_le k
  · intro a _ hhand r hr l hl
    rw [List.mem_singleton.1 hr] at hl
    obtain ⟨p, hp, hl⟩ := Shape.mem_held_iff.1 hl
    exact hhand p (h p hp) l hl

/-- A new link draws on what it holds. -/
theorem newLink {l : Link} (h : ∀ k ∈ l.held, k.Since lo) :
    Drawing lo hand (Grammar.newLink l) fun r => [r] := by
  refine ofGrammar (fun _ => rfl) ?_ (fun _ _ _ hr => hr) ?_
  · exact fun a k => (Advances.more a (.inl rfl)).count_le k
  · intro a _ _ r hr k hk
    rw [List.mem_singleton.1 hr] at hk
    exact .inr (h k hk)

/-- Toggling keeps what a recognizer holds. -/
theorem withCaching {r : Recognizer V α} (on : Bool) (h : r ∈ hand) :
    Drawing lo hand (Grammar.withCaching r on) fun r => [r] := by
  have hstep : ∀ a : Grammar V α, (Grammar.withCaching r on a).2.names = a.names ∧
      (∀ k, a.count k ≤ (Grammar.withCaching r on a).2.count k) ∧
      (Grammar.withCaching r on a).2.definitions = a.definitions := by
    intro a
    rcases withCaching_cases r on a with heq | ⟨caching, stores, hstores, -, heq⟩
    · rw [heq]
      exact ⟨rfl, fun _ => Nat.le_refl _, rfl⟩
    · rw [heq]
      exact ⟨rfl, (Advances.more a hstores).count_le, rfl⟩
  refine ofGrammar (fun a => (hstep a).1) (fun a => (hstep a).2.1) ?_ ?_
  · intro a c q hq
    rw [(hstep a).2.2] at hq
    exact hq
  · intro a _ hhand q hq l hl
    rw [List.mem_singleton.1 hq, withCaching_held] at hl
    exact hhand r h l hl

/-- A new definition draws on nothing. -/
theorem newDefinition :
    Drawing lo hand (Grammar.newDefinition : GrammarM V α Nat) fun _ => [] := by
  refine ofGrammar (fun _ => rfl) (fun a => (Advances.newDefinition a).count_le) ?_ (by simp)
  intro a c r hr
  simp only [Grammar.newDefinition, Array.getElem?_push] at hr
  split at hr
  · cases hr
  · exact hr

/-- A definition is filled with a recognizer that is in hand. -/
theorem define {r : Recognizer V α} (cell : Nat) (h : r ∈ hand) :
    Drawing lo hand (Grammar.define cell r) fun _ => [] := by
  intro a ha hhand
  refine ⟨⟨ha.names, fun k => (count_define cell r a).symm ▸ ha.count_le k, ?_⟩, by simpa⟩
  intro c q hle hq
  simp only [Grammar.define, Array.getElem?_setIfInBounds] at hq
  split at hq
  · split at hq
    · cases hq
      exact hhand r h
    · cases hq
  · exact ha.definitions c q hle hq

/-- A new deferral draws on nothing yet. -/
theorem newDeferral (d : Deferral V α) :
    Drawing lo hand (Grammar.newDeferral d) fun _ => [] :=
  ofGrammar (fun _ => rfl) (fun a => (Advances.newDeferral a d).count_le) (fun _ _ _ hr => hr)
    (by simp)

/-- A name stands for a recognizer that holds what names hold, or nothing. -/
theorem ref {scope : Scope V α} (hscope : ∀ x ∈ scope, x.2.held = []) (name : String) :
    Drawing lo hand (Grammar.build scope (.ref name)) fun r => [r] := by
  intro a ha hhand
  cases hname : a.resolve? scope name with
  | some r =>
    rw [build_ref hname]
    refine ⟨ha, ?_⟩
    intro q hq
    rcases List.mem_append.1 hq with hold | hnew
    · exact hhand q hold
    · rw [List.mem_singleton.1 hnew]
      intro l hl
      rcases resolve?_eq_some hname with ⟨n, hmem⟩ | hmem
      · rw [hscope _ hmem] at hl
        cases hl
      · exact .inl ⟨r, ha.names ▸ hmem, hl⟩
  | none =>
    rw [build_unresolved hname]
    exact newLink (by simp [Link.held]) a ha hhand

/-- The parts of a list are built one after the other. -/
theorem buildParts {scope : Scope V α} {es : List (Expr V α)}
    (h : ∀ e ∈ es, ∀ hand, Drawing lo hand (Grammar.build scope e) fun r => [r])
    (hand : List (Recognizer V α)) : Drawing lo hand (Grammar.buildParts scope es) id := by
  induction es generalizing hand with
  | nil =>
    rw [Grammar.buildParts]
    exact pure (by simp)
  | cons e es ih =>
    rw [Grammar.buildParts]
    refine (h e List.mem_cons_self hand).bind fun a _ => ?_
    refine (ih (fun e' he' => h e' (List.mem_cons_of_mem _ he')) _).bind fun a' _ => ?_
    exact pure (by simp +contextual)

end Drawing

/-- Building an expression that binds no name makes recognizers that hold what names hold and
what is new. -/
theorem build_draws {lo : Grammar V α} {T : Shape V α Unit → Prop} {binds : Bool} {e : Expr V α}
    (he : e.Proper T binds) (hbinds : binds = false) {scope : Scope V α}
    (hscope : ∀ x ∈ scope, x.2.held = []) (hand : List (Recognizer V α)) :
    Drawing lo hand (build scope e) fun r => [r] := by
  induction he generalizing scope hand with
  | @make binds shape _ _ ih =>
    rw [build_make]
    refine (Drawing.buildParts (fun p hp hand => ih p hp hbinds hscope hand) hand).bind
      fun a _ => ?_
    refine Drawing.newNode fun p hp => List.mem_append_right _ ?_
    rwa [shape.parts_withParts (buildParts_length scope shape.parts a)] at hp
  | @cached binds on e _ ih =>
    rw [build]
    exact (ih hbinds hscope hand).bind fun a _ => Drawing.withCaching on (by simp)
  | @deferred binds label e _ _ =>
    rw [build]
    refine (Drawing.newDeferral _).bind fun a ha => Drawing.newLink ?_
    intro k hk
    rw [List.mem_singleton.1 hk]
    exact ha.count_le .deferral
  | @recursive binds name body _ ih =>
    rw [build]
    refine Drawing.newDefinition.bind fun a ha => ?_
    refine (Drawing.newLink (by simp [Link.held])).bind fun a' _ => ?_
    refine (ih hbinds ?_ _).bind fun a'' _ => ?_
    · intro x hx
      rcases List.mem_cons.1 hx with rfl | hx
      · exact newLink_held _ _
      · exact hscope x hx
    · refine (Drawing.define _ (by simp)).bind fun _ _ => Drawing.newLink ?_
      intro k hk
      rw [List.mem_singleton.1 hk]
      exact ha.count_le .definition
  | named _ _ => cases hbinds
  | ref name => exact Drawing.ref hscope name

end Grammar

/-! ## Whole grammars -/

/-- The numbers that a grammar has given out, each standing for itself. -/
def Matching.below (g : Grammar V α) : Matching := fun k i j => i = j ∧ i < g.count k

/-- A grammar with greater counters has given out more numbers. -/
theorem Matching.below_mono {g g' : Grammar V α} (h : ∀ k, g.count k ≤ g'.count k) :
    below g ≤ below g' :=
  fun k _ _ hi => ⟨hi.1, Nat.lt_of_lt_of_le hi.2 (h k)⟩

/-- The numbers of a grammar grow to those of a later one. -/
theorem Matching.grown_below {g g' : Grammar V α} (h : ∀ k, g.count k ≤ g'.count k) :
    (below g).grown g g' g = below g' := by
  funext k i j
  have := h k
  simp only [grown, given, below, eq_iff_iff]
  omega

/-- Whether a recognizer has shapes of some kind, and only numbers that a grammar has given
out. -/
abbrev Recognizer.Native (T : Shape V α Unit → Prop) (g : Grammar V α) (r : Recognizer V α) :
    Prop :=
  r.Matches T (.below g) r

/-- The parts of a native recognizer are native. -/
theorem Recognizer.Native.parts {T : Shape V α Unit → Prop} {g : Grammar V α} {handle : Handle}
    {shape : Shape V α (Recognizer V α)} (h : (Recognizer.node handle shape).Native T g) :
    T shape.outline ∧ ∀ p ∈ shape.parts, p.Native T g := by
  obtain ⟨handle', ps, heq, -, hkind, hparts⟩ := Recognizer.Matches.parts h
  obtain ⟨-, hshape⟩ := Recognizer.node.inj heq
  have hps : shape.parts = ps := by
    rw [hshape, shape.parts_withParts hparts.length_eq.symm]
  rw [← hps] at hparts
  have hnative := List.forall₂_same.1 hparts
  exact ⟨hkind, hnative⟩

namespace Grammar

variable {T : Shape V α Unit → Prop}

/-- Whether all recognizers of a grammar have shapes of some kind, and numbers that it has
given out. -/
structure Whole (T : Shape V α Unit → Prop) (g : Grammar V α) : Prop where
  names : ∀ r ∈ g.names.values, r.Native T g
  definitions : ∀ (c : Nat) (r : Recognizer V α), g.definitions[c]? = some (some r) →
    r.Native T g
  settled : ∀ (c : Nat) (r : Recognizer V α), g.deferrals[c]? = some (.settled r) →
    r.Native T g
  awaiting : ∀ (c : Nat) (label : String) (e : Expr V α) (scope : Scope V α),
    g.deferrals[c]? = some (.awaiting label e scope) →
    e.Proper T false ∧ Bind T (.below g) scope scope

/-- The names of a whole grammar match themselves. -/
theorem Whole.bind_names {g : Grammar V α} (h : g.Whole T) :
    Bind T (.below g) g.names.entries g.names.entries :=
  List.forall₂_same.2 fun x hx => ⟨rfl, h.names x.2 (List.mem_map_of_mem hx)⟩

/-- Building an expression keeps a grammar whole. -/
theorem Whole.build {g : Grammar V α} (h : g.Whole T) {binds : Bool} {e : Expr V α}
    (he : e.Proper T binds) {scope : Scope V α} (hscope : Bind T (.below g) scope scope) :
    g.Advances (build scope e g).2 ∧ (build scope e g).2.Whole T ∧
      (build scope e g).1.Native T (build scope e g).2 := by
  obtain ⟨hparallel, hr⟩ := build_alike he scope scope _ g g hscope h.bind_names
  have hle := hparallel.left.count_le
  have hgrown := Matching.grown_below hle
  have hmono := Matching.below_mono hle
  rw [hgrown] at hr
  refine ⟨hparallel.left, ⟨?_, ?_, ?_, ?_⟩, hr⟩
  · intro r hr
    obtain ⟨x, hx, rfl⟩ := List.mem_map.1 hr
    have hsame := hparallel.names
    rw [hgrown] at hsame
    exact (List.forall₂_same.1 hsame x hx).2
  · intro c r hr
    by_cases hlt : c < g.definitions.size
    · rw [hparallel.left.definitions c hlt] at hr
      exact (h.definitions c r hr).mono hmono
    · have hnew := hparallel.definitions c c
        ⟨Nat.le_of_not_lt hlt, (Array.getElem?_eq_some_iff.1 hr).1, rfl⟩
      rw [hgrown, hr] at hnew
      cases hnew with
      | some hnew => exact hnew
  · intro c r hr
    by_cases hlt : c < g.deferrals.size
    · rw [hparallel.left.deferrals c hlt] at hr
      exact (h.settled c r hr).mono hmono
    · obtain ⟨_, _, _, _, hnew, -⟩ := hparallel.deferrals c c
        ⟨Nat.le_of_not_lt hlt, (Array.getElem?_eq_some_iff.1 hr).1, rfl⟩
      rw [hr] at hnew
      cases hnew
  · intro c label e scope hr
    by_cases hlt : c < g.deferrals.size
    · rw [hparallel.left.deferrals c hlt] at hr
      exact ⟨(h.awaiting c label e scope hr).1, (h.awaiting c label e scope hr).2.mono hmono⟩
    · obtain ⟨_, _, _, _, hnew, hnew', hproper, hscope⟩ := hparallel.deferrals c c
        ⟨Nat.le_of_not_lt hlt, (Array.getElem?_eq_some_iff.1 hr).1, rfl⟩
      rw [hr] at hnew hnew'
      cases hnew
      cases hnew'
      rw [hgrown] at hscope
      exact ⟨hproper, hscope⟩

/-- Settling a deferral with a recognizer of a whole grammar keeps it whole. -/
theorem Whole.settle {g : Grammar V α} (h : g.Whole T) (cell : Nat) {r : Recognizer V α}
    (hr : r.Native T g) : (settle cell r g).2.Whole T := by
  have hmono : Matching.below g ≤ .below (Grammar.settle cell r g).2 :=
    Matching.below_mono fun k => Nat.le_of_eq (congrFun (count_settle cell r g) k).symm
  refine ⟨fun q hq => (h.names q hq).mono hmono, fun c q hq => (h.definitions c q hq).mono hmono,
    ?_, ?_⟩
  · intro c q hq
    simp only [Grammar.settle, Array.getElem?_setIfInBounds] at hq
    split at hq
    · split at hq
      · cases hq
        exact hr.mono hmono
      · cases hq
    · exact (h.settled c q hq).mono hmono
  · intro c label e scope hq
    simp only [Grammar.settle, Array.getElem?_setIfInBounds] at hq
    split at hq
    · split at hq
      · cases hq
      · cases hq
    · have hold := h.awaiting c label e scope hq
      exact ⟨hold.1, hold.2.mono hmono⟩

/-- The grammars that come from the empty one by building expressions with shapes of some
kind under names, and by removing names. -/
inductive BuiltOf (T : Shape V α Unit → Prop) : Grammar V α → Prop where
  | empty : BuiltOf T {}
  | add {g : Grammar V α} (h : BuiltOf T g) (name : String) {e : Expr V α}
      (he : e.Proper T true) : BuiltOf T (g.add name e).2
  | unbind {g : Grammar V α} (h : BuiltOf T g) (name : String) : BuiltOf T (g.unbind name)

/-- A grammar that was built of some shapes was built. -/
theorem BuiltOf.built {g : Grammar V α} (h : g.BuiltOf T) : g.Built := by
  induction h with
  | empty => exact .empty
  | add _ name _ ih => exact .add ih name _
  | unbind _ name ih => exact .unbind ih name

/-- A built grammar is whole. -/
theorem BuiltOf.whole {g : Grammar V α} (h : g.BuiltOf T) : g.Whole T := by
  induction h with
  | empty => exact ⟨by simp [Table.values, Table.empty], by simp, by simp, by simp⟩
  | @add g _ name e he ih =>
    obtain ⟨-, hbuilt, hr⟩ := ih.build he .nil
    refine ⟨?_, hbuilt.definitions, hbuilt.settled, hbuilt.awaiting⟩
    intro q hq
    rcases Table.mem_values_put hq with rfl | hold
    · exact hr
    · exact hbuilt.names q hold
  | @unbind g _ name ih =>
    refine ⟨?_, ih.definitions, ih.settled, ih.awaiting⟩
    intro q hq
    obtain ⟨x, hx, rfl⟩ := List.mem_map.1 hq
    exact ih.names _ (List.mem_map_of_mem (List.mem_filter.1 hx).1)

/-! ## Grammars with nothing recorded -/

/-- A grammar with nothing recorded in it, before its first parse. -/
def bare (g : Grammar V α) : Grammar V α :=
  { g with stores := Array.replicate g.stores.size {}, nextSession := 0 }

/-- Without its outcomes a grammar has the same counters. -/
@[simp]
theorem count_bare (g : Grammar V α) : g.bare.count = g.count := by
  funext k
  cases k <;> simp [count, bare]

/-- Without its outcomes a grammar has given out the same numbers. -/
theorem below_bare (g : Grammar V α) : Matching.below g.bare = .below g := by
  unfold Matching.below
  rw [count_bare]

/-- Whether a construction has no part in what is recorded. -/
def Unaware {β : Type} (m : GrammarM V α β) : Prop := ∀ g, m g.bare = ((m g).1, (m g).2.bare)

namespace Unaware

variable {β γ : Type}

/-- A construction in two parts is unaware of outcomes when both parts are. -/
theorem bind {m : GrammarM V α β} {next : β → GrammarM V α γ} (h : Unaware m)
    (hnext : ∀ b, Unaware (next b)) : Unaware (m >>= next) := by
  intro g
  show next (m g.bare).1 (m g.bare).2 = _
  rw [h g]
  exact hnext _ _

/-- To turn a cache on or off is unaware of outcomes. -/
theorem withCaching (r : Recognizer V α) (on : Bool) : Unaware (Grammar.withCaching r on) := by
  intro g
  unfold Grammar.withCaching
  split
  · rfl
  · cases on <;> cases r.handle.caching.store? <;> simp [bare, Array.replicate_succ]

/-- To follow a name is unaware of outcomes. -/
theorem ref (scope : Scope V α) (name : String) :
    Unaware (Grammar.build scope (.ref name)) := by
  intro g
  have hsame : g.bare.resolve? scope name = g.resolve? scope name := rfl
  cases hname : g.resolve? scope name with
  | none =>
    rw [build_unresolved hname, build_unresolved (hsame.trans hname)]
    rfl
  | some r => rw [build_ref hname, build_ref (hsame.trans hname)]

/-- To build parts is unaware of outcomes when each part is. -/
theorem buildParts {scope : Scope V α} {es : List (Expr V α)}
    (h : ∀ e ∈ es, Unaware (Grammar.build scope e)) : Unaware (Grammar.buildParts scope es) := by
  induction es with
  | nil =>
    rw [Grammar.buildParts]
    exact fun _ => rfl
  | cons e es ih =>
    rw [Grammar.buildParts]
    refine (h e List.mem_cons_self).bind fun r => ?_
    exact (ih fun e' he' => h e' (List.mem_cons_of_mem _ he')).bind fun rs _ => rfl

end Unaware

/-- What is recorded has no part in what is built. -/
theorem build_unaware (e : Expr V α) (scope : Scope V α) : Unaware (build scope e) := by
  have he := e.uses_of_forall (T := fun _ => True) fun _ => trivial
  induction he generalizing scope with
  | @make shape _ _ ih =>
    rw [build_make]
    exact (Unaware.buildParts fun p hp => ih p hp scope).bind fun ps _ => rfl
  | @cached on e _ ih =>
    rw [build]
    exact (ih scope).bind fun r => .withCaching r on
  | @deferred label e _ _ =>
    rw [build]
    exact fun _ => rfl
  | @recursive name body _ ih =>
    rw [build]
    refine Unaware.bind (fun _ => rfl) fun cell => Unaware.bind (fun _ => rfl) fun self => ?_
    exact (ih _).bind fun r => Unaware.bind (fun _ => rfl) fun _ _ => rfl
  | @named name e _ ih =>
    rw [build]
    exact (ih scope).bind fun r _ => rfl
  | ref name => exact .ref scope name

end Grammar

end SlotGrammar
