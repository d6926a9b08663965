import SlotGrammar.Proofs.Lazy.Unfolding

/-!
# Supplying deferrals

A grammar unfolds as its deferrals are supplied with what they await, in any order.  What
the grammar has stays as it is, and no definition that it has comes to life or dies: what is
built for a deferral holds only what names hold and what is new.

Main results:

- Theorem `Tidy.unfolds`: what a grammar unfolds to is as well formed as the grammar.
- Theorem `Precedes.definition?_eq`: no definition comes to life or dies as a grammar unfolds.
-/

namespace SlotGrammar

variable {V α : Type}

/-- The links of a native recognizer are not new. -/
theorem Recognizer.Native.not_since {g : Grammar V α} {T : Shape V α Unit → Prop}
    {r : Recognizer V α} (h : r.Native T g) {l : Link} (hl : l ∈ r.held) :
    ¬ l.Since g := by
  obtain ⟨l', -, hl⟩ := (Recognizer.Matches.handle h).held.1 l hl
  cases hl with
  | definition hc => exact Nat.not_le_of_lt hc.2
  | deferred hc => exact Nat.not_le_of_lt hc.2
  | self _ => exact id
  | unbound => exact id

namespace Grammar

variable {T : Shape V α Unit → Prop} {g g' g'' : Grammar V α} {cell : Nat}
  {label : String} {e : Expr V α} {scope : Scope V α}

/-! ## Unfolding -/

/-- The grammar in which a deferral has been built. -/
def supplied (g : Grammar V α) (cell : Nat) (e : Expr V α) (scope : Scope V α) : Grammar V α :=
  (settle cell (build scope e g).1 (build scope e g).2).2

/-- Whether a grammar turns into another one when some deferral is built. -/
def Supplies (g g' : Grammar V α) : Prop :=
  ∃ cell label e scope, g.deferrals[cell]? = some (.awaiting label e scope) ∧
    g' = g.supplied cell e scope

/-- Whether a grammar turns into another one when deferrals are built one after the other. -/
abbrev Unfolds : Grammar V α → Grammar V α → Prop := Relation.ReflTransGen Supplies

/-- A supply makes as many cells as the body it builds. -/
theorem count_supplied (g : Grammar V α) (cell : Nat) (e : Expr V α) (scope : Scope V α) :
    (g.supplied cell e scope).count = (build scope e g).2.count :=
  count_settle _ _ _

/-- A supply does the same in a grammar without its log. -/
theorem supplied_bare (g : Grammar V α) (cell : Nat) (e : Expr V α) (scope : Scope V α) :
    g.bare.supplied cell e scope = (g.supplied cell e scope).bare := by
  unfold supplied
  rw [build_unaware e scope g]
  rfl

/-- The deferral that has been built is settled, and the others are as they were built. -/
theorem deferrals_supplied (h : g.Whole T)
    (hcell : g.deferrals[cell]? = some (.awaiting label e scope)) (c : Nat) :
    (g.supplied cell e scope).deferrals[c]? =
      if c = cell then some (.settled (build scope e g).1)
      else (build scope e g).2.deferrals[c]? := by
  obtain ⟨hproper, hscope⟩ := h.awaiting cell label e scope hcell
  have hlt := (Array.getElem?_eq_some_iff.1 hcell).1
  have hle : g.deferrals.size ≤ (build scope e g).2.deferrals.size :=
    (h.build hproper hscope).1.count_le .deferral
  show ((build scope e g).2.deferrals.setIfInBounds cell _)[c]? = _
  rw [Array.getElem?_setIfInBounds]
  by_cases hc : cell = c
  · subst hc
    simp [Nat.lt_of_lt_of_le hlt hle]
  · simp [hc, Ne.symm hc]

/-! ## Tidy grammars -/

/-- Settling a deferral with a well-formed recognizer keeps a grammar well formed. -/
theorem FormedIn.settle {bodies : Bodies V α} (h : g.Formed bodies) {r : Recognizer V α}
    (hr : r.Formed bodies g) (cell : Nat) : (settle cell r g).2.Formed bodies := by
  have hgrow : Grows bodies g bodies (Grammar.settle cell r g).2 :=
    ⟨fun _ _ => rfl, Nat.le_refl _, Nat.le_refl _⟩
  refine hgrow.formedIn ⟨h.names, h.definitions, ?_, ?_, h.blank⟩
  · intro c q hq
    simp only [Grammar.settle, Array.getElem?_setIfInBounds] at hq
    split at hq
    · split at hq
      · cases hq
        exact hr
      · cases hq
    · exact h.settled c q hq
  · intro c label e scope hq
    simp only [Grammar.settle, Array.getElem?_setIfInBounds] at hq
    split at hq
    · split at hq
      · cases hq
      · cases hq
    · exact h.scopes c label e scope hq

/-- Whether a grammar is whole and well formed, before its first parse. -/
structure Tidy (T : Shape V α Unit → Prop) (g : Grammar V α) : Prop where
  whole : g.Whole T
  formed : ∃ bodies, g.Formed bodies
  bare : g.bare = g

namespace Tidy

/-- What a deferral awaits is built in a scope of recognizers that hold nothing. -/
theorem scope_held (h : g.Tidy T) (hcell : g.deferrals[cell]? = some (.awaiting label e scope)) :
    ∀ x ∈ scope, x.2.held = [] := by
  obtain ⟨bodies, hformed⟩ := h.formed
  exact fun x hx => (hformed.scopes cell label e scope hcell x hx).2

/-- Building a deferral keeps a grammar tidy. -/
theorem supplied (h : g.Tidy T) (hcell : g.deferrals[cell]? = some (.awaiting label e scope)) :
    (g.supplied cell e scope).Tidy T := by
  obtain ⟨he, hscope⟩ := h.whole.awaiting cell label e scope hcell
  obtain ⟨-, hbuilt, hr⟩ := h.whole.build he hscope
  obtain ⟨bodies, hformed⟩ := h.formed
  obtain ⟨bodies', -, hformed', hhand⟩ := build_careful scope [] e bodies g hformed
    (hformed.scopes cell label e scope hcell) (by simp)
  refine ⟨hbuilt.settle cell hr, ⟨bodies', hformed'.settle (hhand _ (by simp)) cell⟩, ?_⟩
  rw [← supplied_bare, h.bare]

/-- A supply keeps a grammar tidy. -/
theorem supplies (h : g.Tidy T) (hsupplies : g.Supplies g') : g'.Tidy T := by
  obtain ⟨cell, label, e, scope, hcell, rfl⟩ := hsupplies
  exact h.supplied hcell

/-- What a grammar unfolds to is as well formed as the grammar. -/
theorem unfolds (h : g.Tidy T) (hunfolds : g.Unfolds g') : g'.Tidy T := by
  induction hunfolds with
  | refl => exact h
  | tail _ hsupplies ih => exact ih.supplies hsupplies

end Tidy

/-- A grammar that was only built has opened no session. -/
theorem BuiltOf.nextSession_eq (h : g.BuiltOf T) : g.nextSession = 0 := by
  induction h with
  | empty => rfl
  | @add g _ name e _ ih =>
    have huses : e.Uses fun _ => True := e.uses_of_forall fun _ => trivial
    have hscope : ∀ x ∈ ([] : Scope V α), x.2 ∈ ([] : List (Recognizer V α)) := by simp
    exact ((build_adds huses hscope).enlarges g).nextSession_eq.trans ih
  | unbind _ _ ih => exact ih

/-- The stores of a blank grammar are all empty. -/
theorem Blank.stores_eq (h : g.Blank) : Array.replicate g.stores.size {} = g.stores := by
  refine Array.ext (by simp) fun s hs hs' => ?_
  rw [Array.getElem_replicate]
  exact (h s _ (Array.getElem?_eq_getElem hs')).symm

/-- A built grammar is tidy. -/
theorem BuiltOf.tidy (h : g.BuiltOf T) : g.Tidy T := by
  obtain ⟨bodies, hformed⟩ := h.built.formed
  refine ⟨h.whole, ⟨bodies, hformed⟩, ?_⟩
  unfold bare
  rw [hformed.blank.stores_eq, ← h.nextSession_eq]

/-! ## What comes earlier -/

/-- Whether a grammar keeps all that it has as it turns into another one, in which new cells
hold only what names hold and what is new. -/
structure Precedes (g g' : Grammar V α) : Prop where
  names : g'.names = g.names
  count_le : ∀ k, g.count k ≤ g'.count k
  definitions : ∀ c < g.definitions.size, g'.definitions[c]? = g.definitions[c]?
  settled : ∀ (c : Nat) (r : Recognizer V α), g.deferrals[c]? = some (.settled r) →
    g'.deferrals[c]? = some (.settled r)
  defined_draws : ∀ (c : Nat) (r : Recognizer V α), g.definitions.size ≤ c →
    g'.definitions[c]? = some (some r) → r.Draws g
  settled_draws : ∀ (c : Nat) (r : Recognizer V α), g'.deferrals[c]? = some (.settled r) →
    g.deferrals[c]? = some (.settled r) ∨ r.Draws g

namespace Precedes

/-- Every grammar precedes itself. -/
theorem refl (g : Grammar V α) : g.Precedes g := by
  refine ⟨rfl, fun _ => Nat.le_refl _, fun _ _ => rfl, fun _ _ h => h, ?_, fun _ _ h => .inl h⟩
  intro c r hle hr
  rw [Array.getElem?_eq_none hle] at hr
  cases hr

/-- What is linked since a later grammar is linked since an earlier one. -/
theorem since (h : g.Precedes g') {l : Link} (hl : l.Since g') : l.Since g := by
  cases l with
  | definition c => exact Nat.le_trans (h.count_le .definition) hl
  | deferred c => exact Nat.le_trans (h.count_le .deferral) hl
  | self c => exact hl
  | unbound => exact hl

/-- A recognizer that a later grammar draws on is drawn on by an earlier one. -/
theorem draws (h : g.Precedes g') {r : Recognizer V α} (hr : r.Draws g') : r.Draws g := by
  intro l hl
  refine (hr l hl).imp ?_ h.since
  rintro ⟨q, hq, hheld⟩
  exact ⟨q, h.names ▸ hq, hheld⟩

/-- A grammar that precedes another precedes all which that one precedes. -/
theorem trans (h : g.Precedes g') (h' : g'.Precedes g'') : g.Precedes g'' where
  names := h'.names.trans h.names
  count_le k := Nat.le_trans (h.count_le k) (h'.count_le k)
  definitions c hc :=
    (h'.definitions c (Nat.lt_of_lt_of_le hc (h.count_le .definition))).trans (h.definitions c hc)
  settled c r hr := h'.settled c r (h.settled c r hr)
  defined_draws c r hle hr := by
    by_cases hlt : c < g'.definitions.size
    · rw [h'.definitions c hlt] at hr
      exact h.defined_draws c r hle hr
    · exact h.draws (h'.defined_draws c r (Nat.le_of_not_lt hlt) hr)
  settled_draws c r hr := by
    rcases h'.settled_draws c r hr with hold | hnew
    · exact h.settled_draws c r hold
    · exact .inr (h.draws hnew)

/-- A grammar keeps what it has when a deferral is built. -/
theorem supplied (h : g.Tidy T) (hcell : g.deferrals[cell]? = some (.awaiting label e scope)) :
    g.Precedes (g.supplied cell e scope) := by
  obtain ⟨hproper, hscope⟩ := h.whole.awaiting cell label e scope hcell
  obtain ⟨hparallel, -⟩ := build_alike hproper scope scope _ g g hscope h.whole.bind_names
  have hadvances := hparallel.left
  have hempty : g.Drawn g := by
    refine ⟨rfl, fun _ => Nat.le_refl _, ?_⟩
    intro c r hle hr
    rw [Array.getElem?_eq_none hle] at hr
    cases hr
  obtain ⟨hdrawn, hhand⟩ := build_draws hproper rfl (h.scope_held hcell) [] g hempty (by simp)
  have hsettled := deferrals_supplied h.whole hcell
  refine ⟨hdrawn.names, ?_, hadvances.definitions, ?_, hdrawn.definitions, ?_⟩
  · intro k
    rw [count_supplied]
    exact hadvances.count_le k
  · intro c r hr
    have hne : c ≠ cell := by
      rintro rfl
      rw [hcell] at hr
      cases hr
    rw [hsettled, if_neg hne, hadvances.deferrals c (Array.getElem?_eq_some_iff.1 hr).1, hr]
  · intro c r hr
    rw [hsettled] at hr
    split at hr
    · cases hr
      exact .inr (hhand _ (by simp))
    · by_cases hold : c < g.deferrals.size
      · rw [hadvances.deferrals c hold] at hr
        exact .inl hr
      · obtain ⟨_, _, _, _, hnew, -⟩ := hparallel.deferrals c c
          ⟨Nat.le_of_not_lt hold, (Array.getElem?_eq_some_iff.1 hr).1, rfl⟩
        rw [hr] at hnew
        cases hnew

/-- A tidy grammar precedes every one it unfolds to. -/
theorem unfolds (h : g.Tidy T) (hunfolds : g.Unfolds g') : g.Precedes g' := by
  induction hunfolds with
  | refl => exact .refl g
  | tail hunfolds hsupplies ih =>
    obtain ⟨cell, label, e, scope, hcell, rfl⟩ := hsupplies
    exact ih.trans (.supplied (h.unfolds hunfolds) hcell)

end Precedes

/-! ## Living definitions -/

namespace Precedes

/-- What a cell holds it holds later on. -/
theorem holds (h : g.Precedes g') {l k : Link} (hlk : g.Holds l k) : g'.Holds l k := by
  unfold Holds linksBehind at hlk ⊢
  cases l with
  | definition c =>
    dsimp only at hlk ⊢
    split at hlk
    next r hr =>
      rw [h.definitions c (Array.getElem?_eq_some_iff.1 hr).1, hr]
      exact hlk
    · cases hlk
  | deferred c =>
    dsimp only at hlk ⊢
    split at hlk
    next r hr =>
      rw [h.settled c r hr]
      exact hlk
    · cases hlk
  | self c => cases hlk
  | unbound => cases hlk

/-- What a cell holds later on it has held before, or a name holds it, or it is new. -/
theorem holds_cases (h : g.Precedes g') {l k : Link} (hlk : g'.Holds l k) :
    ¬ l.Since g ∧ g.Holds l k ∨ g.NamedHeld k ∨ k.Since g := by
  unfold Holds linksBehind at hlk ⊢
  cases l with
  | definition c =>
    dsimp only at hlk ⊢
    split at hlk
    next r hr =>
      by_cases hlt : c < g.definitions.size
      · rw [h.definitions c hlt] at hr
        rw [hr]
        exact .inl ⟨Nat.not_le_of_lt hlt, hlk⟩
      · exact .inr (h.defined_draws c r (Nat.le_of_not_lt hlt) hr k hlk)
    · cases hlk
  | deferred c =>
    dsimp only at hlk ⊢
    split at hlk
    next r hr =>
      rcases h.settled_draws c r hr with hold | hnew
      · rw [hold]
        exact .inl ⟨Nat.not_le_of_lt (Array.getElem?_eq_some_iff.1 hold).1, hlk⟩
      · exact .inr (hnew k hlk)
    · cases hlk
  | self c => cases hlk
  | unbound => cases hlk

/-- A chain of contents to what is not new was there before, or all that it leads to is
kept. -/
theorem transGen_cases (h : g.Precedes g') {l k : Link}
    (hlk : Relation.TransGen g'.Holds l k) :
    k.Since g ∨ ¬ l.Since g ∧ Relation.TransGen g.Holds l k ∨ g.Kept k := by
  have hnamed : ∀ {k}, g.NamedHeld k → g.Kept k := fun hk => ⟨_, .inl hk, .refl⟩
  -- once the chain has left the old contents, it comes back to them through names only
  induction hlk with
  | single hlk =>
    rcases h.holds_cases hlk with ⟨hl, hold⟩ | hk | hk
    · exact .inr (.inl ⟨hl, .single hold⟩)
    · exact .inr (.inr (hnamed hk))
    · exact .inl hk
  | @tail k x _ hkx ih =>
    rcases h.holds_cases hkx with ⟨hk, hold⟩ | hx | hx
    · rcases ih with hsince | ⟨hl, hlk⟩ | hkept
      · exact absurd hsince hk
      · exact .inr (.inl ⟨hl, hlk.tail hold⟩)
      · exact .inr (.inr (hkept.holds hold))
    · exact .inr (.inr (hnamed hx))
    · exact .inl hx

/-- Old links reach each other in a later grammar only as they did, or over what is kept. -/
theorem reaches_cases (h : g.Precedes g') {l k : Link} (hl : ¬ l.Since g)
    (hk : ¬ k.Since g) (hlk : g'.Reaches l k) : g.Reaches l k ∨ g.Kept k := by
  rcases Relation.reflTransGen_iff_eq_or_transGen.1 hlk with rfl | hlk
  · exact .inl .refl
  · rcases h.transGen_cases hlk with hsince | ⟨-, hold⟩ | hkept
    · exact absurd hsince hk
    · exact .inl hold.to_reflTransGen
    · exact .inr hkept

/-- What is not new is kept later on exactly when it was kept before. -/
theorem kept_iff (h : g.Precedes g') {l : Link} (hl : ¬ l.Since g) :
    g'.Kept l ↔ g.Kept l := by
  have hholds : ∀ x y, g.Holds x y → g'.Holds x y := fun _ _ => h.holds
  constructor
  · rintro ⟨top, htop, hreach⟩
    have htop : g.Kept top ∨ top.Since g := by
      rcases htop with ⟨r, hr, hheld⟩ | hself
      · exact .inl ⟨top, .inl ⟨r, h.names ▸ hr, hheld⟩, .refl⟩
      · rcases h.transGen_cases hself with hsince | ⟨-, hold⟩ | hkept
        · exact .inr hsince
        · exact .inl ⟨top, .inr hold, .refl⟩
        · exact .inl hkept
    rcases Relation.reflTransGen_iff_eq_or_transGen.1 hreach with rfl | hreach
    · exact htop.resolve_right hl
    · rcases h.transGen_cases hreach with hsince | ⟨htop', hold⟩ | hkept
      · exact absurd hsince hl
      · exact (htop.resolve_right htop').reaches hold.to_reflTransGen
      · exact hkept
  · rintro ⟨top, htop, hreach⟩
    refine ⟨top, htop.imp ?_ (Relation.TransGen.mono hholds _ _),
      Relation.ReflTransGen.mono hholds _ _ hreach⟩
    rintro ⟨r, hr, hheld⟩
    exact ⟨r, h.names ▸ hr, hheld⟩

/-- No definition of a grammar comes to life or dies later on, as long as nothing new is
held. -/
theorem definition?_eq (h : g.Precedes g') {holders : List (Recognizer V α)}
    (hholders : ∀ r ∈ holders, r.Native T g) {cell : Nat}
    (hcell : cell < g.definitions.size) :
    g'.definition? holders cell = g.definition? holders cell := by
  have hold : ¬ Link.Since g (.definition cell) := Nat.not_le_of_lt hcell
  have halive : g'.isAlive holders cell = g.isAlive holders cell := by
    rw [Bool.eq_iff_iff, isAlive_iff, isAlive_iff, h.kept_iff hold]
    constructor
    · rintro (hkept | ⟨r, hr, l, hl, hreach⟩)
      · exact .inl hkept
      · rcases h.reaches_cases ((hholders r hr).not_since hl) hold hreach with hreach | hkept
        · exact .inr ⟨r, hr, l, hl, hreach⟩
        · exact .inl hkept
    · rintro (hkept | ⟨r, hr, l, hl, hreach⟩)
      · exact .inl hkept
      · exact .inr ⟨r, hr, l, hl, Relation.ReflTransGen.mono (fun _ _ => h.holds) _ _ hreach⟩
  unfold definition?
  rw [halive, h.definitions cell hcell]

end Precedes

end Grammar

end SlotGrammar
