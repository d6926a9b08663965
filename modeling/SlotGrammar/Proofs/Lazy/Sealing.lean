import SlotGrammar.Proofs.Lazy.Supplying
import SlotGrammar.Proofs.Freezing

/-!
# Sealing

Sealing a grammar settles all its deferrals with a recognizer that never comes to an end.  So
every link of a sealed grammar leads to the same recognizer at all times, and an attempt that
ends has come to no deferral that was sealed.

Main results:

- Theorem `Tidy.realm`: what named roots reach in a sealed grammar is well formed and kept.
- Theorem `course_loop`: what was sealed has no course.
-/

namespace SlotGrammar

variable {V α : Type}

/-- A deferral with a recognizer in it, if need be. -/
def Deferral.sealed (r : Recognizer V α) : Deferral V α → Deferral V α
  | awaiting _ _ _ => settled r
  | settled q => settled q

namespace Grammar

/-- A definition that is nothing but itself. -/
def loop (g : Grammar V α) : Recognizer V α :=
  .link ⟨g.nextNode, g.nextNode, .never, [.definition g.definitions.size]⟩
    (.definition g.definitions.size)

/-- A grammar in which whatever has not been built yet never comes to an end. -/
def sealed (g : Grammar V α) : Grammar V α :=
  { g with
    definitions := g.definitions.push (some g.loop)
    deferrals := g.deferrals.map (Deferral.sealed g.loop)
    nextNode := g.nextNode + 1 }

section Sealed

variable {T : Shape V α Unit → Prop} {g : Grammar V α}

theorem sealed_definition_lt {c : Nat} (hc : c < g.definitions.size) :
    g.sealed.definitions[c]? = g.definitions[c]? :=
  (Array.getElem?_push_lt hc).trans (Array.getElem?_eq_getElem hc).symm

theorem sealed_definition_eq (g : Grammar V α) :
    g.sealed.definitions[g.definitions.size]? = some (some g.loop) :=
  Array.getElem?_push_size

theorem sealed_deferral (g : Grammar V α) (c : Nat) :
    g.sealed.deferrals[c]? = g.deferrals[c]?.map (Deferral.sealed g.loop) :=
  Array.getElem?_map

/-- The contents of a sealed grammar are those of the grammar, or loop. -/
theorem sealed_definition_cases {c : Nat} {r : Recognizer V α}
    (h : g.sealed.definitions[c]? = some (some r)) :
    g.definitions[c]? = some (some r) ∨ r = g.loop := by
  rcases Nat.lt_trichotomy c g.definitions.size with hlt | rfl | hgt
  · rw [sealed_definition_lt hlt] at h
    exact .inl h
  · rw [sealed_definition_eq] at h
    cases h
    exact .inr rfl
  · have hnone : g.sealed.definitions[c]? = none :=
      Array.getElem?_eq_none (by simpa [sealed] using Nat.succ_le_of_lt hgt)
    rw [hnone] at h
    cases h

theorem sealed_deferral_cases {c : Nat} {d : Deferral V α}
    (h : g.sealed.deferrals[c]? = some d) :
    (∃ r, d = .settled r ∧ g.deferrals[c]? = some (.settled r)) ∨ d = .settled g.loop := by
  rw [sealed_deferral] at h
  obtain ⟨d', hd', rfl⟩ := Option.map_eq_some_iff.1 h
  cases d' with
  | awaiting label e scope => exact .inr rfl
  | settled r => exact .inl ⟨r, rfl, hd'⟩

theorem loop_draws (g : Grammar V α) : g.loop.Draws g := by
  intro l hl
  rw [List.mem_singleton.1 hl]
  exact .inr (Nat.le_refl _)

/-- A grammar keeps what it has when it is sealed. -/
theorem precedes_sealed (g : Grammar V α) : g.Precedes g.sealed := by
  refine ⟨rfl, ?_, fun c hc => sealed_definition_lt hc, ?_, ?_, ?_⟩
  · intro k
    cases k with
    | node => exact Nat.le_succ _
    | store => exact Nat.le_refl _
    | definition =>
      show g.definitions.size ≤ (g.definitions.push _).size
      rw [Array.size_push]
      exact Nat.le_succ _
    | deferral => exact Nat.le_of_eq Array.size_map.symm
  · intro c r hr
    rw [sealed_deferral, hr]
    rfl
  · intro c r hle hr
    rcases sealed_definition_cases hr with hold | rfl
    · rw [Array.getElem?_eq_none hle] at hold
      cases hold
    · exact g.loop_draws
  · intro c r hr
    rcases sealed_deferral_cases hr with ⟨q, hq, hold⟩ | hloop
    · cases hq
      exact .inl hold
    · cases hloop
      exact .inr g.loop_draws

/-- Every deferral of a sealed grammar is settled. -/
theorem supplied_sealed (g : Grammar V α) : g.sealed.Supplied := by
  intro c label e scope h
  rcases sealed_deferral_cases h with ⟨r, hr, -⟩ | hr <;> cases hr

theorem Formed.sealed {bodies : Bodies V α} (h : g.Formed bodies) :
    ∃ bodies', g.sealed.Formed bodies' := by
  let bodies' : Bodies V α := Function.update bodies g.nextNode g.loop
  have hgrow : Grows bodies g bodies' g.sealed :=
    ⟨fun i hi => Function.update_of_ne (Nat.ne_of_lt hi) _ _, Nat.le_succ _, Nat.le_refl _⟩
  have hold := hgrow.formedIn h
  have hloop : g.loop.Formed bodies' g.sealed := by
    refine Recognizer.formed_link ⟨Nat.lt_succ_self _, ?_, ?_, fun l hl => hl⟩
    · show (Function.update bodies g.nextNode g.loop g.nextNode).withHandle g.loop.handle = _
      rw [Function.update_self]
      rfl
    · intro s hs
      cases hs
  refine ⟨bodies', hold.names, ?_, ?_, ?_, h.blank⟩
  · intro c r hr
    rcases sealed_definition_cases hr with hr | rfl
    · exact hold.definitions c r hr
    · exact hloop
  · intro c r hr
    rcases sealed_deferral_cases hr with ⟨q, hq, hr⟩ | hq
    · cases hq
      exact hold.settled c r hr
    · cases hq
      exact hloop
  · intro c label e scope hr
    rcases sealed_deferral_cases hr with ⟨r, hr, -⟩ | hr <;> cases hr

/-- Every link of a sealed grammar leads to a native recognizer, or loops. -/
theorem Whole.target_sealed (h : g.Whole T) {l : Link} {r : Recognizer V α}
    (hr : g.sealed.target l = some r) : r.Native T g ∨ r = g.loop := by
  have hdefinition : ∀ c : Nat, (g.sealed.definitions[c]?).join = some r →
      r.Native T g ∨ r = g.loop := by
    intro c hc
    rcases sealed_definition_cases (Option.join_eq_some_iff.1 hc) with hold | hloop
    · exact .inl (h.definitions c r hold)
    · exact .inr hloop
  cases l with
  | definition c => exact hdefinition c hr
  | self c =>
    rw [target_self, definition?] at hr
    split at hr
    · exact hdefinition c hr
    · cases hr
  | unbound => cases hr
  | deferred c =>
    rw [target_deferred] at hr
    cases hcell : g.sealed.deferrals[c]? with
    | none =>
      rw [hcell] at hr
      cases hr
    | some d =>
      rw [hcell] at hr
      rcases sealed_deferral_cases hcell with ⟨q, rfl, hold⟩ | rfl
      · cases hr
        exact .inl (h.settled c r hold)
      · cases hr
        exact .inr rfl

/-- What native roots reach in a sealed grammar is native, or loops. -/
theorem Reachable.native (hg : g.Whole T) {roots : Recognizer V α → Prop}
    (hroots : ∀ r, roots r → r.Native T g) {r : Recognizer V α}
    (h : g.sealed.Reachable roots r) : r.Native T g ∨ r = g.loop := by
  induction h with
  | root h => exact .inl (hroots _ h)
  | part _ hp ih =>
    rcases ih with hnative | hloop
    · exact .inl (hnative.parts.2 _ hp)
    · cases hloop
  | target _ hr _ => exact hg.target_sealed hr

/-- What a grammar unfolds to has shapes of the same kind, sealed or not. -/
theorem Tidy.kind_of_reachable (h : g.Tidy T) {g' : Grammar V α} (hunfolds : g.Unfolds g')
    {handle : Handle} {shape : Shape V α (Recognizer V α)}
    (hr : g'.sealed.Reachable (· ∈ g.names.values) (.node handle shape)) : T shape.outline := by
  have hwhole := (h.unfolds hunfolds).whole
  have hnames := (Precedes.unfolds h hunfolds).names
  rcases hr.native hwhole fun r hr => hwhole.names r (hnames ▸ hr) with hnative | hloop
  · exact hnative.parts.1
  · cases hloop

/-- What names reach is well formed and kept in all that a grammar unfolds to, once this is
sealed. -/
theorem Tidy.realm (h : g.Tidy T)
    (hkind : ∀ shape : Shape V α (Recognizer V α), T shape.outline → shape.Orderly)
    {g' : Grammar V α} (hunfolds : g.Unfolds g') :
    g'.sealed.OrderlyFrom (· ∈ g.names.values) ∧
      ∃ bodies, Realm bodies g'.sealed (g'.sealed.Reachable (· ∈ g.names.values)) := by
  have horderly : g'.sealed.OrderlyFrom (· ∈ g.names.values) :=
    fun handle shape hr => hkind shape (h.kind_of_reachable hunfolds hr)
  have hnames := (Precedes.unfolds h hunfolds).names
  obtain ⟨bodies, hformed⟩ := (h.unfolds hunfolds).formed
  obtain ⟨bodies', hformed'⟩ := Formed.sealed hformed
  exact ⟨horderly, bodies', hformed', g'.supplied_sealed, closed_reachable _ _,
    fun r hr => hr.sound hformed' fun r hr => hnames ▸ hr, horderly.steady⟩

end Sealed

end Grammar

/-! ## Courses in sealed grammars -/

open Grammar

/-- A loop has no course. -/
theorem course_loop (g : Grammar V α) (limit : Nat) (st : Setting V) (pos : Position) :
    course g.sealed.target limit st g.loop pos = none := by
  induction limit generalizing st with
  | zero => rfl
  | succ limit ih =>
    have htarget : g.sealed.target (.definition g.definitions.size) = some g.loop :=
      congrArg Option.join g.sealed_definition_eq
    rw [course_succ]
    show Option.map _
      ((Recognizer.link _ (.definition g.definitions.size)).workCourse _ _ _ _ _) = _
    rw [Recognizer.workCourse, htarget]
    show Option.map _ (course g.sealed.target limit _ g.loop pos) = none
    rw [ih]
    rfl

end SlotGrammar
