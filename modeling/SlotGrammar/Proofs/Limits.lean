import SlotGrammar.Proofs.Likeness

/-!
# Limits

A run that ends within its limit on nesting does the same under every greater limit.

Main results:

- Theorem `exec_mono`: a greater limit does not change what an attempt comes to.
-/

namespace SlotGrammar

variable {V α : Type}

namespace Act

/-- Whether an action does what another one does, or goes deeper than its limit. -/
def Under {β : Type} (act act' : Act V α β) : Prop :=
  ∀ run x, act run = some x → act' run = some x

namespace Under

variable {β γ : Type} {act act' : Act V α β}

/-- Every action ends as it does itself. -/
theorem refl (act : Act V α β) : Under act act := fun _ _ h => h

/-- Two actions in a row end alike under a larger limit when both do. -/
theorem bind {next next' : β → Act V α γ} (h : Under act act')
    (hnext : ∀ b, Under (next b) (next' b)) : Under (act >>= next) (act' >>= next') := by
  intro run x hx
  rw [bind_apply] at hx ⊢
  obtain ⟨r, hr, hx⟩ := Option.bind_eq_some_iff.1 hx
  rw [h run r hr, Option.bind_some]
  rcases r with ⟨_ | b, mid⟩
  · exact hx
  · exact hnext b mid x hx

/-- An attempt ends alike when what is attempted does. -/
theorem attempt (h : Under act act') : Under act.attempt act'.attempt := by
  intro run x hx
  rw [attempt_apply] at hx ⊢
  obtain ⟨r, hr, rfl⟩ := Option.map_eq_some_iff.1 hx
  rw [h run r hr, Option.map_some]

/-- A probe ends alike when the part it watches does. -/
theorem probed {label : String} {part part' : Part V α} {pos : Position}
    (h : Under (part pos) (part' pos)) :
    Under (Part.probed label part pos) (Part.probed label part' pos) :=
  (refl _).bind fun _ => h.attempt.bind fun _ => refl _

/-- A session ends alike when the parse inside it does. -/
theorem inSession {ctx : Context V α} {root : Recognizer V α} {act act' : Act V α (Outcome V α)}
    (h : Under act act') : Under (Act.inSession ctx root act) (Act.inSession ctx root act') :=
  (refl _).bind fun _ => (refl _).bind fun _ => h.attempt.bind fun _ => refl _

/-- Caching ends alike when the computation behind it does. -/
theorem through {caching : Caching} {act act' : Act V α (Outcome V α)} (h : Under act act') :
    Under (Act.through caching act) (Act.through caching act') := by
  cases caching with
  | never => exact h
  | paused s => exact h
  | active s =>
    refine (refl _).bind fun run => ?_
    cases run.session with
    | none => exact h
    | some ses =>
      dsimp only
      cases replay? run s ses with
      | some outcome => exact refl _
      | none => exact (refl _).bind fun _ => h.attempt.bind fun _ => refl _

end Under

end Act

/-- A script that goes further does what a script does that is like it, if its parts
do. -/
theorem Script.Alike.play {parts : List (Recognizer V α)} {script script' : Script V α}
    (h : Script.Alike parts (fun _ => True) True True script script')
    {attempt attempt' : Attempt V α}
    (hsub : ∀ ctx p pos, (attempt ctx p pos).Under (attempt' ctx p pos)) (ctx : Context V α) :
    (script.play attempt ctx).Under (script'.play attempt' ctx) := by
  induction h with
  | ended h =>
    cases h.eq trivial trivial
    exact .refl _
  | exhausted script =>
    intro run x hx
    cases hx
  | call _ _ ih => exact (hsub ctx _ _).attempt.bind fun ending => ih ending ending (.refl _)
  | nest _ _ ih =>
    exact (hsub _ _ _).inSession.attempt.bind fun ending => ih ending ending (.refl _)
  | clear _ ih => exact (Act.Under.refl _).bind fun _ => ih
  | note _ ih => exact (Act.Under.refl _).bind fun _ => ih
  | probe _ _ => exact (hsub ctx _ _).probed

/-- A greater limit does not change what an attempt comes to. -/
theorem exec_mono {limit limit' : Nat} (hlimit : limit ≤ limit') (ctx : Context V α)
    (r : Recognizer V α) (pos : Position) :
    (exec limit ctx r pos).Under (exec limit' ctx r pos) := by
  induction limit generalizing limit' ctx r pos with
  | zero =>
    intro run x hx
    cases hx
  | succ limit ih =>
    obtain ⟨limit', rfl⟩ : ∃ k, limit' = k + 1 := ⟨limit' - 1, by omega⟩
    have hle : limit ≤ limit' := by omega
    have hwork :
        (r.work (exec limit) limit ctx pos).Under (r.work (exec limit') limit' ctx pos) := by
      cases r with
      | node handle shape =>
        show (shape.attempt (exec limit) limit ctx pos).Under
          (shape.attempt (exec limit') limit' ctx pos)
        rw [← Script.play_script, ← Script.play_script]
        have halike : Script.Alike shape.parts (fun _ => True) True True
            (shape.script limit ctx.view pos) (shape.script limit' ctx.view pos) :=
          Script.alike_script hle rfl (fun _ => rfl) (.inl rfl) (fun _ _ _ => trivial)
            (fun _ => .inl rfl) pos
        exact halike.play (fun ctx p pos => ih hle ctx p pos) ctx
      | link handle target =>
        refine (Act.Under.refl _).bind fun found => ?_
        cases found with
        | none => exact .refl _
        | some x => exact ih hle x.1 x.2 pos
    refine (Act.Under.refl _).bind fun _ => (Act.Under.refl _).bind fun _ => ?_
    exact ((Act.Under.refl _).bind fun _ => hwork).through.attempt.bind fun _ => .refl _

end SlotGrammar
