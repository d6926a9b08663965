import SlotGrammar.Proofs.Handles
import SlotGrammar.Proofs.Making

/-!
# How attempts end

What an attempt comes to follows from what the attempts on its parts come to.  How an
attempt ends is counted with the depth that it needs, so that it holds of the courses of
recognizers under every limit from some limit on.  Caches have no part in this: all calls
see the values of the parse.

Main results:

- Theorem `Script.Ends.onOutcome`: a script that attempts a part goes on with its outcome
  and ends with its error.
- Theorem `Recognizer.ComesTo.node`: an attempt ends as the script of its shape.
-/

namespace SlotGrammar

variable {V α : Type}

/-! ## Scripts -/

section Scripts

variable (guide : Guide V α) (st : Setting V)

/-- Whether a script ends in some way. -/
def Script.Ends (script : Script V α) (ending : Ending V α) : Prop :=
  (script.course guide st).map Course.ending = some ending

variable {guide : Guide V α} {st : Setting V} {p : Recognizer V α} {pos : Position}
  {ending : Ending V α}

namespace Script.Ends

theorem ended (ending : Ending V α) : Script.Ends guide st (.ended ending) ending := rfl

theorem done (outcome : Outcome V α) : Script.Ends guide st (.done outcome) (.ok outcome) := rfl

/-- A script that goes on with the outcome of a part ends as what it goes on with, and
with the error of the part. -/
theorem onOutcome {next : Outcome V α → Script V α} {first : Ending V α}
    (h : (guide st p pos).map Course.ending = some first)
    (hnext : ∀ outcome, first = .ok outcome → Script.Ends guide st (next outcome) ending)
    (herror : ∀ e, first = .error e → ending = .error e) :
    Script.Ends guide st (.onOutcome p pos next) ending := by
  obtain ⟨c, hc, rfl⟩ := Option.map_eq_some_iff.1 h
  show ((guide st p pos).bind fun c => ((pass next c.ending).course guide st).map c.andThen).map
    Course.ending = _
  rw [hc, Option.bind_some]
  cases hending : c.ending with
  | error e =>
    rw [herror e hending]
    rfl
  | ok outcome =>
    obtain ⟨d, hd, rfl⟩ := Option.map_eq_some_iff.1 (hnext outcome hending)
    rw [pass, hd]
    rfl

theorem note {event : Event V α} {next : Script V α} (h : Script.Ends guide st next ending) :
    Script.Ends guide st (.note event next) ending := h

end Script.Ends

end Scripts

/-! ## Recognizers -/

variable (ρ : Targets V α) (view : View V)

/-- Whether an attempt ends in some way under every limit from some limit on. -/
def Recognizer.ComesTo (limit : Nat) (r : Recognizer V α) (pos : Position) (ending : Ending V α) :
    Prop :=
  ∀ limit' ≥ limit, (course ρ limit' view.plain r pos).map Course.ending = some ending

namespace Recognizer.ComesTo

variable {ρ : Targets V α} {view : View V} {limit : Nat} {r : Recognizer V α} {pos : Position}
  {ending : Ending V α}

theorem mono (h : r.ComesTo ρ view limit pos ending) {limit' : Nat} (hle : limit ≤ limit') :
    r.ComesTo ρ view limit' pos ending :=
  fun _ hlimit => h _ (Nat.le_trans hle hlimit)

/-- What an attempt comes to is what the recognizer does itself. -/
theorem of_work (h : ∀ limit' ≥ limit,
    (r.workCourse ρ (course ρ limit') limit' view.plain pos).map Course.ending = some ending) :
    r.ComesTo ρ view (limit + 1) pos ending := by
  intro limit' hlimit
  obtain ⟨limit', rfl⟩ : ∃ k, limit' = k + 1 := ⟨limit' - 1, by omega⟩
  rw [course_succ, (Setting.isPlain_plain view).below_eq, Option.map_map, ← h limit' (by omega)]
  congr 1
  funext c
  exact c.around_ending _ _

/-- A recognizer with a shape ends as the script of the shape. -/
theorem node {handle : Handle} {shape : Shape V α (Recognizer V α)}
    (h : ∀ limit' ≥ limit, Script.Ends (course ρ limit') view.plain (shape.script limit' view pos)
      ending) :
    (Recognizer.node handle shape).ComesTo ρ view (limit + 1) pos ending :=
  of_work h

/-- A transform changes the tree of what is found. -/
theorem mapped (h : r.ComesTo ρ view limit pos ending) (handle : Handle)
    (transform : Tree V α → List V → Tree V α) :
    (Recognizer.node handle (.mapped transform r)).ComesTo ρ view (limit + 1) pos
      (ending.map (Option.map (Match.map fun tree => transform tree view.values))) := by
  refine node fun limit' hlimit => .onOutcome (h limit' hlimit) ?_ ?_
  · rintro outcome rfl
    exact .done _
  · rintro err rfl
    rfl

/-- A link ends as what it leads to. -/
theorem link {handle : Handle} {l : Link} (hl : ρ l = some r)
    (h : r.ComesTo ρ view limit pos ending) :
    (Recognizer.link handle l).ComesTo ρ view (limit + 1) pos ending := by
  refine of_work fun limit' hlimit => ?_
  rw [workCourse, hl]
  exact h limit' hlimit

/-- Another handle on a recognizer comes to the same. -/
theorem withHandle (h : r.ComesTo ρ view limit pos ending) (handle : Handle) :
    (r.withHandle handle).ComesTo ρ view limit pos ending := by
  intro limit' hlimit
  have hr := h limit' hlimit
  cases limit' with
  | zero => cases hr
  | succ limit' =>
    rw [course_succ, (Setting.isPlain_plain view).below_eq, Option.map_map] at hr ⊢
    rw [workCourse_withHandle, ← hr]
    congr 1
    funext c
    exact (c.around_ending _ _).trans (c.around_ending _ _).symm

end Recognizer.ComesTo

end SlotGrammar
