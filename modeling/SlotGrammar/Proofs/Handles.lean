import SlotGrammar.Proofs.Simulation

/-!
# Handles on one recognizer

Handles with one identity are on the same recognizer and do the same, each through its
own cache.  So the courses of two handles differ in the slots of the call itself only:
a call through a store that does not raise adds the one slot of its outcome, and any
other call adds those of the calls below it.

Main results:

- Theorem `course_of_same_id`: two handles on one recognizer do the same.
- Theorem `course_head`: the first ordinal of an attempt is reserved by a call of its own.
-/

namespace SlotGrammar

variable {V α : Type}

/-! ## Handles on one recognizer -/

/-- Where all calls see the values of the parse, a setting is known by its view. -/
theorem Setting.IsPlain.plain_eq {st : Setting V} (h : st.IsPlain) : st.toView.plain = st := by
  have hfrozen : (fun _ => st.values) = st.frozen := funext fun s => (h s).symm
  show (⟨st.toView, fun _ => st.values⟩ : Setting V) = st
  rw [hfrozen]

/-- Where all calls see the values of the parse, a call is in the setting around it. -/
theorem Setting.IsPlain.below_eq {st : Setting V} (h : st.IsPlain) (caching : Caching) :
    st.below caching = st := by
  cases caching with
  | active s =>
    show View.plain ⟨st.input, st.frozen s, st.window⟩ = st
    rw [h s]
    exact h.plain_eq
  | never => rfl
  | paused s => rfl

namespace Recognizer

@[simp]
theorem withHandle_withHandle (r : Recognizer V α) (h h' : Handle) :
    (r.withHandle h).withHandle h' = r.withHandle h' := by
  cases r <;> rfl

/-- What a recognizer does itself does not depend on its handle. -/
@[simp]
theorem workCourse_withHandle (ρ : Targets V α) (guide : Guide V α) (limit : Nat) (st : Setting V)
    (r : Recognizer V α) (h : Handle) (pos : Position) :
    (r.withHandle h).workCourse ρ guide limit st pos = r.workCourse ρ guide limit st pos := by
  cases r <;> rfl

/-- Two handles with one identity are on the same recognizer. -/
theorem Agrees.eq_withHandle {bodies : Bodies V α} {g : Grammar V α} {r r' : Recognizer V α}
    (hr : r.Agrees bodies g) (hr' : r'.Agrees bodies g) (hid : r.handle.id = r'.handle.id) :
    r' = r.withHandle r'.handle := by
  conv => lhs; rw [← hr'.body_eq, ← hid]
  conv => rhs; rw [← hr.body_eq, withHandle_withHandle]

end Recognizer

/-- Two handles on one recognizer do the same where they see the same, each through its
own cache. -/
theorem course_of_same_id {bodies : Bodies V α} {base : Grammar V α} {P : Recognizer V α → Prop}
    (hrealm : Realm bodies base P) {r r' : Recognizer V α} (hr : P r) (hr' : P r')
    (hid : r.handle.id = r'.handle.id) {limit : Nat} {st st' : Setting V}
    (hbelow : st.below r.handle.caching = st'.below r'.handle.caching) {pos : Position}
    {c : Course V α} (hc : course base.target limit st r pos = some c) :
    ∃ w, c = Course.around r.handle pos w ∧
      course base.target limit st' r' pos = some (w.around r'.handle pos) := by
  have hsame : r' = r.withHandle r'.handle :=
    ((hrealm.sound r hr).1 r .refl).eq_withHandle ((hrealm.sound r' hr').1 r' .refl) hid
  cases limit with
  | zero => cases hc
  | succ limit =>
    obtain ⟨w, hw, rfl⟩ := course_succ_eq_some.1 hc
    refine ⟨w, rfl, course_succ_eq_some.2 ⟨w, ?_, rfl⟩⟩
    rw [← hbelow, hsame, Recognizer.workCourse_withHandle]
    exact hw

/-- Two handles on one recognizer do the same where all calls see the values of the
parse. -/
theorem course_of_same_id_plain {bodies : Bodies V α} {base : Grammar V α}
    {P : Recognizer V α → Prop} (hrealm : Realm bodies base P) {r r' : Recognizer V α} (hr : P r)
    (hr' : P r') (hid : r.handle.id = r'.handle.id) {limit : Nat} {st : Setting V}
    (hplain : st.IsPlain) {pos : Position} {c : Course V α}
    (hc : course base.target limit st r pos = some c) :
    ∃ w, c = Course.around r.handle pos w ∧
      course base.target limit st r' pos = some (w.around r'.handle pos) :=
  course_of_same_id hrealm hr hr' hid ((hplain.below_eq _).trans (hplain.below_eq _).symm) hc

/-! ## Slots -/

theorem Caching.active_or_inactive (caching : Caching) :
    (∃ s, caching = .active s) ∨ caching.isActive = false := by
  cases caching with
  | active s => exact .inl ⟨s, rfl⟩
  | never => exact .inr rfl
  | paused s => exact .inr rfl

theorem Course.tape_around_of_active {handle : Handle} {s : StoreId}
    (h : handle.caching = .active s) (pos : Position) (w : Course V α) :
    (w.around handle pos).tape = w.slotsThrough s := by
  rw [tape_around, h]

theorem Course.tape_around_of_inactive {handle : Handle} (h : handle.caching.isActive = false)
    (pos : Position) (w : Course V α) : (w.around handle pos).tape = w.tape := by
  rw [around_of_inactive h]
  simp [tape, Mark.slots]

/-- A call through a store that comes to an outcome adds one slot. -/
theorem Course.slotsThrough_getElem? {w : Course V α} {o : Outcome V α} (hending : w.ending = .ok o)
    {s : StoreId} {n : Nat} {slot : Slot V α} (hslot : (w.slotsThrough s)[n]? = some slot) :
    n = 0 ∧ slot = .settled s o := by
  rw [slotsThrough, hending] at hslot
  cases n with
  | zero => exact ⟨rfl, (Option.some.inj hslot).symm⟩
  | succ n => cases hslot

theorem Script.course_head {guide : Guide V α} {st : Setting V}
    (hguide : ∀ p pos c, guide st p pos = some c → c.tape[0]? ≠ some .passed)
    {script : Script V α} {c : Course V α} (hc : script.course guide st = some c) :
    c.tape[0]? ≠ some .passed := by
  induction script generalizing c with
  | ended ending =>
    cases hc
    simp [Course.tape]
  | exhausted => cases hc
  | call p pos next ih =>
    obtain ⟨c₁, hc₁, hc⟩ := Option.bind_eq_some_iff.1 hc
    obtain ⟨c₂, hc₂, rfl⟩ := Option.map_eq_some_iff.1 hc
    have hfirst := hguide p pos c₁ hc₁
    rw [Course.tape_andThen]
    cases htape : c₁.tape with
    | nil => exact ih _ hc₂
    | cons slot slots =>
      rw [htape] at hfirst
      exact hfirst
  | nest input p next ih =>
    obtain ⟨c₁, -, hc⟩ := Option.bind_eq_some_iff.1 hc
    exact ih _ hc
  | clear t next ih => exact ih hc
  | note event next ih => exact ih hc
  | probe label p pos => exact hguide p pos c hc

/-- The first ordinal of an attempt is reserved by a call of its own. -/
theorem course_head {ρ : Targets V α} {limit : Nat} {st : Setting V} {r : Recognizer V α}
    {pos : Position} {c : Course V α} (hc : course ρ limit st r pos = some c) :
    c.tape[0]? ≠ some .passed := by
  induction limit generalizing st r pos c with
  | zero => cases hc
  | succ limit ih =>
    obtain ⟨w, hw, rfl⟩ := course_succ_eq_some.1 hc
    have hwork : w.tape[0]? ≠ some .passed := by
      cases r with
      | node handle shape => exact Script.course_head (fun _ _ _ hc => ih hc) hw
      | link handle l =>
        rw [Recognizer.workCourse] at hw
        cases hl : ρ l with
        | none =>
          rw [hl] at hw
          cases hw
          simp [Course.tape]
        | some r =>
          rw [hl] at hw
          exact ih hw
    rw [Course.tape_around]
    cases r.handle.caching with
    | active s =>
      show (Course.slotsThrough s w)[0]? ≠ _
      unfold Course.slotsThrough
      cases w.ending <;> simp
    | never => exact hwork
    | paused s => exact hwork

end SlotGrammar
