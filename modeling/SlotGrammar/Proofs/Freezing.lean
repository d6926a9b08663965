import SlotGrammar.Proofs.Handles
import SlotGrammar.Proofs.History

/-!
# Frozen values

A cached call that is replayed has the outcome that it had when it was recorded, with the
values of that parse.  Where no recognizer catches errors, parses another input or clears
a store, a parse that matches leaves outcomes for all its calls through a store, or for
none.  So what lies in a store under one trace was computed with the values of one parse,
and later parses follow the courses in which the calls through the store see these.

Main results:

- Theorem `course_of_twin`: the outcomes of a call depend on the values of its store.
- Theorem `Frozen.commit`: a match freezes its values where nothing lay.
- Theorem `Recorded.parse`: a parse follows the course with frozen values.
-/

namespace SlotGrammar

variable {V α : Type}

/-! ## Orderly recognizers -/

/-- Whether a shape lets errors through, parses no other input, clears no store, and does
not let the values decide whether and where it matches. -/
def Shape.Orderly {ρ : Type} : Shape V α ρ → Prop
  | .catching _ => False
  | .nested _ _ => False
  | .clearing _ _ => False
  | shape => shape.Steady

theorem Shape.Orderly.steady {ρ : Type} {shape : Shape V α ρ} (h : shape.Orderly) :
    shape.Steady := by
  cases shape <;> first | exact h | trivial

/-- Whether everything is orderly that is reached from some recognizers. -/
def Grammar.OrderlyFrom (g : Grammar V α) (roots : Recognizer V α → Prop) : Prop :=
  ∀ handle shape, g.Reachable roots (.node handle shape) → shape.Orderly

/-- What is orderly is steady. -/
theorem Grammar.OrderlyFrom.steady {g : Grammar V α} {roots : Recognizer V α → Prop}
    (h : g.OrderlyFrom roots) : g.SteadyFrom roots :=
  fun handle shape hr => (h handle shape hr).steady

/-! ## Outcomes and values -/

theorem Ending.Alike.isMatch_eq {exact same : Prop} {e e' : Ending V α}
    (h : Ending.Alike exact same e e') : e.isMatch = e'.isMatch := by
  cases h <;> rfl

/-- What stands at a place of a list stands there in a related list. -/
theorem exists_getElem?_of_forall₂ {β γ : Type} {R : β → γ → Prop} {xs : List β} {ys : List γ}
    (h : List.Forall₂ R xs ys) {n : Nat} {y : γ} (hy : ys[n]? = some y) :
    ∃ x, xs[n]? = some x ∧ R x y := by
  induction h generalizing n with
  | nil => cases hy
  | cons hxy _ ih =>
    cases n with
    | zero =>
      cases hy
      exact ⟨_, rfl, hxy⟩
    | succ n => exact ih hy

section Twins

variable {bodies : Bodies V α} {base : Grammar V α} {P : Recognizer V α → Prop}

/-- The outcomes of the calls through a store depend on nothing but the values that go
with the store.  They are the same in two parses of one input from handles on one
recognizer, as far as the calls of the handles themselves go through that store in both. -/
theorem course_of_twin (hrealm : Realm bodies base P) {root root' : Recognizer V α}
    (hroot : P root) (hroot' : P root') (hid : root.handle.id = root'.handle.id)
    (hmode : root.isCached = root'.isCached) {st st' : Setting V} (hinput : st.input = st'.input)
    {limit : Nat} {c : Course V α} (hc : course base.target limit st root .start = some c)
    (hmatch : c.ending.isMatch = true) :
    ∃ c', course base.target limit st' root' .start = some c' ∧ c'.ending.isMatch = true ∧
      ∀ (s : StoreId) (n : Nat) (o : Outcome V α), st.frozen s = st'.frozen s →
        (root'.handle.caching = .active s → root.handle.caching = .active s) →
        c'.tape[n]? = some (.settled s o) → c.tape[n]? = some (.settled s o) := by
  -- the setting in which the second handle works
  let inner := st'.below root'.handle.caching
  have hbelow : inner.below root.handle.caching = st'.below root'.handle.caching := by
    rcases root'.handle.caching.active_or_inactive with ⟨s, hon⟩ | hoff
    · have hinner : inner = st'.within s := by
        show st'.below root'.handle.caching = _
        rw [hon]
        rfl
      have hplain : inner.IsPlain := by
        rw [hinner]
        exact st'.isPlain_within s
      exact hplain.below_eq _
    · have hoff' : root.handle.caching.isActive = false := hmode.trans hoff
      exact Setting.below_of_inactive hoff' inner
  have hinner : st.input = inner.input := hinput.trans (st'.below_input _).symm
  have hnone : Closed base.target fun _ : Recognizer V α => False :=
    ⟨fun h _ => h, fun h _ => h⟩
  obtain ⟨d, hd, halike⟩ := course_alike hrealm.closed hrealm.steady hnone (fun _ _ h => h.elim)
    (Nat.le_refl limit) hinner (fun h : False => h.elim) hroot hc
  obtain ⟨w, rfl, hw⟩ := course_of_same_id hrealm hroot hroot' hid hbelow hd
  have hmatch' : w.ending.isMatch = true := by
    rw [halike.ending.isMatch_eq, Course.around_ending] at hmatch
    exact hmatch
  refine ⟨_, hw, by rw [Course.around_ending, hmatch'], ?_⟩
  intro s n o hfrozen hthrough hslot
  obtain ⟨m, hok⟩ := Ending.exists_of_isMatch hmatch'
  -- the two handles have the slot at the same ordinal, and see the same values there
  have hsame : (w.around root.handle .start).tape[n]? = some (.settled s o) ∧
      st.frozen s = inner.frozen s := by
    rcases root'.handle.caching.active_or_inactive with ⟨s', hon⟩ | hoff
    · rw [Course.tape_around_of_active hon] at hslot
      obtain ⟨rfl, heq⟩ := Course.slotsThrough_getElem? hok hslot
      cases heq
      rw [Course.tape_around_of_active (hthrough hon)]
      refine ⟨hslot, ?_⟩
      show _ = (st'.below root'.handle.caching).frozen s
      rw [hon]
      exact hfrozen
    · have hoff' : root.handle.caching.isActive = false := hmode.trans hoff
      rw [Course.tape_around_of_inactive hoff] at hslot
      rw [Course.tape_around_of_inactive hoff']
      refine ⟨hslot, ?_⟩
      show _ = (st'.below root'.handle.caching).frozen s
      rw [Setting.below_of_inactive hoff]
      exact hfrozen
  obtain ⟨slot, hslot, hx⟩ := exists_getElem?_of_forall₂ halike.tape hsame.1
  rw [hslot]
  cases hx with
  | settled h =>
    cases h.eq (.inl hsame.2) trivial
    rfl

end Twins

/-! ## Values that are frozen -/

/-- The values with which what lies in a store under a trace was recorded. -/
abbrev FrozenValues (V : Type) := StoreId → TraceKey → Option (List V)

namespace Query

/-- The setting of a parse in which the calls through a store see frozen values, if the
parse runs with caching and there are any. -/
def under (q : Query V α) (F : FrozenValues V) : Setting V :=
  ⟨q.context.view, fun s => if q.options.cache then (F s q.key).getD q.values else q.values⟩

/-- The frozen values after a matching parse that recorded something in some stores. -/
def freeze (q : Query V α) (touched : StoreId → Bool) (F : FrozenValues V) : FrozenValues V :=
  fun s key => if key = q.key ∧ touched s = true then some ((F s key).getD q.values) else F s key

theorem under_frozen {q : Query V α} (hcache : q.options.cache = true) (F : FrozenValues V)
    (s : StoreId) : (q.under F).frozen s = (F s q.key).getD q.values :=
  if_pos hcache

/-- Where nothing is frozen, all calls see the values of the parse. -/
theorem under_eq_setting {q : Query V α} {F : FrozenValues V}
    (h : q.options.cache = true → ∀ s, F s q.key = none) : q.under F = q.setting := by
  have hfrozen : (q.under F).frozen = fun _ => q.values := by
    funext s
    cases hcache : q.options.cache with
    | true => rw [under_frozen hcache, h hcache s, Option.getD_none]
    | false => exact if_neg (by rw [hcache]; exact Bool.false_ne_true)
  show (⟨q.context.view, (q.under F).frozen⟩ : Setting V) = ⟨q.context.view, fun _ => q.values⟩
  rw [hfrozen]

end Query

/-- Whether the outcomes in the stores were computed with frozen values: where there are
none, nothing lies in the store, and where there are some, all outcomes lie there that
parses with these values have. -/
structure Frozen (ρ : Targets V α) (roots : Recognizer V α → Prop) (F : FrozenValues V)
    (entries : Entries V α) : Prop where
  absent : ∀ {s : StoreId} {key : TraceKey}, F s key = none → ∀ n, entries s key n = none
  present : ∀ {s : StoreId} {key : TraceKey} {values : List V} {root : Recognizer V α}
    {st : Setting V}, F s key = some values → roots root → traceKey root st.input = key →
    st.frozen s = values → ∃ limit c, course ρ limit st root .start = some c ∧
      c.ending.isMatch = true ∧
      ∀ (n : Nat) (o : Outcome V α), c.tape[n]? = some (.settled s o) → entries s key n = some o

/-- Clearing a store thaws it. -/
theorem Frozen.clear {ρ : Targets V α} {roots : Recognizer V α → Prop} {F : FrozenValues V}
    {entries : Entries V α} (h : Frozen ρ roots F entries) (s : StoreId) :
    Frozen ρ roots (fun s' key => if s' = s then none else F s' key)
      fun s' key n => if s' = s then none else entries s' key n := by
  constructor
  · intro s' key hF n
    by_cases hs : s' = s
    · exact if_pos hs
    · rw [if_neg hs] at hF
      exact (if_neg hs).trans (h.absent hF n)
  · intro s' key values root st hF hroot hkey hvalues
    by_cases hs : s' = s
    · rw [if_pos hs] at hF
      cases hF
    · rw [if_neg hs] at hF
      obtain ⟨limit, c, hc, hmatch, hfound⟩ := h.present hF hroot hkey hvalues
      exact ⟨limit, c, hc, hmatch, fun n o hslot => (if_neg hs).trans (hfound n o hslot)⟩

section Parses

variable {bodies : Bodies V α} {base : Grammar V α} {P roots : Recognizer V α → Prop}
  {F : FrozenValues V} {entries : Entries V α} {q : Query V α}

/-- What lies in the stores agrees with the slots of the course with frozen values. -/
theorem Frozen.meets (hrealm : Realm bodies base P)
    (horderly : ∀ handle shape, P (.node handle shape) → shape.Orderly)
    (h : Frozen base.target roots F entries) (hcache : q.options.cache = true)
    (hroot : roots q.root) (hP : P q.root) {limit : Nat} {c : Course V α}
    (hc : course base.target limit (q.under F) q.root .start = some c) {n : Nat} {slot : Slot V α}
    (hslot : c.tape[n]? = some slot) : slot.Meets (q.under F) fun s => entries s q.key n := by
  have hthawed : ∀ s, F s q.key = none →
      entries s q.key n = none ∧ (q.under F).frozen s = q.values := by
    intro s hF
    rw [Query.under_frozen hcache, hF]
    exact ⟨h.absent hF n, rfl⟩
  have hfrozen : ∀ s values, F s q.key = some values → c.ending.isMatch = true ∧
      ∀ o, c.tape[n]? = some (.settled s o) → entries s q.key n = some o := by
    intro s values hF
    have hvalues : (q.under F).frozen s = values := by
      rw [Query.under_frozen hcache, hF]
      rfl
    obtain ⟨limit', c', hc', hmatch, hfound⟩ := h.present hF hroot rfl hvalues
    cases course_unique hrealm.closed hrealm.steady hP hc hc'
    exact ⟨hmatch, hfound n⟩
  cases slot with
  | settled s o =>
    cases hF : F s q.key with
    | none =>
      refine ⟨?_, fun _ => (hthawed s hF).2⟩
      intro o' ho'
      have ho' : entries s q.key n = some o' := ho'
      rw [(hthawed s hF).1] at ho'
      cases ho'
    | some values =>
      have hfound := (hfrozen s values hF).2 o hslot
      refine ⟨?_, ?_⟩
      · intro o' ho'
        have ho' : entries s q.key n = some o' := ho'
        rw [hfound] at ho'
        exact (Option.some.inj ho').symm
      · intro hnone
        have hnone : entries s q.key n = none := hnone
        rw [hfound] at hnone
        cases hnone
  | raised s =>
    cases hF : F s q.key with
    | none => exact hthawed s hF
    | some values =>
      -- a parse that has matched before matches again, so that no call raises
      obtain ⟨m, hok⟩ := Ending.exists_of_isMatch (hfrozen s values hF).1
      have hsettled := settled_of_tape hrealm.closed (fun handle p h => horderly _ _ h) hP hc hok _
        (List.mem_of_getElem? hslot)
      exact hsettled.elim
  | passed => trivial

/-- A match freezes the values of its calls in the stores that it touches, where none are
frozen yet. -/
theorem Frozen.commit (hrealm : Realm bodies base P) (hroots : ∀ r, roots r → P r)
    (h : Frozen base.target roots F entries) (hcache : q.options.cache = true)
    (hroot : roots q.root) {limit : Nat} {c : Course V α}
    (hc : course base.target limit (q.under F) q.root .start = some c)
    (hmatch : c.ending.isMatch = true) (hsettled : ∀ slot ∈ c.tape, slot.IsSettled)
    {pending : StoreId → Nat → Option (Outcome V α)} {entries' : Entries V α}
    (hpends : Pends (· = entries) q.key c.tape pending)
    (hcommitted : ∀ s key n, entries' s key n =
      if key = q.key then (pending s n).or (entries s key n) else entries s key n)
    {touched : StoreId → Bool}
    (huntouched : ∀ s, touched s = false →
      ∀ (n : Nat) (o : Outcome V α), c.tape[n]? ≠ some (.settled s o))
    (htwins : ∀ r, roots r → q.root.handle.id = r.handle.id → q.root.isCached = r.isCached ∧
      ∀ s, touched s = true → r.handle.caching = .active s → q.root.handle.caching = .active s) :
    Frozen base.target roots (q.freeze touched F) entries' := by
  -- nothing is committed under other traces or in stores that are not touched
  have hsame : ∀ s key n, ¬ (key = q.key ∧ touched s = true) →
      entries' s key n = entries s key n := by
    intro s key n hother
    rw [hcommitted]
    split
    next hkey =>
      have hnone : pending s n = none := by
        rw [Option.eq_none_iff_forall_ne_some]
        intro o ho
        refine huntouched s ?_ n o (hpends.slot_eq hsettled ho)
        simpa [hkey] using hother
      rw [hnone]
      rfl
    · rfl
  constructor
  · intro s key hF n
    unfold Query.freeze at hF
    split at hF
    · cases hF
    next hother =>
      rw [hsame s key n hother]
      exact h.absent hF n
  · intro s key values root st hF hroot' hkey hvalues
    unfold Query.freeze at hF
    split at hF
    next hhere =>
      obtain ⟨rfl, htouched⟩ := hhere
      injection hkey with hid hprint
      obtain ⟨hmode, hthrough⟩ := htwins root hroot' hid.symm
      have hinput : (q.under F).input = st.input := (Fragments.fingerprint_inj.1 hprint).symm
      have hsee : (q.under F).frozen s = st.frozen s := by
        rw [Query.under_frozen hcache, hvalues]
        exact Option.some.inj hF
      obtain ⟨c', hc', hmatch', hback⟩ := course_of_twin hrealm (hroots _ hroot) (hroots _ hroot')
        hid.symm hmode hinput hc hmatch
      refine ⟨limit, c', hc', hmatch', ?_⟩
      intro n o hn
      rw [hcommitted, if_pos rfl]
      exact hpends.committed_eq hsettled (hback s n o hsee (hthrough s htouched) hn)
    next hother =>
      obtain ⟨limit', c', hc', hmatch', hfound⟩ := h.present hF hroot' hkey hvalues
      refine ⟨limit', c', hc', hmatch', ?_⟩
      intro n o hn
      rw [hsame s key n hother]
      exact hfound n o hn

/-! ## States of a history -/

/-- Whether a state of a grammar is sound, with the outcomes of some frozen values. -/
structure Recorded (base : Grammar V α) (roots : Recognizer V α → Prop) (F : FrozenValues V)
    (g : Grammar V α) : Prop where
  sound : base.Sound (fun _ => True) g
  frozen : Frozen base.target roots F g.stores.committed

/-- The frozen values after a parse that ended as given and touched some stores. -/
def Query.frozenAfter (q : Query V α) (touched : StoreId → Bool) (ending : Ending V α)
    (F : FrozenValues V) : FrozenValues V :=
  if q.options.cache && ending.isMatch then q.freeze touched F else F

variable {g : Grammar V α}

theorem regime_of_orderly (horderly : ∀ handle shape, P (.node handle shape) → shape.Orderly)
    (J : Entries V α → Prop) : Regime base.target P (fun _ => False) J :=
  .of_no_start fun h => (horderly _ _ h).elim

theorem not_nests_of_orderly (hrealm : Realm bodies base P)
    (horderly : ∀ handle shape, P (.node handle shape) → shape.Orderly) {st : Setting V}
    {r r' : Recognizer V α} {pos : Position} (hr : P r) : ¬ Nests base.target st r pos r' := by
  intro h
  obtain ⟨handle, sub, hnested, -⟩ := h.reached hrealm.closed hr
  exact horderly _ _ hnested

/-- A parse without caching follows its course and records nothing. -/
theorem Recorded.parse?_of_course_uncached (hrealm : Realm bodies base P)
    (horderly : ∀ handle shape, P (.node handle shape) → shape.Orderly)
    (hroots : ∀ r, roots r → P r) (h : Recorded base roots F g) (hroot : roots q.root)
    (hcache : q.options.cache = false) {limit : Nat} {c : Course V α}
    (hc : course base.target limit (q.under F) q.root .start = some c) :
    ∃ report, q.parse? g limit = some report ∧ report.ending = c.ending ∧
      Recorded base roots F report.grammar := by
  have hunder : q.under F = q.setting := Query.under_eq_setting fun h => by
    rw [hcache] at h
    cases h
  rw [hunder] at hc
  have hplain : q.setting.IsPlain := Setting.isPlain_plain _
  have hstart : q.context.options.cache = true → False := by
    rw [show q.context.options.cache = false from hcache]
    exact Bool.false_ne_true
  obtain ⟨run, hrun, hok⟩ := parse_follows hrealm
    (regime_of_orderly horderly (· = g.stores.committed)) hstart (hroots _ hroot) rfl rfl hplain
    (fun r hr => not_nests_of_orderly hrealm horderly (hroots _ hroot) hr) hc
    (h.sound.of_allowed rfl)
  have hsame : run.grammar.stores.committed = g.stores.committed := hok.allowed
  refine ⟨_, q.parse?_of_run hrun, rfl, hok.grammar.of_allowed trivial, ?_⟩
  show Frozen base.target roots F run.grammar.stores.committed
  rw [hsame]
  exact h.frozen

/-- A parse follows the course with frozen values, and freezes its own where it commits
something. -/
theorem Recorded.parse?_of_course (hrealm : Realm bodies base P)
    (horderly : ∀ handle shape, P (.node handle shape) → shape.Orderly)
    (hroots : ∀ r, roots r → P r) (h : Recorded base roots F g) (hroot : roots q.root) {limit : Nat}
    {c : Course V α} (hc : course base.target limit (q.under F) q.root .start = some c) :
    ∃ report, q.parse? g limit = some report ∧ report.ending = c.ending ∧
      (q.options.cache = true → Event.Tells report.events (some 0) c.track) ∧
      ∀ touched : StoreId → Bool, (∀ s, touched s = false →
        ∀ (n : Nat) (o : Outcome V α), c.tape[n]? ≠ some (.settled s o)) →
      (∀ r, roots r → q.root.handle.id = r.handle.id → q.root.isCached = r.isCached ∧
        ∀ s, touched s = true → r.handle.caching = .active s → q.root.handle.caching = .active s) →
      Recorded base roots (q.frozenAfter touched c.ending F) report.grammar := by
  have hP := hroots _ hroot
  cases hcache : q.options.cache with
  | false =>
    obtain ⟨report, hreport, hending, hrecorded⟩ :=
      h.parse?_of_course_uncached hrealm horderly hroots hroot hcache hc
    refine ⟨report, hreport, hending, fun hon => (by cases hon), fun touched _ _ => ?_⟩
    rw [Query.frozenAfter, hcache]
    exact hrecorded
  | true =>
    obtain ⟨report, hreport, hleaves⟩ := q.parse?_leaves hrealm
      (regime_of_orderly horderly (· = g.stores.committed))
      (fun (_ : True) handle sub p hp => horderly _ _ hp) hcache hP rfl
      (fun r hr => not_nests_of_orderly hrealm horderly hP hr) hc
      (by
        rintro entries rfl n slot hslot
        exact h.frozen.meets hrealm horderly hcache hroot hP hc hslot)
      (h.sound.of_allowed rfl)
    refine ⟨report, hreport, hleaves.ending, fun _ => hleaves.told trivial, ?_⟩
    intro touched huntouched htwins
    refine ⟨hleaves.sound trivial, ?_⟩
    rw [Query.frozenAfter, hcache, Bool.true_and]
    cases hmatch : c.ending.isMatch with
    | false =>
      rw [hleaves.unmatched hmatch]
      exact h.frozen
    | true =>
      obtain ⟨m, hm⟩ := Ending.exists_of_isMatch hmatch
      obtain ⟨entries, pending, rfl, hpends, hcommitted⟩ := hleaves.matched hmatch
      exact h.frozen.commit hrealm hroots hcache hroot hc hmatch
        (settled_of_tape hrealm.closed (fun handle p hp => horderly _ _ hp) hP hc hm) hpends
        hcommitted huntouched htwins

end Parses

end SlotGrammar
