import SlotGrammar.Proofs.Alignment
import SlotGrammar.Proofs.Working

/-!
# Reuse of matches

Once a parse with caching has matched, later ones with the same root and input replay all
their calls through a store, whatever has been parsed and attempted in between and with
any values.  Where stores have been cleared, only the calls through these work again, with
the calls below them.

Main results:

- Theorem `booked_course`: a call through a store has the slot at its ordinal.
- Theorem `exists_clears`: what was recorded goes away only when its store is cleared.
- Theorem `Recorded.works_unfrozen`: a call with a cache works only below one through a store
  for which nothing is frozen.
- Theorem `Serves.exists_match`: what has matched once matches from then on.
-/

namespace SlotGrammar

variable {V α : Type}

/-! ## Calls and their ordinals -/

/-- The store of the call that has reserved an ordinal. -/
def Slot.store? : Slot V α → Option StoreId
  | settled s _ => some s
  | raised s => some s
  | passed => none

/-- Whether all calls through a store that marks tell of have a slot of that store at their
ordinal. -/
def Booked (marks : List (Mark V α)) : Prop :=
  ∀ k handle pos n s, handle.caching = .active s →
    Moment.entered handle pos (some n) ∈ momentsOf (some k) marks →
    ∃ m slot, n = k + m ∧ (tapeOf marks)[m]? = some slot ∧ slot.store? = some s

theorem Booked.nil : Booked ([] : List (Mark V α)) := by
  intro k handle pos n s _ h
  cases h

theorem Booked.append {marks marks' : List (Mark V α)} (h : Booked marks) (h' : Booked marks') :
    Booked (marks ++ marks') := by
  intro k handle pos n s hactive hentered
  rw [momentsOf_append] at hentered
  rw [tapeOf_append]
  rcases List.mem_append.1 hentered with hfirst | hlater
  · rcases h k handle pos n s hactive hfirst with ⟨m, slot, hn, hslot, hstore⟩
    refine ⟨m, slot, hn, ?_, hstore⟩
    rw [List.getElem?_append_left (List.getElem?_eq_some_iff.1 hslot).1]
    exact hslot
  · have hlater : Moment.entered handle pos (some n) ∈
        momentsOf (some (k + (tapeOf marks).length)) marks' := hlater
    rcases h' _ handle pos n s hactive hlater with ⟨m, slot, hn, hslot, hstore⟩
    refine ⟨(tapeOf marks).length + m, slot, by omega, ?_, hstore⟩
    · rw [List.getElem?_append_right (Nat.le_add_right _ _), Nat.add_sub_cancel_left]
      exact hslot

/-- The first slot of a call through a store is a slot of that store. -/
theorem Course.slotsThrough_head (s : StoreId) (c : Course V α) :
    ∃ slot, (c.slotsThrough s)[0]? = some slot ∧ slot.store? = some s := by
  unfold slotsThrough
  cases c.ending with
  | ok outcome => exact ⟨.settled s outcome, rfl, rfl⟩
  | error e => exact ⟨.raised s, rfl, rfl⟩

/-- A call books its own ordinal if it goes through a store, and those below it otherwise. -/
theorem Booked.around {c : Course V α} (h : Booked c.track) (handle : Handle) (pos : Position) :
    Booked (c.around handle pos).track := by
  rcases handle.caching.active_or_inactive with ⟨s₀, hon⟩ | hoff
  · have htrack : (c.around handle pos).track =
        [.entered handle pos, .left handle pos (c.slotsThrough s₀)] := by
      rw [Course.around, hon]
    rw [htrack]
    intro k handle' pos' n s hactive hentered
    simp only [momentsOf, List.mem_cons, List.not_mem_nil, or_false, reduceCtorEq,
      Moment.entered.injEq, Option.some.injEq] at hentered
    rcases hentered with ⟨rfl, -, rfl⟩
    rw [hon] at hactive
    cases hactive
    rcases c.slotsThrough_head s₀ with ⟨slot, hslot, hstore⟩
    refine ⟨0, slot, rfl, ?_, hstore⟩
    simpa [Mark.slots] using hslot
  · have hentered : Booked [(.entered handle pos : Mark V α)] := by
      intro k handle' pos' n s hactive hmem
      simp only [momentsOf, List.mem_singleton, Moment.entered.injEq] at hmem
      rw [hmem.1] at hactive
      rw [hactive] at hoff
      cases hoff
    have hleft : Booked [(.left handle pos [] : Mark V α)] := by
      intro k handle' pos' n s _ hmem
      simp [momentsOf] at hmem
    rw [Course.around_of_inactive hoff]
    exact (hentered.append h).append hleft

/-- The calls of a script are booked when those of its parts are. -/
theorem Script.booked_course {guide : Guide V α}
    (h : ∀ st r pos c, guide st r pos = some c → Booked c.track) (script : Script V α)
    {st : Setting V} {w : Course V α} (hw : script.course guide st = some w) : Booked w.track := by
  induction script generalizing w with
  | ended ending =>
    cases hw
    exact .nil
  | exhausted => cases hw
  | call p pos next ih =>
    rcases Option.bind_eq_some_iff.1 hw with ⟨c, hc, hw⟩
    rcases Option.map_eq_some_iff.1 hw with ⟨c', hc', rfl⟩
    exact (h st p pos c hc).append (ih c.ending hc')
  | nest input p next ih =>
    rcases Option.bind_eq_some_iff.1 hw with ⟨c, -, hw⟩
    exact ih c.ending hw
  | clear t next ih => exact ih hw
  | note event next ih => exact ih hw
  | probe label p pos => exact h st p pos w hw

/-- A call through a store has the slot at its ordinal. -/
theorem booked_course {ρ : Targets V α} (limit : Nat) (st : Setting V) (r : Recognizer V α)
    (pos : Position) (c : Course V α) (hc : course ρ limit st r pos = some c) : Booked c.track := by
  induction limit generalizing st r pos c with
  | zero => cases hc
  | succ limit ih =>
    rcases course_succ_eq_some.1 hc with ⟨w, hw, rfl⟩
    apply Booked.around
    cases r with
    | node handle shape => exact Script.booked_course ih _ hw
    | link handle l =>
      rw [Recognizer.workCourse] at hw
      cases hl : ρ l with
      | none =>
        rw [hl] at hw
        cases hw
        exact .nil
      | some target =>
        rw [hl] at hw
        exact ih _ target pos w hw

/-! ## What stays recorded -/

/-- A step that does not clear a store leaves what is frozen there. -/
theorem Step.isSome_freezes {step : Step V α} {s : StoreId} (hkept : step.clears s = false)
    {F : FrozenValues V} {key : TraceKey} (h : (F s key).isSome = true) :
    (step.freezes F s key).isSome = true := by
  cases step with
  | clear t =>
    have hne : t.handle.caching.store? ≠ some s := of_decide_eq_false hkept
    simpa [Step.freezes, hne] using h
  | parse q ending =>
    change (q.frozenAfter (fun _ => true) ending F s key).isSome = true
    unfold Query.frozenAfter
    split
    · unfold Query.freeze
      split
      · rfl
      · exact h
    · exact h

/-- What a matching parse has recorded in a store, or found there, goes away only when the
store is cleared. -/
theorem exists_clears {before after : List (Step V α)} {q : Query V α} {ending : Ending V α}
    (hcache : q.options.cache = true) (hmatch : ending.isMatch = true) {s : StoreId}
    (hnone : frozenBy (before ++ [.parse q ending] ++ after) s q.key = none) :
    ∃ step ∈ after, step.clears s = true := by
  by_contra hkept
  have hfrozen : (frozenBy (before ++ [.parse q ending] ++ after) s q.key).isSome = true := by
    clear hnone
    induction after using List.reverseRecOn with
    | nil =>
      rw [List.append_nil, frozenBy_append, Step.freezes, Query.frozenAfter, hcache, hmatch]
      simp [Query.freeze]
    | append_singleton steps step ih =>
      rw [← List.append_assoc, frozenBy_append]
      apply Step.isSome_freezes
      · rw [← Bool.not_eq_true]
        exact fun hclears => hkept ⟨step, by simp, hclears⟩
      · apply ih
        rintro ⟨step', hstep', hclears⟩
        exact hkept ⟨step', by simp [hstep'], hclears⟩
  rw [hnone] at hfrozen
  cases hfrozen

/-! ## Histories with attempts by themselves -/

namespace Grammar

/-- Whether some steps lead from one state of a grammar to another, with any attempts of
some recognizers by themselves in between. -/
inductive Serves (g : Grammar V α) (roots : Recognizer V α → Prop) :
    List (Step V α) → Grammar V α → Prop where
  | refl : Serves g roots [] g
  | step {steps : List (Step V α)} {step : Step V α} {g' g'' : Grammar V α}
      (h : Serves g roots steps g') (hstep : g'.Takes step g'') :
      Serves g roots (steps ++ [step]) g''
  | alone {steps : List (Step V α)} {g' : Grammar V α} {root : Recognizer V α} {limit : Nat}
      {input : Fragments} {values : List V} {window : ErrorWindow} {pos : Position}
      {report : Report V α} (h : Serves g roots steps g') (hroot : roots root)
      (hreport : g'.exec? limit root input values window pos = some report) :
      Serves g roots steps report.grammar

theorem Serves.trans {g g' g'' : Grammar V α} {roots : Recognizer V α → Prop}
    {steps steps' : List (Step V α)} (h : g.Serves roots steps g')
    (h' : g'.Serves roots steps' g'') : g.Serves roots (steps ++ steps') g'' := by
  induction h' with
  | refl =>
    rw [List.append_nil]
    exact h
  | step _ hstep ih =>
    rw [← List.append_assoc]
    exact ih.step hstep
  | alone _ hroot hreport ih => exact ih.alone hroot hreport

end Grammar

section Histories

variable {bodies : Bodies V α} {base g : Grammar V α} {P roots offered : Recognizer V α → Prop}
  {F : FrozenValues V}

/-- An attempt by itself leaves what is in the stores. -/
theorem Recorded.attempted (hrealm : Realm bodies base P)
    (horderly : ∀ handle shape, P (.node handle shape) → shape.Orderly)
    (h : Recorded base roots F g) {root : Recognizer V α} (hroot : P root) {limit : Nat}
    {input : Fragments} {values : List V} {window : ErrorWindow} {pos : Position}
    {report : Report V α} (hreport : g.exec? limit root input values window pos = some report) :
    Recorded base roots F report.grammar := by
  rcases Option.map_eq_some_iff.1 hreport with ⟨⟨ending, mid⟩, hmid, rfl⟩
  let ctx : Context V α := ⟨input, values, { errorWindow := window }, [root]⟩
  let J : Entries V α → Prop := (· = g.stores.committed)
  have hregime : Regime base.target P (fun _ => False) J := regime_of_orderly horderly J
  have hheld : ∀ h ∈ ctx.held, base.Keeps h := hrealm.keeps_root hroot rfl
  have hstart : Sound base J { grammar := g } := h.sound.of_allowed rfl
  have hnests : ∀ r, Nests base.target ctx.view.plain root pos r → False :=
    fun _ hnests => not_nests_of_orderly hrealm horderly hroot hnests
  have hplain : ctx.view.plain.IsPlain := Setting.isPlain_plain _
  rcases SlotGrammar.exists_course hrealm hregime rfl hheld hroot hnests hplain hstart quiet_none
    hmid with ⟨m, c, hc⟩
  have hend := exec_eq_course hrealm hregime rfl hheld hroot hnests hc hstart
    (quiet_none.fits hplain _) hmid
  have hsame : mid.grammar.stores.committed = g.stores.committed := hend.2.1.allowed
  refine ⟨hend.2.1.grammar.of_allowed trivial, ?_⟩
  change Frozen base.target roots F mid.grammar.stores.committed
  rw [hsame]
  exact h.frozen

/-- After a history with attempts by themselves the stores hold what was computed with
frozen values. -/
theorem Recorded.of_serves (hrealm : Realm bodies base P)
    (horderly : ∀ handle shape, P (.node handle shape) → shape.Orderly)
    (hroots : ∀ r, roots r → P r) (hoffered : ∀ r, offered r → P r)
    (hone : ∀ r r', roots r → roots r' → r.handle.id = r'.handle.id → r.handle = r'.handle)
    {steps : List (Step V α)} (hserves : base.Serves offered steps g)
    (hasked : ∀ p ∈ asked steps, roots p.root) : Recorded base roots (frozenBy steps) g := by
  induction hserves with
  | refl => exact recorded_of_blank hrealm.formed.blank roots
  | @step steps step _ _ _ hstep ih =>
    have hold := ih fun p hp => hasked p (by simp [hp])
    rw [frozenBy_append]
    exact hold.step hrealm horderly hroots hone hstep
      fun p hp => hasked p (mem_asked_append_of_query? hp)
  | alone _ hroot hreport ih =>
    exact (ih hasked).attempted hrealm horderly (hoffered _ hroot) hreport

end Histories

/-! ## Matches are reused -/

section Parses

variable {bodies : Bodies V α} {base g : Grammar V α} {P roots : Recognizer V α → Prop}
  {F : FrozenValues V} {q : Query V α}

/-- Where values are frozen for a store, no call through it has to work. -/
theorem Recorded.not_frozen_of_owed (hrealm : Realm bodies base P)
    (horderly : ∀ handle shape, P (.node handle shape) → shape.Orderly)
    (hroots : ∀ r, roots r → P r) (h : Recorded base roots F g) (hroot : roots q.root)
    (hcache : q.options.cache = true) {limit : Nat} {c : Course V α}
    (hc : course base.target limit (q.under F) q.root .start = some c)
    (hmatch : c.ending.isMatch = true) {events : List (Event V α)}
    (htells : Event.Tells events (some 0) c.track) {handle : Handle}
    (howed : Event.Owed g.stores.committed q.key events handle) :
    ∃ s, handle.caching = .active s ∧ F s q.key = none := by
  rcases howed with ⟨s, n, pos, hactive, hnone, hentered⟩
  refine ⟨s, hactive, ?_⟩
  rw [htells.outermost_eq] at hentered
  rcases booked_course limit _ q.root .start c hc 0 handle pos n s hactive hentered with
    ⟨m, slot, hn, hslot, hstore⟩
  rw [Nat.zero_add] at hn
  subst hn
  -- a parse that matches raises nowhere
  rcases Ending.exists_of_isMatch hmatch with ⟨found, hok⟩
  have hsettled := settled_of_tape hrealm.closed (fun handle p hp => horderly _ _ hp)
    (hroots _ hroot) hc hok slot (List.mem_of_getElem? hslot)
  cases slot with
  | raised s' => exact hsettled.elim
  | passed => exact hsettled.elim
  | settled s' o =>
    cases hstore
    rw [Option.eq_none_iff_forall_ne_some]
    intro values hF
    have hvalues : (q.under F).frozen s = values := by
      rw [Query.under_frozen hcache, hF]
      rfl
    rcases h.frozen.present hF hroot rfl hvalues with ⟨limit', c', hc', -, hfound⟩
    cases course_unique hrealm.closed hrealm.steady (hroots _ hroot) hc hc'
    have hthere : g.stores.committed s q.key n = some o := hfound n o hslot
    rw [hnone] at hthere
    cases hthere

/-- In a parse that matches, calls work only below an outermost one through a store for
which no values are frozen. -/
theorem Recorded.works_unfrozen (hrealm : Realm bodies base P)
    (horderly : ∀ handle shape, P (.node handle shape) → shape.Orderly)
    (hroots : ∀ r, roots r → P r) (h : Recorded base roots F g) (hroot : roots q.root)
    (hcache : q.options.cache = true) {limit : Nat} {report : Report V α}
    (hreport : q.parse? g limit = some report) (hmatch : report.ending.isMatch = true) :
    ∀ x ∈ Event.works [] report.events, ∃ s, x.2.caching = .active s ∧ F s q.key = none := by
  rcases h.course_of_parse? hrealm horderly hroots hroot hreport with ⟨m, c, hc, hparse, hending⟩
  rcases h.parse?_of_course hrealm horderly hroots hroot hc with ⟨report', hreport', -, htells, -⟩
  rw [hparse] at hreport'
  cases hreport'
  rw [hending] at hmatch
  intro x hx
  have howed := (q.accounted hrealm horderly h.sound (hroots _ hroot) hcache hparse).works x hx
  exact h.not_frozen_of_owed hrealm horderly hroots hroot hcache hc hmatch (htells hcache) howed

/-- Where a root has matched an input once, later parses of the input from the root have a
course that matches, with whatever values. -/
theorem Recorded.exists_match (hrealm : Realm bodies base P)
    (horderly : ∀ handle shape, P (.node handle shape) → shape.Orderly)
    (hroots : ∀ r, roots r → P r) {g₀ : Grammar V α} {F₀ : FrozenValues V} {q₀ : Query V α}
    (h₀ : Recorded base roots F₀ g₀) (hroot₀ : roots q₀.root) {limit₀ : Nat} {first : Report V α}
    (hfirst : q₀.parse? g₀ limit₀ = some first) (hmatch₀ : first.ending.isMatch = true)
    (hroot : roots q.root) (hkey : q.key = q₀.key)
    (hhandle : q.root.handle.id = q₀.root.handle.id → q.root.handle = q₀.root.handle)
    (F : FrozenValues V) :
    ∃ limit c, course base.target limit (q.under F) q.root .start = some c ∧
      c.ending.isMatch = true := by
  rcases h₀.course_of_parse? hrealm horderly hroots hroot₀ hfirst with ⟨m, c₀, hc₀, -, hending₀⟩
  rw [hending₀] at hmatch₀
  injection hkey with hid hprint
  have hinput : q₀.input = q.input := (Fragments.fingerprint_inj.1 hprint).symm
  have hmode : q₀.root.isCached = q.root.isCached := by
    rw [Recognizer.isCached, Recognizer.isCached, hhandle hid]
  have htwin : (q₀.under F₀).input = (q.under F).input := hinput
  rcases course_of_twin hrealm (hroots _ hroot₀) (hroots _ hroot) hid.symm hmode htwin hc₀
    hmatch₀ with ⟨c, hc, hmatch, -⟩
  exact ⟨m, c, hc, by rw [hmatch]⟩

end Parses

namespace Grammar

/-- Once a parse with caching has matched, the stores hold from then on what was computed with
frozen values, and every later parse for the same root and input has a course that matches. -/
theorem Serves.exists_match {bodies : Bodies V α} {g g₁ g₂ : Grammar V α}
    {before after : List (Step V α)} {roots : Recognizer V α → Prop} {q₀ q : Query V α}
    {limit₀ : Nat} {first : Report V α} (hbefore : g.Serves roots before g₁)
    (hfirst : q₀.parse? g₁ limit₀ = some first) (hafter : first.grammar.Serves roots after g₂)
    (hrealm : Realm bodies g (g.Reachable roots)) (horderly : g.OrderlyFrom roots)
    (hmatch₀ : first.ending.isMatch = true) (hkey : q.key = q₀.key)
    (hasked : ∀ p ∈ q :: q₀ :: asked (before ++ after), roots p.root)
    (hone : ∀ p ∈ q :: q₀ :: asked (before ++ after), ∀ p' ∈ q :: q₀ :: asked (before ++ after),
      p.root.handle.id = p'.root.handle.id → p.root.handle = p'.root.handle)
    {F : FrozenValues V} (hF : F = frozenBy (before ++ [.parse q₀ first.ending] ++ after)) :
    Recorded g (IsRootOf (q :: q₀ :: asked (before ++ after))) F g₂ ∧
      ∃ limit c, course g.target limit (q.under F) q.root .start = some c ∧
        c.ending.isMatch = true := by
  subst hF
  have hstarted := reachable_of_isRootOf (g := g) hasked
  have hoffered : ∀ r, roots r → g.Reachable roots r := fun r hr => .root hr
  have hone' : ∀ r r', IsRootOf (q :: q₀ :: asked (before ++ after)) r →
      IsRootOf (q :: q₀ :: asked (before ++ after)) r' →
      r.handle.id = r'.handle.id → r.handle = r'.handle := forall_isRootOf hone
  have hroot : IsRootOf (q :: q₀ :: asked (before ++ after)) q.root := ⟨q, by simp, rfl⟩
  have hroot₀ : IsRootOf (q :: q₀ :: asked (before ++ after)) q₀.root := ⟨q₀, by simp, rfl⟩
  -- the state before the first parse, and the one after all
  have hrecorded₀ := Recorded.of_serves hrealm horderly hstarted hoffered hone' hbefore
    fun p hp => ⟨p, by simp [hp], rfl⟩
  have htakes : g₁.Takes (.parse q₀ first.ending) first.grammar :=
    ⟨limit₀, first, hfirst, rfl, rfl⟩
  have hall := (hbefore.step htakes).trans hafter
  refine ⟨Recorded.of_serves hrealm horderly hstarted hoffered hone' hall ?_, ?_⟩
  · intro p hp
    refine ⟨p, ?_, rfl⟩
    have hparse : asked [Step.parse q₀ first.ending] = [q₀] := rfl
    simp only [asked_append, hparse, List.mem_append, List.mem_cons] at hp ⊢
    tauto
  · exact hrecorded₀.exists_match hrealm horderly hstarted hroot₀ hfirst hmatch₀ hroot hkey
      (hone' _ _ hroot hroot₀) _

end Grammar

end SlotGrammar
