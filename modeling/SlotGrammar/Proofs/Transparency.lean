import SlotGrammar.Proofs.Handles
import SlotGrammar.Proofs.History

/-!
# Transparency of caches

A parse looks outcomes up by ordinals alone.  They stay right after every history, as
long as no cached recognizer reads values and no two parses start from handles on one
recognizer of which only one is cached: the slots of a parse are the same for all parses
with one trace, and an outcome only gets to an ordinal at which all of them have it.

Main results:

- Theorem `Harmonious.regime`: parses keep the outcomes in the stores due.
- Theorem `parse?_ending_of_plain?`: a parse ends as if there were no caches.
-/

namespace SlotGrammar

variable {V α : Type}

/-! ## Outcomes that are due -/

/-- Whether an outcome may lie in a store at the ordinal of a slot. -/
def Slot.Allows (s : StoreId) (o : Outcome V α) : Slot V α → Prop
  | settled s' o' => s' = s → o' = o
  | raised s' => s' ≠ s
  | passed => True

/-- Whether an outcome in a store is due at an ordinal of a trace: the parses that have
the trace have courses, and the slots of these courses allow it. -/
structure Due (ρ : Targets V α) (starts : Recognizer V α → Prop) (s : StoreId) (key : TraceKey)
    (n : Nat) (o : Outcome V α) : Prop where
  known : ∃ root st limit c, starts root ∧ st.IsPlain ∧ traceKey root st.input = key ∧
    course ρ limit st root .start = some c
  allowed : ∀ {root : Recognizer V α} {st : Setting V} {limit : Nat} {c : Course V α}
    {slot : Slot V α}, starts root → st.IsPlain → traceKey root st.input = key →
    course ρ limit st root .start = some c → c.tape[n]? = some slot → slot.Allows s o

/-- Whether all outcomes in the stores are due. -/
def AllDue (ρ : Targets V α) (starts : Recognizer V α → Prop) (entries : Entries V α) : Prop :=
  ∀ s key n o, entries s key n = some o → Due ρ starts s key n o

/-- Clearing a store leaves the rest due. -/
theorem AllDue.clear {ρ : Targets V α} {starts : Recognizer V α → Prop} {entries : Entries V α}
    (h : AllDue ρ starts entries) (s : StoreId) :
    AllDue ρ starts fun s' key n => if s' = s then none else entries s' key n := by
  intro s' key n o ho
  by_cases hs : s' = s
  · simp [hs] at ho
  · exact h s' key n o (by simpa [hs] using ho)

/-- Slots meet outcomes that are due, where all calls see the values of the parse. -/
theorem AllDue.meets {ρ : Targets V α} {starts : Recognizer V α → Prop} {entries : Entries V α}
    (h : AllDue ρ starts entries) {root : Recognizer V α} (hstart : starts root) {st : Setting V}
    (hplain : st.IsPlain) {limit : Nat} {c : Course V α}
    (hc : course ρ limit st root .start = some c) {n : Nat} {slot : Slot V α}
    (hslot : c.tape[n]? = some slot) :
    slot.Meets st fun s => entries s (traceKey root st.input) n := by
  have hallows : ∀ s o, entries s (traceKey root st.input) n = some o → slot.Allows s o :=
    fun s o ho => (h s _ n o ho).allowed hstart hplain rfl hc hslot
  cases slot with
  | settled s o =>
    refine ⟨?_, fun _ => hplain s⟩
    intro o' ho'
    exact (hallows s o' ho' rfl).symm
  | raised s =>
    refine ⟨?_, hplain s⟩
    rw [Option.eq_none_iff_forall_ne_some]
    intro o ho
    exact hallows s o ho rfl
  | passed => trivial

/-! ## Handles in harmony -/

/-- Whether handles on one recognizer do not disagree: where a parse matches from a
handle without a cache, its first call through the store of another handle, if that is
where its first ordinal goes, comes to the whole match. -/
def Harmonious (ρ : Targets V α) (starts : Recognizer V α → Prop) : Prop :=
  ∀ {root root' : Recognizer V α} {st : Setting V} {limit : Nat} {c : Course V α}
    {m : Match V α} {s : StoreId} {slot : Slot V α}, starts root → starts root' →
    root.handle.id = root'.handle.id → root.isCached = false →
    root'.handle.caching = .active s → st.IsPlain → course ρ limit st root .start = some c →
    c.ending = .ok (some m) → c.tape[0]? = some slot → slot.Allows s (some m)

/-- Handles of which none is cached while another one is not are in harmony. -/
theorem harmonious_of_isCached_eq (ρ : Targets V α) {starts : Recognizer V α → Prop}
    (h : ∀ r r', starts r → starts r' → r.handle.id = r'.handle.id → r.isCached = r'.isCached) :
    Harmonious ρ starts := by
  intro root root' st limit c m s slot hroot hroot' hid hoff hon
  have hsame := h root root' hroot hroot' hid
  rw [hoff, Recognizer.isCached, hon] at hsame
  cases hsame

/-- What a parse that matches from one handle records at an ordinal is allowed by the
slot there of a parse from another handle. -/
theorem allows_around {w : Course V α} {m : Match V α} (hending : w.ending = .ok (some m))
    {h h' : Handle} {pos : Position} (hhead : (w.around h pos).tape[0]? ≠ some .passed)
    (hmixed : ∀ s, (h.caching = .active s ∧ h'.caching.isActive = false ∨
        h.caching.isActive = false ∧ h'.caching = .active s) →
      ∀ slot, w.tape[0]? = some slot → slot.Allows s (some m))
    {s : StoreId} {n : Nat} {o : Outcome V α} {slot : Slot V α}
    (hold : (w.around h pos).tape[n]? = some (.settled s o) ∨
      (w.around h pos).tape[n]? = some .passed)
    (hslot : (w.around h' pos).tape[n]? = some slot) : slot.Allows s o := by
  rcases h.caching.active_or_inactive with ⟨s₁, hon⟩ | hoff
  · rw [Course.tape_around_of_active hon] at hold
    obtain ⟨rfl, hx⟩ : n = 0 ∧ Slot.settled s o = .settled s₁ (some m) := by
      rcases hold with hold | hold
      · exact Course.slotsThrough_getElem? hending hold
      · cases (Course.slotsThrough_getElem? hending hold).2
    cases hx
    rcases h'.caching.active_or_inactive with ⟨s₂, hon'⟩ | hoff'
    · rw [Course.tape_around_of_active hon'] at hslot
      rw [(Course.slotsThrough_getElem? hending hslot).2]
      exact fun _ => rfl
    · rw [Course.tape_around_of_inactive hoff'] at hslot
      exact hmixed s (.inl ⟨hon, hoff'⟩) slot hslot
  · rw [Course.tape_around_of_inactive hoff] at hold
    rcases h'.caching.active_or_inactive with ⟨s₂, hon'⟩ | hoff'
    · rw [Course.tape_around_of_active hon'] at hslot
      obtain ⟨rfl, rfl⟩ := Course.slotsThrough_getElem? hending hslot
      rcases hold with hold | hold
      · have hallows := hmixed s₂ (.inr ⟨hoff, hon'⟩) _ hold
        exact fun heq => (hallows heq.symm).symm
      · rw [Course.tape_around_of_inactive hoff] at hhead
        exact absurd hold hhead
    · rw [Course.tape_around_of_inactive hoff'] at hslot
      rcases hold with hold | hold
      · rw [hold] at hslot
        cases hslot
        exact fun _ => rfl
      · rw [hold] at hslot
        cases hslot
        trivial

/-! ## The regime -/

section Blind

variable {bodies : Bodies V α} {base : Grammar V α} {P B starts : Recognizer V α → Prop}

/-- The slots of parses of one input are the same where no cached recognizer reads
values. -/
theorem tape_eq (hrealm : Realm bodies base P) (hB : Closed base.target B)
    (hblind : ∀ handle shape, B (.node handle shape) → shape.Blind)
    (hcached : ∀ r, P r → r.isCached = true → B r) {limit limit' : Nat} {st st' : Setting V}
    (hinput : st.input = st'.input) {r : Recognizer V α} (hr : P r) {pos : Position}
    {c c' : Course V α} (hc : course base.target limit st r pos = some c)
    (hc' : course base.target limit' st' r pos = some c') : c.tape = c'.tape := by
  obtain ⟨d, hd, halike⟩ := course_alike hrealm.closed hrealm.steady hB hblind
    (Nat.le_refl limit) hinput (fun h : False => h.elim) hr hc
  cases course_unique hrealm.closed hrealm.steady hr hd hc'
  have heq : ∀ {slots slots' : List (Slot V α)},
      List.Forall₂ (Slot.Alike (Setting.Sure P B st st')) slots slots' → slots = slots' := by
    intro slots slots' h
    induction h with
    | nil => rfl
    | cons hslot _ ih => rw [hslot.eq fun s => .inr hcached, ih]
  exact heq halike.tape

/-- Where handles are in harmony and no cached recognizer reads values, parses keep the
outcomes in the stores due. -/
theorem Harmonious.regime (hrealm : Realm bodies base P) (hB : Closed base.target B)
    (hblind : ∀ handle shape, B (.node handle shape) → shape.Blind)
    (hcached : ∀ r, P r → r.isCached = true → B r) (hstarts : ∀ r, starts r → P r)
    (hharmony : Harmonious base.target starts) :
    Regime base.target P starts (AllDue base.target starts) where
  clear _ _ h := h.clear _
  fits hstart hplain hc hentries n slot hslot := hentries.meets hstart hplain hc hslot
  known := by
    intro root st entries s n o hstart hplain hentries ho
    obtain ⟨root', st', limit, c, hstart', hplain', hkey, hc⟩ := (hentries s _ n o ho).known
    injection hkey with hid hprint
    have hinput : st'.input = st.input := Fragments.fingerprint_inj.1 hprint
    obtain ⟨c', hc', -⟩ := course_alike hrealm.closed hrealm.steady hB hblind (Nat.le_refl limit)
      hinput (fun h : False => h.elim) (hstarts _ hstart') hc
    obtain ⟨w, -, hw⟩ := course_of_same_id_plain hrealm (hstarts _ hstart')
      (hstarts _ hstart) hid hplain
      hc'
    exact ⟨limit, _, hw⟩
  commit := by
    intro root st limit c entries entries' hstart hplain hc hmatch hentries hgains s key n o ho
    rcases hgains s key n o ho with hold | ⟨rfl, hnew⟩
    · exact hentries s key n o hold
    refine ⟨⟨root, st, limit, c, hstart, hplain, rfl, hc⟩, ?_⟩
    intro root' st' limit' c' slot hstart' hplain' hkey hc' hslot
    injection hkey with hid hprint
    have hinput : st.input = st'.input := (Fragments.fingerprint_inj.1 hprint).symm
    obtain ⟨w, rfl, hw⟩ := course_of_same_id_plain hrealm (hstarts _ hstart)
      (hstarts _ hstart') hid.symm
      hplain hc
    rw [← tape_eq hrealm hB hblind hcached hinput (hstarts _ hstart') hw hc'] at hslot
    rw [Course.around_ending] at hmatch
    obtain ⟨m, hm⟩ := Ending.exists_of_isMatch hmatch
    refine allows_around hm (course_head hc) ?_ hnew hslot
    intro s' hmixed slot hslot
    rcases hmixed with ⟨hon, hoff⟩ | ⟨hoff, hon⟩
    · rw [← Course.tape_around_of_inactive hoff .start] at hslot
      exact hharmony hstart' hstart hid hoff hon hplain hw (by rw [Course.around_ending, hm]) hslot
    · rw [← Course.tape_around_of_inactive hoff .start] at hslot
      exact hharmony hstart hstart' hid.symm hoff hon hplain hc (by rw [Course.around_ending, hm])
        hslot

end Blind

/-! ## Parses after a history -/

section Parses

variable {bodies : Bodies V α} {base g : Grammar V α} {P starts : Recognizer V α → Prop}
  {J : Entries V α → Prop} {q : Query V α}

/-- In a sound state, a parse ends as it ends without caches, under the same limit. -/
theorem Query.parse?_of_plain? (hrealm : Realm bodies base P)
    (hregime : Regime base.target P starts J)
    (hok : base.Sound J g) (hroot : P q.root) (hstarts : ∀ r, q.Starts base.target r → starts r)
    {limit : Nat} {report : Report V α} (hplain : q.plain? g limit = some report) :
    ∃ report', q.parse? g limit = some report' ∧ report'.ending = report.ending := by
  have hending := q.plain?_ending hrealm hok.later hroot limit
  rw [hplain] at hending
  obtain ⟨c, hc, hcending⟩ := Option.map_eq_some_iff.1 hending.symm
  obtain ⟨run, hrun, -⟩ := parse_follows hrealm hregime (fun _ => hstarts _ (.inl rfl)) hroot rfl
    rfl (Setting.isPlain_plain _) (fun r h => hstarts r (.inr h)) hc hok
  rw [hcending] at hrun
  exact ⟨_, q.parse?_of_run hrun, rfl⟩

/-- In a sound state, a parse that ends ends as it does without caches. -/
theorem Query.plain?_of_parse? (hrealm : Realm bodies base P)
    (hregime : Regime base.target P starts J)
    (hok : base.Sound J g) (hroot : P q.root) (hstarts : ∀ r, q.Starts base.target r → starts r)
    {limit : Nat} {report : Report V α} (hparse : q.parse? g limit = some report) :
    ∃ limit' report', q.plain? g limit' = some report' ∧ report'.ending = report.ending := by
  obtain ⟨run, hrun, -, -⟩ := Query.parse?_eq_some.1 hparse
  obtain ⟨-, m, c, hc, hcending⟩ := parse_ends hrealm hregime (fun _ => hstarts _ (.inl rfl))
    hroot rfl rfl (Setting.isPlain_plain _) (fun r h => hstarts r (.inr h)) hok hrun
  have hending := q.plain?_ending hrealm hok.later hroot m
  rw [show course base.target m q.setting q.root .start = some c from hc] at hending
  obtain ⟨report', hreport', hsame⟩ := Option.map_eq_some_iff.1 hending
  exact ⟨m, report', hreport', hsame.trans hcending.symm⟩

end Parses

namespace Grammar

/-- Whether nothing reads values that is reached from a cached recognizer. -/
def BlindBelow (g : Grammar V α) (roots : Recognizer V α → Prop) : Prop :=
  ∀ r, g.Reachable roots r → r.isCached = true →
    ∀ handle shape, g.Reachable (· = r) (.node handle shape) → shape.Blind

/-- What is reached from cached recognizers is closed and reads no values. -/
theorem BlindBelow.exists_closed {g : Grammar V α} {roots : Recognizer V α → Prop}
    (h : g.BlindBelow roots) :
    ∃ B : Recognizer V α → Prop, Closed g.target B ∧
      (∀ handle shape, B (.node handle shape) → shape.Blind) ∧
      ∀ r, g.Reachable roots r → r.isCached = true → B r := by
  refine ⟨fun x => ∃ r, g.Reachable roots r ∧ r.isCached = true ∧ g.Reachable (· = r) x,
    ⟨?_, ?_⟩, ?_, ?_⟩
  · rintro handle shape p ⟨r, hr, hcached, hx⟩ hp
    exact ⟨r, hr, hcached, .part hx hp⟩
  · rintro handle l x ⟨r, hr, hcached, hx⟩ ht
    exact ⟨r, hr, hcached, .target hx ht⟩
  · rintro handle shape ⟨r, hr, hcached, hx⟩
    exact h r hr hcached handle shape hx
  · intro r hr hcached
    exact ⟨r, hr, hcached, .root rfl⟩

/-- What a parse starts from is reached from its root. -/
theorem reachable_of_starts {g : Grammar V α} {roots : Recognizer V α → Prop} {q : Query V α}
    (hroot : roots q.root) {r : Recognizer V α} (h : q.Starts g.target r) :
    g.Reachable roots r := by
  rcases h with rfl | hnests
  · exact .root hroot
  · obtain ⟨handle, sub, hr, -⟩ := hnests.reached (closed_reachable g roots) (.root hroot)
    exact .part hr (List.mem_singleton.2 rfl)

/-- Where handles are in harmony and no cached recognizer reads values, the parses of a
history keep the outcomes in the stores due. -/
theorem Offers.sound_of_leads {g : Grammar V α} {roots : Recognizer V α → Prop}
    (hoffers : g.Offers roots) (hsteady : g.SteadyFrom roots) (hblind : g.BlindBelow roots)
    {starts : Recognizer V α → Prop} (hstarts : ∀ r, starts r → g.Reachable roots r)
    (hharmony : Harmonious g.target starts) :
    ∃ bodies, Realm bodies g (g.Reachable roots) ∧
      Regime g.target (g.Reachable roots) starts (AllDue g.target starts) ∧
      ∀ {steps : List (Step V α)} {g' : Grammar V α}, g.Leads steps g' →
        (∀ q ∈ asked steps, roots q.root ∧ ∀ r, q.Starts g.target r → starts r) →
        g.Sound (AllDue g.target starts) g' := by
  obtain ⟨bodies, hrealm⟩ := hoffers.realm hsteady
  obtain ⟨B, hB, hblind', hcached⟩ := hblind.exists_closed
  have hregime := hharmony.regime hrealm hB hblind' hcached hstarts
  refine ⟨bodies, hrealm, hregime, ?_⟩
  intro steps g' hleads hasked
  have hblank : g.Sound (AllDue g.target starts) g :=
    sound_of_blank hrealm.formed.blank fun s key n o ho => by cases ho
  exact hblank.of_leads hrealm hregime (fun entries s h => h.clear s) hleads
    fun q hq => ⟨.root (hasked q hq).1, (hasked q hq).2⟩

/-- Caches do not show.  After every history of parses and of clearing, a parse ends as
it ends with all caches ignored, if nothing at or below a cached recognizer reads values
and no two of the parses start from handles on one recognizer of which only one is
cached. -/
theorem Leads.parse?_ending {g g' : Grammar V α} {steps : List (Step V α)}
    (hleads : g.Leads steps g') {q : Query V α} {roots : Recognizer V α → Prop}
    (hoffers : g.Offers roots) (hasked : ∀ p ∈ q :: asked steps, roots p.root)
    (hsteady : g.SteadyFrom roots) (hblind : g.BlindBelow roots)
    (hmodes : ∀ p ∈ q :: asked steps, ∀ p' ∈ q :: asked steps, ∀ r r',
      p.Starts g.target r → p'.Starts g.target r' → r.handle.id = r'.handle.id →
      r.isCached = r'.isCached) :
    (∀ limit report, q.plain? g' limit = some report →
      ∃ report', q.parse? g' limit = some report' ∧ report'.ending = report.ending) ∧
    ∀ limit report, q.parse? g' limit = some report →
      ∃ limit' report', q.plain? g' limit' = some report' ∧ report'.ending = report.ending := by
  let starts : Recognizer V α → Prop := fun r => ∃ p ∈ q :: asked steps, p.Starts g.target r
  have hreached : ∀ r, starts r → g.Reachable roots r :=
    fun r ⟨p, hp, hr⟩ => reachable_of_starts (hasked p hp) hr
  have hharmony : Harmonious g.target starts := harmonious_of_isCached_eq g.target
    fun r r' ⟨p, hp, hr⟩ ⟨p', hp', hr'⟩ => hmodes p hp p' hp' r r' hr hr'
  obtain ⟨bodies, hrealm, hregime, hsound⟩ :=
    hoffers.sound_of_leads hsteady hblind hreached hharmony
  have hok := hsound hleads fun p hp =>
    ⟨hasked p (List.mem_cons_of_mem _ hp), fun r hr => ⟨p, List.mem_cons_of_mem _ hp, hr⟩⟩
  have hroot : g.Reachable roots q.root := .root (hasked q List.mem_cons_self)
  have hstarts : ∀ r, q.Starts g.target r → starts r := fun r hr => ⟨q, List.mem_cons_self, hr⟩
  exact ⟨fun _ _ h => q.parse?_of_plain? hrealm hregime hok hroot hstarts h,
    fun _ _ h => q.plain?_of_parse? hrealm hregime hok hroot hstarts h⟩

/-! ## The example -/

theorem letterAndValue_steady : letterAndValue.2.SteadyFrom (· = letterAndValue.1) := by
  intro handle shape h
  rcases letterAndValue_over (letterAndValue_reachable h) with h | h | h | h <;> cases h
  · trivial
  · exact fun _ _ _ _ => rfl
  · trivial
  · exact fun _ _ _ _ => rfl

theorem letterAndValue_blind : letterAndValue.2.BlindBelow (· = letterAndValue.1) := by
  intro r hr hcached handle shape h
  rcases letterAndValue_over (letterAndValue_reachable hr) with rfl | rfl | rfl | rfl
  · cases hcached
  · have hover := h.over fun _ _ hlink => by
      simp [Recognizer.over_node_iff, Shape.parts] at hlink
    simp only [Recognizer.over_node_iff, Shape.parts, List.not_mem_nil, false_and, exists_false,
      or_false, Recognizer.node.injEq] at hover
    obtain ⟨-, rfl⟩ := hover
    exact fun _ _ _ _ => rfl
  · cases hcached
  · cases hcached

/-- Parses of the example start from nothing that is cached. -/
theorem letterAndValue_starts {q : Query Nat Nat} (hroot : q.root = letterAndValue.1)
    {r : Recognizer Nat Nat} (h : q.Starts letterAndValue.2.target r) : r.isCached = false := by
  rcases h with rfl | hnests
  · rw [hroot]
    rfl
  · obtain ⟨handle, sub, hr, -⟩ := hnests.reached
      (closed_reachable letterAndValue.2 (· = letterAndValue.1)) (.root hroot)
    rcases letterAndValue_over (letterAndValue_reachable hr) with h | h | h | h <;> cases h

/-- After a first parse the letter is replayed, and the slot has the value of the second. -/
theorem letterAndValue_replayed : ∃ g, letterAndValue.2.Leads
      [.parse (letterBeforeSlot 1) (.ok (some (letterAndValueMatch 1)))] g ∧
    g.stores.committed 0 (letterBeforeSlot 2).key 0 = some (some ⟨.text ['a'], ⟨0, 1⟩⟩) ∧
    ∃ report, (letterBeforeSlot 2).parse? g 10 = some report ∧
      report.ending = .ok (some (letterAndValueMatch 2)) := by
  have hruns : ((letterBeforeSlot 1).parse? letterAndValue.2 10).any (fun first =>
      first.ending = .ok (some (letterAndValueMatch 1)) ∧
      first.grammar.stores.committed 0 (letterBeforeSlot 2).key 0 =
        some (some ⟨.text ['a'], ⟨0, 1⟩⟩) ∧
      ((letterBeforeSlot 2).plain? first.grammar 10).any fun plain =>
        plain.ending = .ok (some (letterAndValueMatch 2))) = true := by decide +kernel
  obtain ⟨first, hfirst, hruns⟩ := (Option.any_eq_true _ _).1 hruns
  obtain ⟨hending, hcommitted, hplain⟩ := of_decide_eq_true hruns
  obtain ⟨plain, hplain, hsame⟩ := (Option.any_eq_true _ _).1 hplain
  have hleads : letterAndValue.2.Leads
      [.parse (letterBeforeSlot 1) (.ok (some (letterAndValueMatch 1)))] first.grammar :=
    .step .refl ⟨10, first, hfirst, hending, rfl⟩
  have hroots : ∀ p ∈ letterBeforeSlot 2 ::
      asked [Step.parse (letterBeforeSlot 1) (.ok (some (letterAndValueMatch 1)))],
      p.root = letterAndValue.1 := by
    simp [asked, Step.query?, letterBeforeSlot]
  have htransparent := hleads.parse?_ending letterAndValue_offers hroots letterAndValue_steady
    letterAndValue_blind fun p hp p' hp' r r' hr hr' _ => by
      rw [letterAndValue_starts (hroots p hp) hr, letterAndValue_starts (hroots p' hp') hr']
  obtain ⟨report, hreport, h⟩ := htransparent.1 10 plain hplain
  exact ⟨first.grammar, hleads, hcommitted, report, hreport, h.trans (of_decide_eq_true hsame)⟩

end Grammar

end SlotGrammar
