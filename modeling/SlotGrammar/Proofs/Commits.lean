import SlotGrammar.Proofs.Transparency
import SlotGrammar.Proofs.Alignment

/-!
# What a match commits

A parse that matches with caching leaves one outcome for each call through a store that
is not inside another cached call, counted in the order of the calls of a run without
caching, and in the store of that call.  Nothing else lies under its trace then, and
other traces are left alone.

Main results:

- Theorem `AllMatched.slot`: what lies in the stores is at the slots of a parse.
- Theorem `Query.parse?_tells`: the log of a run without caching tells its course.
- Theorem `Leads.committed_iff`: what lies under the trace of a match.
-/

namespace SlotGrammar

variable {V α : Type}

/-! ## Outcomes of matches -/

/-- Whether all outcomes in the stores are at the slots of parses that match. -/
def AllMatched (ρ : Targets V α) (starts : Recognizer V α → Prop) (entries : Entries V α) : Prop :=
  ∀ s key n o, entries s key n = some o → ∃ root st limit c, starts root ∧ st.IsPlain ∧
    traceKey root st.input = key ∧ course ρ limit st root .start = some c ∧
    c.ending.isMatch = true ∧ c.tape[n]? = some (.settled s o)

/-- Clearing a store leaves the outcomes of matches. -/
theorem AllMatched.clear {ρ : Targets V α} {starts : Recognizer V α → Prop} {entries : Entries V α}
    (h : AllMatched ρ starts entries) (s : StoreId) :
    AllMatched ρ starts fun s' key n => if s' = s then none else entries s' key n := by
  intro s' key n o ho
  by_cases hs : s' = s
  · simp [hs] at ho
  · exact h s' key n o (by simpa [hs] using ho)

section Blind

variable {bodies : Bodies V α} {base : Grammar V α} {P B starts : Recognizer V α → Prop}
  {entries : Entries V α}

/-- Handles that are the same are on the same recognizer. -/
theorem Realm.eq_of_handle (hrealm : Realm bodies base P) {r r' : Recognizer V α} (hr : P r)
    (hr' : P r') (h : r.handle = r'.handle) : r = r' := by
  have hsame : r' = r.withHandle r'.handle :=
    ((hrealm.sound r hr).1 r .refl).eq_withHandle ((hrealm.sound r' hr').1 r' .refl) (by rw [h])
  rw [hsame, ← h]
  cases r <;> rfl

/-- What lies in the stores under a trace is at the slots of every parse with the trace,
if each root is parsed through one handle and no cached recognizer reads values. -/
theorem AllMatched.slot (h : AllMatched base.target starts entries) (hrealm : Realm bodies base P)
    (hB : Closed base.target B) (hblind : ∀ handle shape, B (.node handle shape) → shape.Blind)
    (hcached : ∀ r, P r → r.isCached = true → B r) (hstarts : ∀ r, starts r → P r)
    (hone : ∀ r r', starts r → starts r' → r.handle.id = r'.handle.id → r.handle = r'.handle)
    {root : Recognizer V α} (hstart : starts root) {st : Setting V} {limit : Nat} {c : Course V α}
    (hc : course base.target limit st root .start = some c) {s : StoreId} {n : Nat}
    {o : Outcome V α} (ho : entries s (traceKey root st.input) n = some o) :
    c.ending.isMatch = true ∧ c.tape[n]? = some (.settled s o) := by
  obtain ⟨root', st', limit', c', hstart', -, hkey, hc', hmatch, hslot⟩ := h s _ n o ho
  injection hkey with hid hprint
  have hsame : root' = root :=
    hrealm.eq_of_handle (hstarts _ hstart') (hstarts _ hstart) (hone _ _ hstart' hstart hid)
  subst hsame
  have hinput : st'.input = st.input := Fragments.fingerprint_inj.1 hprint
  obtain ⟨d, hd, halike⟩ := course_alike hrealm.closed hrealm.steady hB hblind
    (Nat.le_refl limit') hinput (fun h : False => h.elim) (hstarts _ hstart) hc'
  cases course_unique hrealm.closed hrealm.steady (hstarts _ hstart) hd hc
  refine ⟨?_, ?_⟩
  · rw [← halike.ending.isMatch_eq, hmatch]
  · rw [← tape_eq hrealm hB hblind hcached hinput (hstarts _ hstart) hc' hc, hslot]

/-- Where each root is parsed through one handle and no cached recognizer reads values,
parses keep the outcomes in the stores those of matches. -/
theorem AllMatched.regime (hrealm : Realm bodies base P)
    (horderly : ∀ handle shape, P (.node handle shape) → shape.Orderly)
    (hB : Closed base.target B) (hblind : ∀ handle shape, B (.node handle shape) → shape.Blind)
    (hcached : ∀ r, P r → r.isCached = true → B r) (hstarts : ∀ r, starts r → P r)
    (hone : ∀ r r', starts r → starts r' → r.handle.id = r'.handle.id → r.handle = r'.handle) :
    Regime base.target P starts (AllMatched base.target starts) where
  clear _ _ h := h.clear _
  fits := by
    intro root st limit c entries hstart hplain hc hentries n slot hslot
    have hat : ∀ s o, entries s (traceKey root st.input) n = some o → slot = .settled s o := by
      intro s o ho
      have hfound := (hentries.slot hrealm hB hblind hcached hstarts hone hstart hc ho).2
      rw [hslot] at hfound
      exact Option.some.inj hfound
    cases slot with
    | settled s o =>
      refine ⟨?_, fun _ => hplain s⟩
      intro o' ho'
      cases hat s o' ho'
      rfl
    | raised s =>
      refine ⟨?_, hplain s⟩
      rw [Option.eq_none_iff_forall_ne_some]
      intro o ho
      cases hat s o ho
    | passed => trivial
  commit := by
    intro root st limit c entries entries' hstart hplain hc hmatch hentries hgains s key n o ho
    rcases hgains s key n o ho with hold | ⟨rfl, hslot | hpassed⟩
    · exact hentries s key n o hold
    · exact ⟨root, st, limit, c, hstart, hplain, rfl, hc, hmatch, hslot⟩
    · obtain ⟨m, hm⟩ := Ending.exists_of_isMatch hmatch
      exact (settled_of_tape hrealm.closed (fun handle p h => horderly _ _ h)
        (hstarts _ hstart) hc hm
        _ (List.mem_of_getElem? hpassed)).elim
  known := by
    intro root st entries s n o hstart hplain hentries ho
    obtain ⟨root', st', limit, c, hstart', -, hkey, hc, -⟩ := hentries s _ n o ho
    injection hkey with hid hprint
    have hsame : root' = root :=
      hrealm.eq_of_handle (hstarts _ hstart') (hstarts _ hstart) (hone _ _ hstart' hstart hid)
    subst hsame
    obtain ⟨c', hc', -⟩ := course_alike hrealm.closed hrealm.steady hB hblind (Nat.le_refl limit)
      (Fragments.fingerprint_inj.1 hprint) (fun h : False => h.elim) (hstarts _ hstart) hc
    exact ⟨limit, c', hc'⟩

end Blind

/-! ## Runs without caching -/

/-- The same parse without caching. -/
def Query.uncached (q : Query V α) : Query V α := { q with options := q.options.withCache false }

section Parses

variable {bodies : Bodies V α} {base g : Grammar V α} {P : Recognizer V α → Prop} {q : Query V α}

/-- The log of a run without caching tells what its course tells. -/
theorem Query.parse?_tells (hrealm : Realm bodies base P)
    (horderly : ∀ handle shape, P (.node handle shape) → shape.Orderly)
    (hok : base.Sound (fun _ => True) g) (hcache : q.options.cache = false) (hroot : P q.root)
    {limit : Nat} {c : Course V α}
    (hc : course base.target limit q.setting q.root .start = some c) :
    ∃ report, q.parse? g limit = some report ∧ report.ending = c.ending ∧
      Event.Tells report.events none c.track := by
  have hact := exec_follows hrealm (regime_of_orderly horderly fun _ => True)
    (fun (_ : True) handle sub p hp => horderly _ _ hp) rfl (hrealm.keeps_root hroot rfl) hroot
    (fun r hr => not_nests_of_orderly hrealm horderly hroot hr) hc
  have hnone : (Run.opened q.context q.root { grammar := g }).session = none := by
    unfold Run.opened
    rw [if_neg (by rw [show q.context.options.cache = false from hcache]; exact Bool.false_ne_true)]
  have hfits : Fits (fun _ => True) q.setting (Run.opened q.context q.root { grammar := g }).session
      c.tape := by
    rw [hnone]
    exact quiet_none.fits (Setting.isPlain_plain _) _
  obtain ⟨mid, hmid, -, hmoves⟩ := inSession_follows hok hact hfits
  obtain ⟨events, hlog, htells⟩ := hmoves.log
  rw [Run.ordinal?, hnone] at htells
  rw [log_opened, List.append_nil] at hlog
  refine ⟨_, q.parse?_of_run hmid, rfl, ?_⟩
  show Event.Tells (mid.closed none c.ending).log.reverse none c.track
  rw [log_closed, hlog, List.reverse_reverse]
  exact htells trivial

/-- The log of a whole run tells of the calls of its marks. -/
theorem Event.Tells.cachedCalls_eq {events : List (Event V α)} {ordinal : Option Nat}
    {marks : List (Mark V α)} (h : Event.Tells events ordinal marks) :
    Event.cachedCalls 0 events = callsOf marks := by
  have houter := h.outerCalls []
  rw [List.append_nil] at houter
  rw [houter]
  exact List.append_nil _

/-- Where all calls come to an outcome, they stand where their slots stand. -/
theorem calls_getElem? {slots : List (Slot V α)} (h : ∀ slot ∈ slots, slot.IsSettled) (n : Nat)
    (s : StoreId) (o : Outcome V α) :
    (slots.filterMap Slot.call?)[n]? = some (s, some o) ↔ slots[n]? = some (.settled s o) := by
  induction slots generalizing n with
  | nil => simp
  | cons slot slots ih =>
    have hslot := h slot List.mem_cons_self
    cases slot with
    | settled s' o' =>
      cases n with
      | zero => simp [Slot.call?]
      | succ n => exact ih (fun slot hmem => h slot (List.mem_cons_of_mem _ hmem)) n
    | raised s' => exact hslot.elim
    | passed => exact hslot.elim

theorem calls_isSome {slots : List (Slot V α)} (h : ∀ slot ∈ slots, slot.IsSettled) :
    ∀ call ∈ slots.filterMap Slot.call?, call.2.isSome = true := by
  intro call hcall
  obtain ⟨slot, hmem, hslot⟩ := List.mem_filterMap.1 hcall
  have hsettled := h slot hmem
  cases slot with
  | settled s o =>
    cases hslot
    rfl
  | raised s => exact hsettled.elim
  | passed => exact hsettled.elim

/-- After a match with caching the slots of its course lie under its trace, and nothing
else; other traces are left alone. -/
theorem AllMatched.committed_iff {B starts : Recognizer V α → Prop}
    (hrealm : Realm bodies base P)
    (horderly : ∀ handle shape, P (.node handle shape) → shape.Orderly)
    (hB : Closed base.target B) (hblind : ∀ handle shape, B (.node handle shape) → shape.Blind)
    (hcached : ∀ r, P r → r.isCached = true → B r) (hstarts : ∀ r, starts r → P r)
    (hone : ∀ r r', starts r → starts r' → r.handle.id = r'.handle.id → r.handle = r'.handle)
    (hok : base.Sound (AllMatched base.target starts) g) (hstart : starts q.root)
    (hcache : q.options.cache = true) {limit : Nat} {report : Report V α}
    (hreport : q.parse? g limit = some report) (hmatch : report.ending.isMatch = true) :
    ∃ m c, course base.target m q.setting q.root .start = some c ∧ report.ending = c.ending ∧
      (∀ s n o, report.grammar.stores.committed s q.key n = some o ↔
        c.tape[n]? = some (.settled s o)) ∧
      ∀ s key n, key ≠ q.key →
        report.grammar.stores.committed s key n = g.stores.committed s key n := by
  have hregime := AllMatched.regime hrealm horderly hB hblind hcached hstarts hone
  have hP := hstarts _ hstart
  have hnests : ∀ r, ¬ Nests base.target q.setting q.root .start r :=
    fun r hr => not_nests_of_orderly hrealm horderly hP hr
  have hplain : q.setting.IsPlain := Setting.isPlain_plain _
  obtain ⟨run, hrun, -⟩ := Query.parse?_eq_some.1 hreport
  obtain ⟨-, m, c, hc, hending⟩ := parse_ends hrealm hregime (fun _ => hstart) hP rfl rfl hplain
    (fun r hr => (hnests r hr).elim) hok hrun
  have hmax := course_mono hrealm.closed hrealm.steady (Nat.le_max_right limit m) hP hc
  have hslots : ∀ {s n o}, g.stores.committed s q.key n = some o →
      c.tape[n]? = some (.settled s o) :=
    fun ho => (AllMatched.slot hok.allowed hrealm hB hblind hcached hstarts hone hstart hc ho).2
  -- the same parse, from the very state that it was made in
  obtain ⟨report', hreport', hleaves⟩ := q.parse?_leaves hrealm
    (regime_of_orderly horderly (· = g.stores.committed)) (fun h : False => h.elim) hcache hP rfl
    (fun r hr => (hnests r hr).elim) hmax
    (by
      rintro entries rfl n slot hslot
      exact hregime.fits hstart hplain hc hok.allowed n slot hslot)
    (hok.of_allowed rfl)
  have hsame := q.parse?_mono (Nat.le_max_left limit m) hreport
  rw [hreport'] at hsame
  cases hsame
  refine ⟨m, c, hc, hending, ?_⟩
  rw [hending] at hmatch
  obtain ⟨x, hx⟩ := Ending.exists_of_isMatch hmatch
  have hsettled := settled_of_tape hrealm.closed (fun handle p h => horderly _ _ h) hP hc hx
  obtain ⟨entries, pending, rfl, hpends, hcommitted⟩ := hleaves.matched hmatch
  refine ⟨?_, ?_⟩
  · intro s n o
    rw [hcommitted, if_pos rfl]
    constructor
    · intro ho
      rcases Option.or_eq_some_iff.1 ho with hpending | ⟨-, hfound⟩
      · exact hpends.slot_eq hsettled hpending
      · exact hslots hfound
    · exact hpends.committed_eq hsettled
  · intro s key n hkey
    rw [hcommitted, if_neg hkey]

end Parses

namespace Grammar

/-- After a match with caching the slots of its course lie under its trace, and nothing else;
other traces are left alone.  What lies in the stores is sound before and after. -/
theorem Leads.committed_iff {bodies : Bodies V α} {g g' : Grammar V α} {steps : List (Step V α)}
    (hleads : g.Leads steps g') {q : Query V α} {roots : Recognizer V α → Prop}
    (hrealm : Realm bodies g (g.Reachable roots)) (hasked : ∀ p ∈ q :: asked steps, roots p.root)
    (horderly : g.OrderlyFrom roots) (hblind : g.BlindBelow roots)
    (hone : ∀ p ∈ q :: asked steps, ∀ p' ∈ q :: asked steps,
      p.root.handle.id = p'.root.handle.id → p.root.handle = p'.root.handle)
    (hcache : q.options.cache = true) {limit : Nat} {report : Report V α}
    (hreport : q.parse? g' limit = some report) (hmatch : report.ending.isMatch = true) :
    g.Sound (fun _ => True) report.grammar ∧
    ∃ m c, course g.target m q.setting q.root .start = some c ∧ report.ending = c.ending ∧
      (∀ slot ∈ c.tape, slot.IsSettled) ∧
      (∀ s n o, report.grammar.stores.committed s q.key n = some o ↔
        c.tape[n]? = some (.settled s o)) ∧
      ∀ s key n, key ≠ q.key →
        report.grammar.stores.committed s key n = g'.stores.committed s key n := by
  obtain ⟨B, hB, hblind', hcached⟩ := hblind.exists_closed
  have hstarted := reachable_of_isRootOf (g := g) hasked
  have hone' : ∀ r r', IsRootOf (q :: asked steps) r → IsRootOf (q :: asked steps) r' →
      r.handle.id = r'.handle.id → r.handle = r'.handle := forall_isRootOf hone
  have hregime := AllMatched.regime hrealm horderly hB hblind' hcached hstarted hone'
  have hblank : g.Sound (AllMatched g.target (IsRootOf (q :: asked steps))) g :=
    sound_of_blank hrealm.formed.blank fun s key n o ho => by cases ho
  have hsound : ∀ {steps' : List (Step V α)} {g'' : Grammar V α}, g.Leads steps' g'' →
      (∀ p ∈ asked steps', p ∈ q :: asked steps) →
      g.Sound (AllMatched g.target (IsRootOf (q :: asked steps))) g'' := by
    intro steps' g'' hleads' hsub
    refine hblank.of_leads hrealm hregime (fun entries s h => h.clear s) hleads' ?_
    intro p hp
    refine ⟨.root (hasked p (hsub p hp)), ?_⟩
    rintro r (rfl | hnests)
    · exact ⟨p, hsub p hp, rfl⟩
    · exact (not_nests_of_orderly hrealm horderly (.root (hasked p (hsub p hp))) hnests).elim
  have hlast : g.Leads (steps ++ [.parse q report.ending]) report.grammar :=
    hleads.step ⟨limit, report, hreport, rfl, rfl⟩
  refine ⟨(hsound hlast ?_).of_allowed trivial, ?_⟩
  · intro p hp
    have hparse : asked [Step.parse q report.ending] = [q] := rfl
    rw [asked_append, hparse] at hp
    rcases List.mem_append.1 hp with hp | hp
    · exact List.mem_cons_of_mem _ hp
    · rw [List.mem_singleton.1 hp]
      exact List.mem_cons_self
  · obtain ⟨m, c, hc, hending, hslots, hothers⟩ := AllMatched.committed_iff hrealm horderly hB
      hblind' hcached hstarted hone' (hsound hleads fun p hp => List.mem_cons_of_mem _ hp)
      ⟨q, List.mem_cons_self, rfl⟩ hcache hreport hmatch
    obtain ⟨x, hx⟩ := Ending.exists_of_isMatch (hending ▸ hmatch)
    have hsettled := settled_of_tape hrealm.closed (fun _ _ h => horderly _ _ h)
      (hstarted _ ⟨q, List.mem_cons_self, rfl⟩) hc hx
    exact ⟨m, c, hc, hending, hsettled, hslots, hothers⟩

end Grammar

end SlotGrammar
