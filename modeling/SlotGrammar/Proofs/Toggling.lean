import SlotGrammar.Proofs.Transparency

/-!
# Toggled handles

A trace goes by the identity of the recognizer that a parse starts from, and handles on
one recognizer share it.  But a handle with a cache takes the first ordinal of a parse
itself, which a parse from a handle without one leaves to its first call below.  Parses
from both may meet in one store, and do no harm exactly when the two handles are in
harmony: whenever a parse from the handle without a cache matches and its first ordinal
goes to a call through the store of the other handle, that call comes to the whole match.

Main results:

- Theorem `Query.parse?_of_committed`: a handle with a cache replays what it finds.
- Theorem `Offers.toggling`: toggled handles do no harm exactly when they are in harmony.
-/

namespace SlotGrammar

variable {V α : Type}

/-! ## Parses from some handles -/

/-- Whether a step is a parse with caching that starts from one of some recognizers. -/
def Step.IsCachedFrom (roots : Recognizer V α → Prop) : Step V α → Prop
  | parse q _ => q.options.cache = true ∧ roots q.root
  | clear _ => False

namespace Grammar

/-- Whether, after any parses with caching from some recognizers, another one ends as it
ends with all caches ignored. -/
def ParsesPlainly (g : Grammar V α) (roots : Recognizer V α → Prop) : Prop :=
  ∀ {steps : List (Step V α)} {g' : Grammar V α}, g.Leads steps g' →
    (∀ step ∈ steps, step.IsCachedFrom roots) → ∀ {q : Query V α}, q.options.cache = true →
    roots q.root → ∀ {limit : Nat} {report : Report V α}, q.plain? g' limit = some report →
    ∃ report', q.parse? g' limit = some report' ∧ report'.ending = report.ending

/-- Whether, after any parses with caching from some recognizers, what another one would
replay for a call is the outcome of that call. -/
def ReplaysOwn (g : Grammar V α) (roots : Recognizer V α → Prop) : Prop :=
  ∀ {steps : List (Step V α)} {g' : Grammar V α}, g.Leads steps g' →
    (∀ step ∈ steps, step.IsCachedFrom roots) → ∀ {q : Query V α}, q.options.cache = true →
    roots q.root → ∀ {limit : Nat} {c : Course V α},
    course g.target limit q.setting q.root .start = some c →
    ∀ {n : Nat} {slot : Slot V α}, c.tape[n]? = some slot →
    ∀ {s : StoreId} {o : Outcome V α}, g'.stores.committed s q.key n = some o → slot.Allows s o

/-- The recognizers that parses from some roots, and parses inside them, start from. -/
def Started (g : Grammar V α) (roots : Recognizer V α → Prop) (r : Recognizer V α) : Prop :=
  ∃ q : Query V α, roots q.root ∧ q.Starts g.target r

end Grammar

/-! ## What a handle with a cache replays -/

/-- A parse from a handle with a cache ends with what lies at the first ordinal of its
trace. -/
theorem Query.parse?_of_committed {q : Query V α} {g : Grammar V α} {s : StoreId}
    {o : Outcome V α} (hcache : q.options.cache = true)
    (hactive : q.root.handle.caching = .active s)
    (hfound : g.stores.committed s q.key 0 = some o) (limit : Nat) :
    ∃ report, q.parse? g (limit + 1) = some report ∧ report.ending = .ok o := by
  let start := Run.opened q.context q.root { grammar := g }
  let called := start.noted (.called q.root.handle .start start.ordinal?)
  have hses : called.session = some { id := g.nextSession, key := q.key } :=
    session_opened hcache q.root { grammar := g }
  have hreplay : Act.replay? called s { id := g.nextSession, key := q.key } = some o := by
    have hstores : called.grammar.stores = g.stores :=
      stores_opened q.context q.root { grammar := g }
    show (called.grammar.stores[s]?).bind _ = _
    rw [hstores]
    exact hfound
  have hrun : exec (limit + 1) q.context q.root .start start =
      some (.ok o, (called.withSession (some
        (Session.reserve { id := g.nextSession, key := q.key }))).noted
          (.replied q.root.handle .start (some 1) (.ok o))) := by
    rw [exec_succ, Recognizer.attempt_eq, hactive, Act.through,
      Act.throughStore_of_replay hses hreplay]
    rfl
  have hparse := Act.inSession_eq q.context q.root (exec (limit + 1) q.context q.root .start)
    { grammar := g }
  rw [hrun, Option.map_some] at hparse
  exact ⟨_, q.parse?_of_run hparse, rfl⟩

/-! ## First parses -/

section First

variable {bodies : Bodies V α} {g : Grammar V α} {P : Recognizer V α → Prop}

/-- The first matching parse with caching leaves the outcomes of its slots. -/
theorem Query.parse?_of_blank (hrealm : Realm bodies g P)
    (hnested : ∀ handle sub p, P (.node handle (.nested sub p)) → sub.options.cache = false)
    {q : Query V α}
    (hcache : q.options.cache = true) (hroot : P q.root) {limit : Nat} {c : Course V α}
    (hc : course g.target limit q.setting q.root .start = some c)
    (hmatch : c.ending.isMatch = true) :
    ∃ report, q.parse? g limit = some report ∧ report.ending = c.ending ∧ g.Later report.grammar ∧
      ∀ n s o, c.tape[n]? = some (.settled s o) →
        report.grammar.stores.committed s q.key n = some o := by
  let J : Entries V α → Prop := fun entries => ∀ s key n, entries s key n = none
  have hregime : Regime g.target P (fun _ => False) J :=
    .of_no_start fun _ _ hnone s' key n => by
      simp [hnone s' key n]
  have hok : g.Sound J g := sound_of_blank hrealm.formed.blank fun _ _ _ => rfl
  have hnests : ∀ r, Nests g.target q.setting q.root .start r → False := by
    intro r h
    obtain ⟨handle, sub, hr, hcache⟩ := h.reached hrealm.closed hroot
    rw [hnested handle sub r hr] at hcache
    cases hcache
  have hmeets : ∀ entries, J entries → ∀ (n : Nat) (slot : Slot V α), c.tape[n]? = some slot →
      slot.Meets q.setting fun s => entries s q.key n := by
    intro entries hentries n slot _
    have hnone : (fun s => entries s q.key n) = fun _ => none := funext fun s => hentries s q.key n
    rw [hnone]
    cases slot with
    | settled s o =>
      refine ⟨?_, fun _ => rfl⟩
      intro o' ho'
      have ho' : (none : Option (Outcome V α)) = some o' := ho'
      cases ho'
    | raised s => exact ⟨rfl, rfl⟩
    | passed => trivial
  obtain ⟨report, hreport, hleaves⟩ := q.parse?_leaves hrealm hregime (fun h : False => h.elim)
    hcache hroot rfl hnests hc hmeets hok
  have hlater : Sound g (fun _ => True) { grammar := report.grammar } := hleaves.sound trivial
  refine ⟨report, hreport, hleaves.ending, hlater.later, ?_⟩
  obtain ⟨entries, pending, hentries, hpends, hcommitted⟩ := hleaves.matched hmatch
  intro n s o hslot
  have hfound : pending s n = some o := by
    rcases hpends.settled n s o hslot with hpending | ⟨old, hold, hevident⟩
    · exact hpending
    · rw [hold] at hevident
      cases hevident
  rw [hcommitted, if_pos rfl, hfound]
  rfl

end First

/-! ## Harm and harmony -/

/-- The parse with caching that runs in a setting. -/
def Setting.query (st : Setting V) (root : Recognizer V α) : Query V α :=
  ⟨root, st.input, st.values, ⟨true, st.window⟩⟩

theorem Setting.IsPlain.setting_query {st : Setting V} (h : st.IsPlain) (root : Recognizer V α) :
    (st.query root).setting = st :=
  h.plain_eq

namespace Grammar

variable {g : Grammar V α} {roots : Recognizer V α → Prop}

/-- Without parses with caching inside parses, all start from the roots. -/
theorem started_iff
    (hnested : ∀ handle sub p, g.Reachable roots (.node handle (.nested sub p)) →
      sub.options.cache = false)
    (r : Recognizer V α) : g.Started roots r ↔ roots r := by
  constructor
  · rintro ⟨q, hroot, rfl | hnests⟩
    · exact hroot
    · obtain ⟨handle, sub, hr, hcache⟩ := hnests.reached (closed_reachable g roots) (.root hroot)
      rw [hnested handle sub r hr] at hcache
      cases hcache
  · intro hr
    exact ⟨⟨r, ⟨[]⟩, [], .standard⟩, hr, .inl rfl⟩

/-- Handles in harmony do no harm. -/
theorem Offers.parsesPlainly (hoffers : g.Offers roots) (hsteady : g.SteadyFrom roots)
    (hblind : g.BlindBelow roots) (hharmony : Harmonious g.target (g.Started roots)) :
    g.ParsesPlainly roots ∧ g.ReplaysOwn roots := by
  have hreached : ∀ r, g.Started roots r → g.Reachable roots r :=
    fun r ⟨_, hroot, hr⟩ => reachable_of_starts hroot hr
  obtain ⟨bodies, hrealm, hregime, hsound⟩ :=
    hoffers.sound_of_leads hsteady hblind hreached hharmony
  have hasked : ∀ {steps : List (Step V α)}, (∀ step ∈ steps, step.IsCachedFrom roots) →
      ∀ q ∈ asked steps, roots q.root ∧ ∀ r, q.Starts g.target r → g.Started roots r := by
    intro steps hsteps q hq
    obtain ⟨step, hstep, hq⟩ := List.mem_filterMap.1 hq
    have hcached := hsteps step hstep
    cases step with
    | clear t => cases hq
    | parse p ending =>
      cases hq
      exact ⟨hcached.2, fun r hr => ⟨q, hcached.2, hr⟩⟩
  refine ⟨?_, ?_⟩
  · intro steps g' hleads hsteps q _ hroot limit report hplain
    exact q.parse?_of_plain? hrealm hregime (hsound hleads (hasked hsteps)) (.root hroot)
      (fun r hr => ⟨q, hroot, hr⟩) hplain
  · intro steps g' hleads hsteps q _ hroot limit c hc n slot hslot s o ho
    have hdue := (hsound hleads (hasked hsteps)).allowed s q.key n o ho
    exact hdue.allowed ⟨q, hroot, .inl rfl⟩ (Setting.isPlain_plain _) rfl hc hslot

section Clash

variable {bodies : Bodies V α} {root root' : Recognizer V α} {st : Setting V} {limit : Nat}
  {c : Course V α} {m : Match V α} {s : StoreId}

/-- Where a parse matches from a handle without a cache, it matches from a handle on the
same recognizer with one, and its only slot is the whole match. -/
theorem course_of_toggled (hrealm : Realm bodies g (g.Reachable roots)) (hroot : roots root)
    (hroot' : roots root') (hid : root.handle.id = root'.handle.id)
    (hon : root'.handle.caching = .active s) (hplain : st.IsPlain)
    (hc : course g.target limit st root .start = some c) (hm : c.ending = .ok (some m)) :
    ∃ c', course g.target limit st root' .start = some c' ∧ c'.ending = .ok (some m) ∧
      c'.tape = [.settled s (some m)] := by
  obtain ⟨w, rfl, hw⟩ := course_of_same_id_plain hrealm (.root hroot) (.root hroot') hid hplain hc
  rw [Course.around_ending] at hm
  refine ⟨_, hw, by rw [Course.around_ending, hm], ?_⟩
  rw [Course.tape_around_of_active hon, Course.slotsThrough, hm]

/-- A first matching parse leads to a state in which the outcomes of its slots lie. -/
theorem leads_of_blank (hrealm : Realm bodies g (g.Reachable roots))
    (hnested : ∀ handle sub p, g.Reachable roots (.node handle (.nested sub p)) →
      sub.options.cache = false)
    (hroot : roots root) (hplain : st.IsPlain)
    (hc : course g.target limit st root .start = some c) (hm : c.ending = .ok (some m)) :
    ∃ steps g', g.Leads steps g' ∧ (∀ step ∈ steps, step.IsCachedFrom roots) ∧ g.Later g' ∧
      ∀ n s o, c.tape[n]? = some (.settled s o) →
        g'.stores.committed s (traceKey root st.input) n = some o := by
  rw [← hplain.setting_query root] at hc
  obtain ⟨report, hreport, -, hlater, hcommitted⟩ :=
    (st.query root).parse?_of_blank hrealm hnested rfl (.root hroot) hc (by rw [hm]; rfl)
  refine ⟨[.parse (st.query root) report.ending], report.grammar,
    .step .refl ⟨limit, report, hreport, rfl, rfl⟩, ?_, hlater, hcommitted⟩
  intro step hstep
  rw [List.mem_singleton.1 hstep]
  exact ⟨rfl, hroot⟩

end Clash

/-- Handles that replay no outcome of another call are in harmony. -/
theorem Offers.harmonious_of_replaysOwn (hoffers : g.Offers roots) (hsteady : g.SteadyFrom roots)
    (hnested : ∀ handle sub p, g.Reachable roots (.node handle (.nested sub p)) →
      sub.options.cache = false)
    (hown : g.ReplaysOwn roots) : Harmonious g.target (g.Started roots) := by
  obtain ⟨bodies, hrealm⟩ := hoffers.realm hsteady
  intro root root' st limit c m s slot hroot hroot' hid hoff hon hplain hc hm hslot
  rw [started_iff hnested] at hroot hroot'
  obtain ⟨c', hc', hm', htape'⟩ := course_of_toggled hrealm hroot hroot' hid hon hplain hc hm
  have hkey : traceKey root st.input = traceKey root' st.input := by rw [traceKey, traceKey, hid]
  have hslot' : c'.tape[0]? = some (.settled s (some m)) := by
    rw [htape']
    rfl
  cases slot with
  | settled s' o =>
    rintro rfl
    -- first a parse without a cache at the root, then one with it
    obtain ⟨steps, g', hleads, hsteps, -, hcommitted⟩ :=
      leads_of_blank hrealm hnested hroot hplain hc hm
    have hfound := hcommitted 0 s' o hslot
    rw [hkey] at hfound
    rw [← hplain.setting_query root'] at hc'
    exact (hown hleads hsteps (q := st.query root') rfl hroot' hc' hslot' hfound rfl).symm
  | raised s' =>
    -- the other way round
    obtain ⟨steps, g', hleads, hsteps, -, hcommitted⟩ :=
      leads_of_blank hrealm hnested hroot' hplain hc' hm'
    have hfound := hcommitted 0 s (some m) hslot'
    rw [← hkey] at hfound
    rw [← hplain.setting_query root] at hc
    exact hown hleads hsteps (q := st.query root) rfl hroot hc hslot hfound
  | passed => trivial

/-- Handles from which parses end as if there were no caches are in harmony, where no
recognizer catches errors. -/
theorem Offers.harmonious_of_parsesPlainly (hoffers : g.Offers roots) (hsteady : g.SteadyFrom roots)
    (hnested : ∀ handle sub p, g.Reachable roots (.node handle (.nested sub p)) →
      sub.options.cache = false)
    (hcatching : ∀ handle p, ¬ g.Reachable roots (.node handle (.catching p)))
    (hplainly : g.ParsesPlainly roots) : Harmonious g.target (g.Started roots) := by
  obtain ⟨bodies, hrealm⟩ := hoffers.realm hsteady
  intro root root' st limit c m s slot hroot hroot' hid hoff hon hplain hc hm hslot
  rw [started_iff hnested] at hroot hroot'
  obtain ⟨c', hc', hm', -⟩ := course_of_toggled hrealm hroot hroot' hid hon hplain hc hm
  have hsettled := settled_of_tape hrealm.closed hcatching (.root hroot) hc hm slot
    (List.mem_of_getElem? hslot)
  cases slot with
  | settled s' o =>
    rintro rfl
    obtain ⟨steps, g', hleads, hsteps, hlater, hcommitted⟩ :=
      leads_of_blank hrealm hnested hroot hplain hc hm
    have hfound := hcommitted 0 s' o hslot
    rw [show traceKey root st.input = (st.query root').key by
      show traceKey root st.input = traceKey root' st.input
      rw [traceKey, traceKey, hid]] at hfound
    -- the second parse ends as it does without caches, and replays what it finds
    obtain ⟨limit, rfl⟩ : ∃ k, limit = k + 1 := by
      cases limit with
      | zero => cases hc
      | succ k => exact ⟨k, rfl⟩
    have hending := (st.query root').plain?_ending hrealm hlater (.root hroot') (limit + 1)
    rw [hplain.setting_query root', show course g.target (limit + 1) st
        (st.query root').root .start =
      some c' from hc'] at hending
    obtain ⟨plain, hplain?, hsame⟩ := Option.map_eq_some_iff.1 hending
    obtain ⟨report, hreport, hending⟩ :=
      hplainly hleads hsteps (q := st.query root') rfl hroot' hplain?
    obtain ⟨report', hreport', hending'⟩ :=
      (st.query root').parse?_of_committed rfl hon hfound limit
    rw [hreport'] at hreport
    cases hreport
    rw [hending', hsame, hm'] at hending
    cases hending
    rfl
  | raised s' => exact hsettled.elim
  | passed => trivial

/-- Toggled handles do no harm exactly when they are in harmony.  In harmony every parse
with caching ends as if there were no caches, and no outcome is replayed for another
call.  Without harmony some outcome is, unless parses with caching run inside parses, and
some parse ends wrongly if errors are not caught either. -/
theorem Offers.toggling (hoffers : g.Offers roots) (hsteady : g.SteadyFrom roots)
    (hblind : g.BlindBelow roots) :
    (Harmonious g.target (g.Started roots) → g.ParsesPlainly roots ∧ g.ReplaysOwn roots) ∧
    ((∀ handle sub p, g.Reachable roots (.node handle (.nested sub p)) →
        sub.options.cache = false) →
      (g.ReplaysOwn roots → Harmonious g.target (g.Started roots)) ∧
      ((∀ handle p, ¬ g.Reachable roots (.node handle (.catching p))) →
        g.ParsesPlainly roots → Harmonious g.target (g.Started roots))) := by
  refine ⟨hoffers.parsesPlainly hsteady hblind, fun hnested => ⟨?_, ?_⟩⟩
  · exact hoffers.harmonious_of_replaysOwn hsteady hnested
  · exact hoffers.harmonious_of_parsesPlainly hsteady hnested

/-! ## An example -/

/-- A letter before what a cached handle on the same recognizer matches, or another
letter. -/
def nest : Recognizer Nat Nat × Grammar Nat Nat :=
  Grammar.add {} "nest"
    (.choice [.sequence [.literal ['a'], .deferred "inner" (.ref "cached")], .literal ['b']])

/-- The handle with a cache. -/
def cachedNest : Recognizer Nat Nat × Grammar Nat Nat :=
  nest.2.add "cached" (.cached true (.ref "nest"))

/-- The two letters, parsed from a handle. -/
def twoLetters (root : Recognizer Nat Nat) : Query Nat Nat :=
  ⟨root, .ofText ['a', 'b'], [], .standard⟩

/-- How the two letters are parsed. -/
def bothLetters : Ending Nat Nat := .ok (some ⟨.list [.text ['a'], .text ['b']], ⟨0, 2⟩⟩)

/-- Whether a recognizer is one of the two handles. -/
def IsNestHandle (r : Recognizer Nat Nat) : Prop := r = nest.1 ∨ r = cachedNest.1

/-- What the two handles are built over. -/
def nestParts : List (Recognizer Nat Nat) :=
  let a : Recognizer Nat Nat := .node ⟨0, 0, .never, []⟩ (.leaf (.find (.literal ['a'])))
  let inner : Recognizer Nat Nat := .link ⟨1, 1, .never, [.deferred 0]⟩ (.deferred 0)
  let both : Recognizer Nat Nat := .node ⟨2, 2, .never, [.deferred 0]⟩ (.sequence [a, inner])
  let b : Recognizer Nat Nat := .node ⟨3, 3, .never, []⟩ (.leaf (.find (.literal ['b'])))
  [nest.1, cachedNest.1, both, b, a, inner]

theorem nestParts_blind {handle : Handle} {shape : Shape Nat Nat (Recognizer Nat Nat)}
    (h : Recognizer.node handle shape ∈ nestParts) :
    shape.Blind ∧ ∀ p ∈ shape.parts, p ∈ nestParts := by
  have hchoice : ∀ p ∈ (nestParts.drop 2).take 2, p ∈ nestParts :=
    fun p hp => List.mem_of_mem_drop (List.mem_of_mem_take hp)
  have hsequence : ∀ p ∈ nestParts.drop 4, p ∈ nestParts := fun p hp => List.mem_of_mem_drop hp
  simp only [nestParts, List.mem_cons, List.not_mem_nil, or_false] at h
  rcases h with h | h | h | h | h | h
  · cases h
    exact ⟨trivial, hchoice⟩
  · cases h
    exact ⟨trivial, hchoice⟩
  · cases h
    exact ⟨trivial, hsequence⟩
  · cases h
    exact ⟨fun _ _ _ _ => rfl, fun p hp => by cases hp⟩
  · cases h
    exact ⟨fun _ _ _ _ => rfl, fun p hp => by cases hp⟩
  · cases h

/-- What is reached from the two handles, or from what they are built over. -/
theorem nestParts_reached {tops : Recognizer Nat Nat → Prop} (htops : ∀ r, tops r → r ∈ nestParts)
    {r : Recognizer Nat Nat} (h : cachedNest.2.Reachable tops r) : r ∈ nestParts := by
  refine h.mem ⟨fun hr hp => (nestParts_blind hr).2 _ hp, ?_⟩ htops
  intro handle l r hl hr
  have hlink : l = .deferred 0 := by
    simp only [nestParts, List.mem_cons, List.not_mem_nil, or_false] at hl
    rcases hl with h | h | h | h | h | h <;> cases h
    rfl
  subst hlink
  cases hr
  exact List.mem_cons_of_mem _ List.mem_cons_self

theorem nestHandle_mem {r : Recognizer Nat Nat} (h : IsNestHandle r) : r ∈ nestParts := by
  rcases h with rfl | rfl
  · exact List.mem_cons_self
  · exact List.mem_cons_of_mem _ List.mem_cons_self

theorem cachedNest_offers : cachedNest.2.Offers IsNestHandle := by
  refine ⟨.add (.add .empty _ _) _ _, ?_, ?_⟩
  · intro cell label e scope h
    have hone : cachedNest.2.deferrals = #[.awaiting "inner" (.ref "cached") []] := rfl
    rw [hone] at h
    cases cell with
    | zero =>
      cases h
      exact ⟨"cached", cachedNest.1, rfl, rfl⟩
    | succ cell => simp at h
  · rintro r (rfl | rfl)
    · exact List.mem_cons_self
    · exact List.mem_cons_of_mem _ List.mem_cons_self

theorem cachedNest_steady : cachedNest.2.SteadyFrom IsNestHandle :=
  fun _ _ h => (nestParts_blind (nestParts_reached (fun _ => nestHandle_mem) h)).1.steady

theorem cachedNest_blind : cachedNest.2.BlindBelow IsNestHandle := by
  intro r hr _ handle shape h
  refine (nestParts_blind (nestParts_reached ?_ h)).1
  rintro _ rfl
  exact nestParts_reached (fun _ => nestHandle_mem) hr

/-- The runs from the two handles, one after the other. -/
theorem cachedNest_runs : ∃ first plain second,
    (twoLetters nest.1).parse? cachedNest.2 20 = some first ∧
    (twoLetters cachedNest.1).plain? first.grammar 20 = some plain ∧ plain.ending = bothLetters ∧
    (twoLetters cachedNest.1).parse? first.grammar 20 = some second ∧
    second.ending = .ok (some ⟨.text ['b'], ⟨0, 2⟩⟩) := by
  have hruns : ((twoLetters nest.1).parse? cachedNest.2 20).any (fun first =>
      (((twoLetters cachedNest.1).plain? first.grammar 20).any fun plain =>
        plain.ending = bothLetters) &&
      (((twoLetters cachedNest.1).parse? first.grammar 20).any fun second =>
        second.ending = .ok (some ⟨.text ['b'], ⟨0, 2⟩⟩))) = true := by decide +kernel
  obtain ⟨first, hfirst, hruns⟩ := (Option.any_eq_true _ _).1 hruns
  obtain ⟨hplain, hsecond⟩ := Bool.and_eq_true_iff.1 hruns
  obtain ⟨plain, hplain, hboth⟩ := (Option.any_eq_true _ _).1 hplain
  obtain ⟨second, hsecond, hinner⟩ := (Option.any_eq_true _ _).1 hsecond
  exact ⟨first, plain, second, hfirst, hplain, of_decide_eq_true hboth, hsecond,
    of_decide_eq_true hinner⟩

/-- A parse from the handle without a cache records the inner match at the ordinal at
which a parse from the other handle looks for the whole one. -/
theorem cachedNest_mixes : ∃ steps g, cachedNest.2.Leads steps g ∧
    (∀ step ∈ steps, step.IsCachedFrom IsNestHandle) ∧
    ∃ plain report, (twoLetters cachedNest.1).plain? g 20 = some plain ∧
      plain.ending = bothLetters ∧ (twoLetters cachedNest.1).parse? g 20 = some report ∧
      report.ending = .ok (some ⟨.text ['b'], ⟨0, 2⟩⟩) := by
  obtain ⟨first, plain, second, hfirst, hplain, hboth, hsecond, hinner⟩ := cachedNest_runs
  refine ⟨[.parse (twoLetters nest.1) first.ending], first.grammar,
    .step .refl ⟨20, first, hfirst, rfl, rfl⟩, ?_, plain, second, hplain, hboth, hsecond, hinner⟩
  intro step hstep
  rw [List.mem_singleton.1 hstep]
  exact ⟨rfl, .inl rfl⟩

/-- The two handles are not in harmony. -/
theorem cachedNest_not_harmonious :
    ¬ Harmonious cachedNest.2.target (cachedNest.2.Started IsNestHandle) := by
  intro h
  obtain ⟨first, plain, second, hfirst, hplain, hboth, hsecond, hinner⟩ := cachedNest_runs
  have hleads : cachedNest.2.Leads [.parse (twoLetters nest.1) first.ending] first.grammar :=
    .step .refl ⟨20, first, hfirst, rfl, rfl⟩
  have hsteps : ∀ step ∈ [Step.parse (twoLetters nest.1) first.ending],
      step.IsCachedFrom IsNestHandle := by
    intro step hstep
    rw [List.mem_singleton.1 hstep]
    exact ⟨rfl, .inl rfl⟩
  have htoggling := cachedNest_offers.toggling cachedNest_steady cachedNest_blind
  obtain ⟨report, hreport, hsame⟩ := (htoggling.1 h).1 hleads hsteps rfl (.inr rfl) hplain
  rw [hsecond] at hreport
  cases hreport
  rw [hinner, hboth] at hsame
  cases hsame

end Grammar

end SlotGrammar
