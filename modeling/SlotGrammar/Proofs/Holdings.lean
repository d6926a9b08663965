import Mathlib.Data.Finset.Prod
import SlotGrammar.Proofs.Commits
import SlotGrammar.Proofs.Pairs

/-!
# What a pair holds

A cached recognizer and a transform of it both keep what they find in the store of the
recognizer.  Nothing in that recognizer is cached again where it is called, so each parse that
matches with caching leaves one outcome, and a later one with the same root and the same text
replays it.  The store thus holds one outcome for each root and text that have matched since it
was cleared.

Main results:

- Theorem `Store.size_eq_card`: how many outcomes a store holds.
- Theorem `tape_pair`: a match from one of the two recognizers has one slot.
- Theorems `PairHolds.parse?` and `PairHolds.dropTraces`: what one use does to what is held.
- Theorem `PairHolds.heldOutcomes`: the number of outcomes is that of the traces.
-/

namespace SlotGrammar

variable {V α : Type}

/-! ## The size of a store -/

/-- A table finds what is among its entries, because it holds each key once. -/
theorem Table.lookup_eq_some_iff {κ β : Type} [DecidableEq κ] {es : List (κ × β)}
    (hnodup : (es.map Prod.fst).Nodup) {key : κ} {value : β} :
    lookup key es = some value ↔ (key, value) ∈ es := by
  refine ⟨mem_of_lookup, ?_⟩
  induction es with
  | nil => simp
  | cons e es ih =>
    rw [List.map_cons, List.nodup_cons] at hnodup
    intro hmem
    rcases List.mem_cons.1 hmem with rfl | hrest
    · simp [lookup]
    · have hne : e.1 ≠ key := fun h => hnodup.1 (h ▸ List.mem_map_of_mem hrest)
      simp [lookup, hne, ih hnodup.2 hrest]

namespace Store

variable (s : Store V α)

/-- The traces and ordinals at which a store has outcomes. -/
def places : List (TraceKey × Nat) :=
  s.traces.entries.flatMap fun trace => trace.2.entries.map fun entry => (trace.1, entry.1)

theorem length_places : s.places.length = s.size := by
  simp [places, size, Table.values, List.length_flatMap, List.map_map, Function.comp_def]

theorem nodup_places : s.places.Nodup := by
  rw [places, List.nodup_flatMap]
  constructor
  · intro trace _
    have hmap : (trace.2.entries.map fun entry => (trace.1, entry.1)) =
        (trace.2.entries.map Prod.fst).map (Prod.mk trace.1) := by
      simp [Function.comp_def]
    rw [hmap]
    exact trace.2.nodup.map (Prod.mk_right_injective trace.1)
  · -- different traces have different keys
    refine (List.pairwise_map.1 s.traces.nodup).imp ?_
    intro trace trace' hne place hplace hplace'
    rcases List.mem_map.1 hplace with ⟨entry, -, rfl⟩
    rcases List.mem_map.1 hplace' with ⟨entry', -, heq⟩
    exact hne (congrArg Prod.fst heq).symm

variable {s}

theorem mem_places {key : TraceKey} {n : Nat} :
    (key, n) ∈ s.places ↔ ∃ o, s.replay? key n = some o := by
  have hreplay : ∀ o, s.replay? key n = some o ↔
      ∃ trace, (key, trace) ∈ s.traces.entries ∧ (n, o) ∈ trace.entries := by
    intro o
    rw [replay?, Option.bind_eq_some_iff]
    refine exists_congr fun trace => and_congr ?_ ?_
    · exact Table.lookup_eq_some_iff s.traces.nodup
    · exact Table.lookup_eq_some_iff trace.nodup
  simp only [hreplay, places, List.mem_flatMap, List.mem_map, Prod.mk.injEq]
  constructor
  · rintro ⟨⟨_, trace⟩, htrace, ⟨_, o⟩, hentry, rfl, rfl⟩
    exact ⟨o, trace, htrace, hentry⟩
  · rintro ⟨o, trace, htrace, hentry⟩
    exact ⟨_, htrace, _, hentry, rfl, rfl⟩

/-- A store with one outcome under each trace of a set has as many outcomes as there are
traces. -/
theorem size_eq_card {held : Finset TraceKey}
    (h : ∀ key n, (∃ o, s.replay? key n = some o) ↔ n = 0 ∧ key ∈ held) : s.size = held.card := by
  have hplaces : s.places.toFinset = held ×ˢ {0} := by
    ext ⟨key, n⟩
    rw [List.mem_toFinset, mem_places, h, Finset.mem_product, Finset.mem_singleton, and_comm]
  calc
    s.size = s.places.length := (length_places s).symm
    _ = s.places.toFinset.card := (List.toFinset_card_of_nodup (nodup_places s)).symm
    _ = held.card := by simp [hplaces]

end Store

/-! ## One outcome for each trace -/

/-- Whether a store holds one outcome under each trace of a set, at the first ordinal, and
nothing else is held anywhere. -/
def HoldOnce (s₀ : StoreId) (held : Finset TraceKey) (entries : Entries V α) : Prop :=
  ∀ s key n, (∃ o, entries s key n = some o) ↔ s = s₀ ∧ n = 0 ∧ key ∈ held

section HoldOnce

variable {s₀ : StoreId} {held : Finset TraceKey} {entries entries' : Entries V α}

theorem holdOnce_empty (s₀ : StoreId) : HoldOnce s₀ ∅ (fun _ _ _ => none : Entries V α) := by
  simp [HoldOnce]

/-- Clearing the store leaves nothing. -/
theorem HoldOnce.clear (h : HoldOnce s₀ held entries) :
    HoldOnce s₀ ∅ fun s key n => if s = s₀ then none else entries s key n := by
  intro s key n
  by_cases hs : s = s₀
  · simp [hs]
  · have hnone : ¬ ∃ o, entries s key n = some o := fun ho => hs ((h s key n).1 ho).1
    simpa [hs] using hnone

/-- A trace with one slot adds itself, if it was held or not. -/
theorem HoldOnce.insert (h : HoldOnce s₀ held entries) {key₀ : TraceKey} {o : Outcome V α}
    (hslots : ∀ s n o', entries' s key₀ n = some o' ↔
      [Slot.settled s₀ o][n]? = some (.settled s o'))
    (hothers : ∀ s key n, key ≠ key₀ → entries' s key n = entries s key n) :
    HoldOnce s₀ (insert key₀ held) entries' := by
  intro s key n
  rw [Finset.mem_insert]
  by_cases hkey : key = key₀
  · subst hkey
    rw [exists_congr (hslots s n)]
    cases n with
    | zero => simp [eq_comm]
    | succ n => simp
  · rw [hothers s key n hkey, h s key n]
    simp [hkey]

end HoldOnce

/-! ## Parses that commit nothing -/

/-- A parse without caching, or without a match, commits nothing. -/
theorem AllMatched.committed_eq {bodies : Bodies V α} {base g : Grammar V α}
    {P B starts : Recognizer V α → Prop} {q : Query V α} (hrealm : Realm bodies base P)
    (horderly : ∀ handle shape, P (.node handle shape) → shape.Orderly)
    (hB : Closed base.target B) (hblind : ∀ handle shape, B (.node handle shape) → shape.Blind)
    (hcached : ∀ r, P r → r.isCached = true → B r) (hstarts : ∀ r, starts r → P r)
    (hone : ∀ r r', starts r → starts r' → r.handle.id = r'.handle.id → r.handle = r'.handle)
    (hok : base.Sound (AllMatched base.target starts) g) (hstart : starts q.root) {limit : Nat}
    {report : Report V α} (hreport : q.parse? g limit = some report)
    (hnothing : (q.options.cache && report.ending.isMatch) = false) :
    report.grammar.stores.committed = g.stores.committed := by
  have hregime := AllMatched.regime hrealm horderly hB hblind hcached hstarts hone
  have hP := hstarts _ hstart
  have hnests : ∀ r, ¬ Nests base.target q.setting q.root .start r :=
    fun r hr => not_nests_of_orderly hrealm horderly hP hr
  have hplain : q.setting.IsPlain := Setting.isPlain_plain _
  rcases Query.parse?_eq_some.1 hreport with ⟨run, hrun, -⟩
  rcases parse_ends hrealm hregime (fun _ => hstart) hP rfl rfl hplain
    (fun r hr => (hnests r hr).elim) hok hrun with ⟨-, m, c, hc, hending⟩
  -- the same parse, from the very state that it was made in
  have hstill : Regime base.target P (fun _ => False) (· = g.stores.committed) :=
    regime_of_orderly horderly _
  cases hcache : q.options.cache with
  | false =>
    have hstart : q.context.options.cache = true → False := by
      rw [show q.context.options.cache = false from hcache]
      exact Bool.false_ne_true
    rcases parse_follows hrealm hstill hstart hP rfl rfl hplain
      (fun r hr => (hnests r hr).elim) hc (hok.of_allowed rfl) with ⟨run', hrun', hok'⟩
    cases q.parse?_unique hreport (q.parse?_of_run hrun')
    exact hok'.allowed
  | true =>
    rcases q.parse?_leaves hrealm hstill (fun h : False => h.elim) hcache hP rfl
      (fun r hr => (hnests r hr).elim) hc
      (by
        rintro entries rfl n slot hslot
        exact hregime.fits hstart hplain hc hok.allowed n slot hslot)
      (hok.of_allowed rfl) with ⟨report', hreport', hleaves⟩
    cases q.parse?_unique hreport hreport'
    rw [hcache, hending, Bool.true_and] at hnothing
    exact hleaves.unmatched hnothing

namespace Grammar

/-! ## Slots of a pair -/

section Pair

variable {e : Expr V α} {transform : Tree V α → List V → Tree V α} {name name' : String}
  {s₀ : StoreId}

/-- A match from a recognizer of a pair has one slot, which is through the store of the cached
one. -/
theorem tape_pair (hcaching : (pair e transform).1.handle.caching = .active s₀) {ρ : Targets V α}
    {limit : Nat} {st : Setting V} {root : Recognizer V α} (hroot : IsOfPair e transform root)
    {c : Course V α} (hc : course ρ limit st root .start = some c)
    (hmatch : c.ending.isMatch = true) : ∃ o, c.tape = [.settled s₀ o] := by
  have hcall : ∀ {limit st c}, course ρ limit st (pair e transform).1 .start = some c →
      c.ending.isMatch = true → ∃ o, c.tape = [.settled s₀ o] := by
    intro limit st c hc hmatch
    cases limit with
    | zero => cases hc
    | succ limit =>
      rcases course_succ_eq_some.1 hc with ⟨w, -, rfl⟩
      rcases Ending.exists_of_isMatch hmatch with ⟨m, hm⟩
      rw [Course.around_ending] at hm
      exact ⟨some m, by rw [Course.tape_around_of_active hcaching, Course.slotsThrough, hm]⟩
  rcases hroot with rfl | rfl
  · exact hcall hc hmatch
  · cases limit with
    | zero => cases hc
    | succ limit =>
      rcases course_succ_eq_some.1 hc with ⟨w, hw, rfl⟩
      have hoff : (pair e transform).2.1.handle.caching.isActive = false := rfl
      rw [Course.around_ending] at hmatch
      rw [Course.tape_around_of_inactive hoff]
      -- the transform calls the cached recognizer, and makes a match of a match only
      rcases Option.bind_eq_some_iff.1 hw with ⟨called, hcalled, hnext⟩
      rcases Option.map_eq_some_iff.1 hnext with ⟨rest, hrest, rfl⟩
      have hmatch : rest.ending.isMatch = true := hmatch
      cases hending : called.ending with
      | error err =>
        rw [hending] at hrest
        cases hrest
        cases hmatch
      | ok outcome =>
        rw [hending] at hrest
        cases hrest
        have hfound : called.ending.isMatch = true := by
          cases outcome with
          | none => cases hmatch
          | some m => rw [hending]; rfl
        rcases hcall hcalled hfound with ⟨o, htape⟩
        exact ⟨o, by rw [Course.tape_andThen, htape]; rfl⟩

/-! ## Uses of a pair -/

variable (e transform name name' s₀) in
/-- Whether the store of a pair holds one outcome under each trace of a set, and no other store
holds anything. -/
structure PairHolds (held : Finset TraceKey) (g : Grammar V α) : Prop where
  kept : PairKept e transform name name' g
  matched : AllMatched (addPair e transform name name').target (IsOfPair e transform)
    g.stores.committed
  once : HoldOnce s₀ held g.stores.committed

variable {held : Finset TraceKey} {g : Grammar V α} {q : Query V α}

/-- With nothing recorded, nothing is held. -/
theorem Transparent.holds (h : Transparent e) (hnames : name ≠ name') :
    PairHolds e transform name name' s₀ ∅ (pair e transform).2.2 := by
  rcases h.regime transform hnames with ⟨bodies, hrealm, -⟩
  have hblank : (addPair e transform name name').stores.committed = fun _ _ _ => none :=
    (sound_of_blank (J := (· = fun _ _ _ => none)) hrealm.formed.blank rfl).allowed
  have hcommitted : (pair e transform).2.2.stores.committed = fun _ _ _ => none := by
    rw [← hblank, addPair_eq]
    rfl
  refine ⟨h.kept hnames, ?_, ?_⟩ <;> rw [hcommitted]
  · exact nofun
  · exact holdOnce_empty s₀

/-- Clearing the cached recognizer leaves nothing. -/
theorem PairHolds.dropTraces (h : Transparent e) (hnames : name ≠ name')
    (hcaching : (pair e transform).1.handle.caching = .active s₀)
    (hholds : PairHolds e transform name name' s₀ held g) :
    PairHolds e transform name name' s₀ ∅ (g.dropTraces (pair e transform).1) := by
  have hcommitted : (g.dropTraces (pair e transform).1).stores.committed =
      fun s key n => if s = s₀ then none else g.stores.committed s key n := by
    ext s key n : 3
    rw [Grammar.dropTraces, hcaching]
    exact Stores.committed_clear g.stores s₀ s key n
  refine ⟨hholds.kept.dropTraces h hnames _, ?_, ?_⟩ <;> rw [hcommitted]
  · exact hholds.matched.clear s₀
  · exact hholds.once.clear

/-- Two roots of a pair with one identity have one handle. -/
theorem IsOfPair.handle_eq {r r' : Recognizer V α} (hr : IsOfPair e transform r)
    (hr' : IsOfPair e transform r') (hid : r.handle.id = r'.handle.id) : r.handle = r'.handle := by
  rcases hr with rfl | rfl <;> rcases hr' with rfl | rfl
  · rfl
  · exact absurd hid (pair_id_ne e transform)
  · exact absurd hid.symm (pair_id_ne e transform)
  · rfl

/-- A parse that matches with caching adds its trace to those that are held, and any other
parse adds nothing. -/
theorem PairHolds.parse? (h : Transparent e) (hnames : name ≠ name')
    (hcaching : (pair e transform).1.handle.caching = .active s₀)
    (hholds : PairHolds e transform name name' s₀ held g) (hroot : IsOfPair e transform q.root)
    {limit : Nat} {ending : Ending V α}
    (hcomes : q.root.ComesTo (addPair e transform name name').target q.context.view limit .start
      ending) :
    ∃ report, q.parse? g limit = some report ∧ report.ending = ending ∧
      PairHolds e transform name name' s₀
        (if (q.options.cache && ending.isMatch) = true then insert q.key held else held)
        report.grammar := by
  let names := pairNames e transform name name'
  let base := addPair e transform name name'
  rcases hholds.kept.parse? h hnames hroot hcomes with ⟨report, hreport, rfl, hkept⟩
  have horderly : base.OrderlyFrom (IsOfPair e transform) :=
    orderly_addPair h.closed hnames h.orderly
  rcases (offers_addPair h.closed hnames).realm horderly.steady with ⟨bodies, hrealm⟩
  rcases (blindBelow_addPair h.closed hnames h.blind).exists_closed with ⟨B, hB, hblind, hcached⟩
  have hstarts : ∀ r, IsOfPair e transform r → base.Reachable (IsOfPair e transform) r :=
    fun r hr => .root hr
  have hone : ∀ r r', IsOfPair e transform r → IsOfPair e transform r' →
      r.handle.id = r'.handle.id → r.handle = r'.handle := fun r r' hr hr' => hr.handle_eq hr'
  have hregime := AllMatched.regime hrealm horderly hB hblind hcached hstarts hone
  have hok : base.Sound (AllMatched base.target (IsOfPair e transform)) (g.renamed names) :=
    hholds.kept.sound.of_allowed hholds.matched
  -- the same parse under names
  have hnamed : q.parse? (g.renamed names) limit =
      some { report with grammar := report.grammar.renamed names } := by
    rw [hholds.kept.parse?_named h hroot, hreport]
    rfl
  have hmatched : AllMatched base.target (IsOfPair e transform)
      report.grammar.stores.committed := by
    have hstep : (g.renamed names).Takes (.parse q report.ending) (report.grammar.renamed names) :=
      ⟨limit, _, hnamed, rfl, rfl⟩
    refine (hok.step hrealm hregime (fun entries s hold => hold.clear s) hstep ?_).allowed
    rintro _ ⟨⟩
    refine ⟨.root hroot, ?_⟩
    rintro r (rfl | hnests)
    · exact hroot
    · exact absurd hnests (not_nests_of_orderly hrealm horderly (.root hroot))
  refine ⟨report, hreport, rfl, hkept, hmatched, ?_⟩
  by_cases hcommits : (q.options.cache && report.ending.isMatch) = true
  · rw [if_pos hcommits]
    rw [Bool.and_eq_true] at hcommits
    rcases AllMatched.committed_iff hrealm horderly hB hblind hcached hstarts hone hok hroot
      hcommits.1 hnamed hcommits.2 with ⟨m, c, hc, hending, hslots, hothers⟩
    have hending : report.ending = c.ending := hending
    rcases tape_pair hcaching hroot hc (hending ▸ hcommits.2) with ⟨o, htape⟩
    rw [htape] at hslots
    exact hholds.once.insert hslots hothers
  · rw [if_neg hcommits]
    have hsame := AllMatched.committed_eq hrealm horderly hB hblind hcached hstarts hone hok hroot
      hnamed (Bool.eq_false_iff.2 hcommits)
    have hsame : report.grammar.stores.committed = g.stores.committed := hsame
    rw [hsame]
    exact hholds.once

/-- The cached recognizer holds one outcome for each trace. -/
theorem PairHolds.heldOutcomes (hcaching : (pair e transform).1.handle.caching = .active s₀)
    (hholds : PairHolds e transform name name' s₀ held g) :
    g.heldOutcomes (pair e transform).1 = held.card := by
  have hstore : g.store (pair e transform).1 = g.stores[s₀]? := by
    rw [store, hcaching]
    rfl
  rw [Grammar.heldOutcomes, hstore]
  cases hs : g.stores[s₀]? with
  | none =>
    have hnone : held = ∅ := by
      refine Finset.eq_empty_of_forall_notMem fun key hkey => ?_
      rcases (hholds.once s₀ key 0).2 ⟨rfl, rfl, hkey⟩ with ⟨o, ho⟩
      rw [Stores.committed, hs] at ho
      cases ho
    rw [hnone]
    rfl
  | some store =>
    refine Store.size_eq_card fun key n => ?_
    have honce := hholds.once s₀ key n
    rw [Stores.committed, hs] at honce
    simpa using honce

end Pair

end Grammar

end SlotGrammar
