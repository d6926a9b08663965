import SlotGrammar.Proofs.Endings
import SlotGrammar.Proofs.Freezing
import SlotGrammar.Proofs.Renaming
import SlotGrammar.Proofs.Transparency

/-!
# A recognizer and a transform of it

A library parser owns a recognizer and another one that transforms what the first one
finds.  Neither has a name.  Under names for both the grammar is one that offers them, and
what holds of such grammars carries over to the one without names.

Main results:

- Theorem `offers_addPair`: under names the grammar offers the recognizers of a pair.
- Theorem `PairKept.parse?`: after any uses of the pair, a parse ends as its course.
- Theorem `PairKept.dropTraces`: clearing what is recorded is such a use.
-/

namespace SlotGrammar

variable {V α : Type}

/-- A shape over other parts is as orderly. -/
theorem Shape.Orderly.withParts {ρ σ : Type} {shape : Shape V α ρ} (h : shape.Orderly)
    (ps : List σ) : (shape.withParts ps).Orderly := by
  unfold Shape.withParts
  split <;> first | exact h | trivial | exact fun _ _ _ _ => rfl

/-- A shape over other parts reads as little of the values. -/
theorem Shape.Blind.withParts {ρ σ : Type} {shape : Shape V α ρ} (h : shape.Blind)
    (ps : List σ) : (shape.withParts ps).Blind := by
  unfold Shape.withParts
  split <;> first | exact h | trivial | exact fun _ _ _ _ => rfl

namespace Grammar

/-! ## Pairs -/

variable {e : Expr V α} {name name' : String} {transform : Tree V α → List V → Tree V α}

/-- The recognizer of an expression and its transform, and the grammar with them. -/
def pair (e : Expr V α) (transform : Tree V α → List V → Tree V α) :
    Recognizer V α × Recognizer V α × Grammar V α :=
  let (r, g) := build [] e {}
  let (r', g) := newNode (.mapped transform r) g
  (r, r', g)

/-- The grammar with an expression and a transform of it, under names. -/
def addPair (e : Expr V α) (transform : Tree V α → List V → Tree V α) (name name' : String) :
    Grammar V α :=
  ((add {} name e).2.add name' ((Expr.ref name).map transform)).2

/-- The names under which a pair is added. -/
def pairNames (e : Expr V α) (transform : Tree V α → List V → Tree V α) (name name' : String) :
    Table String (Recognizer V α) :=
  ((build [] e {}).2.names.put name (pair e transform).1).put name' (pair e transform).2.1

/-- A transform of a named expression is built over the recognizer with that name. -/
theorem addPair_eq : addPair e transform name name' =
    (pair e transform).2.2.renamed (pairNames e transform name name') := by
  obtain ⟨r, g, hbuilt⟩ : ∃ r g, build [] e {} = (r, g) := ⟨_, _, rfl⟩
  have hname : (g.bind name r).resolve? [] name = some r :=
    (Table.find?_put g.names name name r).trans (if_pos rfl)
  have hbuild : build [] ((Expr.ref name).map transform) (g.bind name r) =
      newNode (.mapped transform r) (g.bind name r) := by
    rw [Expr.map, build, buildShape]
    show newNode (.mapped transform (build [] (.ref name) (g.bind name r)).1)
      (build [] (.ref name) (g.bind name r)).2 = _
    rw [build_ref hname]
  unfold addPair pairNames add pair
  rw [hbuilt]
  dsimp only
  rw [hbuild]
  rfl

/-- Whether a recognizer is that of an expression or that of its transform. -/
def IsOfPair (e : Expr V α) (transform : Tree V α → List V → Tree V α) (r : Recognizer V α) :
    Prop :=
  r = (pair e transform).1 ∨ r = (pair e transform).2.1

theorem mem_values_addPair (hnames : name ≠ name') {r : Recognizer V α}
    (h : IsOfPair e transform r) : r ∈ (addPair e transform name name').names.values := by
  have hfind : (addPair e transform name name').find? name = some (pair e transform).1 ∧
      (addPair e transform name name').find? name' = some (pair e transform).2.1 := by
    rw [addPair_eq]
    show Table.find? (Table.put _ _ _) _ = _ ∧ Table.find? (Table.put _ _ _) _ = _
    rw [Table.find?_put, Table.find?_put, Table.find?_put, if_neg (Ne.symm hnames), if_pos rfl,
      if_pos rfl]
    exact ⟨rfl, rfl⟩
  rcases h with rfl | rfl
  · exact List.mem_map.2 ⟨_, Table.mem_of_lookup hfind.1, rfl⟩
  · exact List.mem_map.2 ⟨_, Table.mem_of_lookup hfind.2, rfl⟩

/-- The recognizer of a closed expression reaches every definition, and so does that of a
transform of it. -/
theorem covers_pair (he : e.Closed []) {r : Recognizer V α} (h : IsOfPair e transform r) :
    (pair e transform).2.2.Covers 0 [r] := by
  have hfirst : (pair e transform).2.2.Covers 0 [(pair e transform).1] := by
    intro cell hlo hcell
    obtain ⟨q, hq, l, hl, hreach⟩ := (built_of_closed he).2.2.1 cell hlo hcell
    exact ⟨q, hq, l, hl, hreach.mono rfl fun _ _ h => h⟩
  rcases h with rfl | rfl
  · exact hfirst
  · refine hfirst.mono fun q hq l hl => ⟨_, List.mem_singleton.2 rfl, ?_⟩
    cases List.mem_singleton.1 hq
    exact Shape.mem_held_iff.2 ⟨_, List.mem_singleton.2 rfl, hl⟩

variable (e transform name name') in
/-- The recognizers of the pair are made by their expressions. -/
theorem makes_pair (he : e.Closed []) (hnames : name ≠ name') (S : Meaning V α) :
    e.Makes (addPair e transform name name').target S (pair e transform).1 ∧
      (e.map transform).Makes (addPair e transform name name').target S (pair e transform).2.1 := by
  have hcovers : (addPair e transform name name').Covers 0 [(pair e transform).1] := by
    rw [addPair_eq]
    intro cell hlo hcell
    obtain ⟨q, hq, l, hl, hreach⟩ := covers_pair he (.inl rfl) cell hlo hcell
    exact ⟨q, hq, l, hl, hreach.mono rfl fun _ _ h => h⟩
  have hanswers := hcovers.answers (mem_values_addPair hnames (.inl rfl))
  have hfirst : e.Makes (addPair e transform name name').target S (pair e transform).1 := by
    refine (built_of_closed he).2.2.2 _ ?_ S
    intro cell r hlo hr
    refine hanswers cell r hlo ?_
    rw [addPair_eq]
    exact hr
  have hsecond : ∀ handle p, e.Makes (addPair e transform name name').target S p →
      (e.map transform).Makes (addPair e transform name name').target S
        (.node handle (.mapped transform p)) := by
    intro handle p hp
    have hshape : Shape.mapped transform p = (Shape.mapped transform e).withParts [p] := rfl
    rw [hshape]
    refine .make rfl ?_
    intro x hx
    cases List.mem_singleton.1 hx
    exact hp
  exact ⟨hfirst, hsecond _ _ hfirst⟩

/-- The grammar with names offers the recognizers of the pair. -/
theorem offers_addPair (he : e.Closed []) (hnames : name ≠ name') :
    (addPair e transform name name').Offers (IsOfPair e transform) := by
  refine ⟨.add (.add .empty _ _) _ _, ?_, fun r hr => mem_values_addPair hnames hr⟩
  intro cell label e' scope h
  rw [addPair_eq] at h
  have h : (build [] e {}).2.deferrals[cell]? = some (.awaiting label e' scope) := h
  rw [(built_of_closed he).2.1] at h
  cases h

/-! ## What is reached -/

variable {T : Shape V α (Expr V α) → Prop}

/-- What is reached from the recognizers of the pair is the transform, or is made by an
expression in which all shapes have the property that they have in that of the pair. -/
theorem reachable_addPair (he : e.Closed []) (hnames : name ≠ name') (hT : e.All T)
    {r : Recognizer V α}
    (h : (addPair e transform name name').Reachable (IsOfPair e transform) r) :
    r = (pair e transform).2.1 ∨ MadeFrom (addPair e transform name name').target T r := by
  let ρ := (addPair e transform name name').target
  have hconsistent : Consistent ρ T (· = fun _ _ => False) := by
    rintro S rfl n q hq
    exact hq.elim
  obtain ⟨hfirst, -⟩ := makes_pair e name name' transform he hnames fun _ _ => False
  have hmade : MadeFrom ρ T (pair e transform).1 := ⟨_, hconsistent, _, e, rfl, hT, hfirst⟩
  have hclosed := closed_madeFrom ρ T
  refine h.mem (P := fun r => r = (pair e transform).2.1 ∨ MadeFrom ρ T r) ⟨?_, ?_⟩ ?_
  · rintro handle shape p (hsecond | hp) hpart
    · cases hsecond
      cases List.mem_singleton.1 hpart
      exact .inr hmade
    · exact .inr (hclosed.part hp hpart)
  · rintro handle l r (hsecond | hp) hr
    · cases hsecond
    · exact .inr (hclosed.target hp hr)
  · rintro r (rfl | rfl)
    · exact .inr hmade
    · exact .inl rfl

/-- What is reached from the recognizers of the pair is orderly when the expression is. -/
theorem orderly_addPair (he : e.Closed []) (hnames : name ≠ name')
    (horderly : e.All Shape.Orderly) :
    (addPair e transform name name').OrderlyFrom (IsOfPair e transform) := by
  intro handle shape h
  rcases reachable_addPair he hnames horderly h with hsecond | hmade
  · cases hsecond
    trivial
  · obtain ⟨shape', ps, rfl, hshape, -⟩ := hmade.node
    exact hshape.withParts ps

/-- Nothing below a cached recognizer reads values when nothing in the expression does: the
transform is not cached. -/
theorem blindBelow_addPair (he : e.Closed []) (hnames : name ≠ name') (hblind : e.All Shape.Blind) :
    (addPair e transform name name').BlindBelow (IsOfPair e transform) := by
  intro r hr hcached handle shape h
  rcases reachable_addPair he hnames hblind hr with rfl | hmade
  · cases hcached
  · have hbelow := h.mem (closed_madeFrom _ _) fun x hx => hx ▸ hmade
    obtain ⟨shape', ps, rfl, hshape, -⟩ := hbelow.node
    exact hshape.withParts ps

/-- The two recognizers have handles of their own. -/
theorem pair_id_ne (e : Expr V α) (transform : Tree V α → List V → Tree V α) :
    (pair e transform).1.handle.id ≠ (pair e transform).2.1.handle.id := by
  have hempty : ({} : Grammar V α).Built := .empty
  obtain ⟨bodies, hformed⟩ := hempty.formed
  obtain ⟨bodies', -, hr⟩ := build_formed hformed e
  exact Nat.ne_of_lt (hr _ .refl).id_lt

/-- Of the handles of the pair with one identity, all are cached or none. -/
theorem harmonious_addPair (e : Expr V α) (transform : Tree V α → List V → Tree V α)
    (name name' : String) :
    Harmonious (addPair e transform name name').target (IsOfPair e transform) := by
  have hne := pair_id_ne e transform
  have hcached : ∀ r r', IsOfPair e transform r → IsOfPair e transform r' →
      r.handle.id = r'.handle.id → r.isCached = r'.isCached := by
    rintro r r' (rfl | rfl) (rfl | rfl) hid
    · rfl
    · exact absurd hid hne
    · exact absurd hid.symm hne
    · rfl
  exact @harmonious_of_isCached_eq V α _ _ hcached

/-! ## Uses of the pair -/

/-- Whether a grammar is that of a pair, with outcomes in its stores that are due. -/
structure PairKept (e : Expr V α) (transform : Tree V α → List V → Tree V α) (name name' : String)
    (g : Grammar V α) : Prop where
  defines : g.Defines (pair e transform).2.2.definitions
  sound : (addPair e transform name name').Sound
    (AllDue (addPair e transform name name').target (IsOfPair e transform))
    (g.renamed (pairNames e transform name name'))

/-- Whether a pair can be used without its caches showing. -/
structure Transparent (e : Expr V α) : Prop where
  closed : e.Closed []
  orderly : e.All Shape.Orderly
  blind : e.All Shape.Blind

variable (transform) in
/-- What is reached from the recognizers of such a pair is well formed, and parses from them
keep the outcomes in the stores due. -/
theorem Transparent.regime (h : Transparent e) (hnames : name ≠ name') :
    ∃ bodies, Realm bodies (addPair e transform name name')
        ((addPair e transform name name').Reachable (IsOfPair e transform)) ∧
      Regime (addPair e transform name name').target
        ((addPair e transform name name').Reachable (IsOfPair e transform))
        (IsOfPair e transform)
        (AllDue (addPair e transform name name').target (IsOfPair e transform)) := by
  have horderly : (addPair e transform name name').OrderlyFrom (IsOfPair e transform) :=
    orderly_addPair h.closed hnames h.orderly
  obtain ⟨bodies, hrealm, hregime, -⟩ :=
    (offers_addPair h.closed hnames).sound_of_leads horderly.steady
      (blindBelow_addPair h.closed hnames h.blind) (fun r hr => .root hr)
      (harmonious_addPair e transform name name')
  exact ⟨bodies, hrealm, hregime⟩

section Uses

variable {g : Grammar V α} {q : Query V α}

/-- With nothing recorded, the grammar of a pair is kept. -/
theorem Transparent.kept (h : Transparent e) (hnames : name ≠ name') :
    PairKept e transform name name' (pair e transform).2.2 := by
  obtain ⟨bodies, hrealm, -⟩ := h.regime transform hnames
  refine ⟨⟨rfl, (built_of_closed h.closed).2.1⟩, ?_⟩
  rw [← addPair_eq]
  refine sound_of_blank hrealm.formed.blank ?_
  intro s key n o ho
  cases ho

/-- A step of the grammar with names keeps the grammar of the pair. -/
theorem PairKept.step (h : Transparent e) (hnames : name ≠ name')
    (hkept : PairKept e transform name name' g)
    {g' : Grammar V α} (hdefines : g'.Defines (pair e transform).2.2.definitions)
    (step : Step V α)
    (hstep : (g.renamed (pairNames e transform name name')).Takes step
      (g'.renamed (pairNames e transform name name')))
    (hasked : ∀ q ∈ step.query?, IsOfPair e transform q.root) :
    PairKept e transform name name' g' := by
  obtain ⟨bodies, hrealm, hregime⟩ := h.regime transform hnames
  have horderly : (addPair e transform name name').OrderlyFrom (IsOfPair e transform) :=
    orderly_addPair h.closed hnames h.orderly
  refine ⟨hdefines, hkept.sound.step hrealm hregime (fun entries s hdue => hdue.clear s) hstep ?_⟩
  intro q hq
  refine ⟨.root (hasked q hq), ?_⟩
  rintro r (rfl | hnests)
  · exact hasked q hq
  · exact absurd hnests (not_nests_of_orderly hrealm horderly (.root (hasked q hq)))

/-- Clearing what a recognizer keeps. -/
theorem PairKept.dropTraces (h : Transparent e) (hnames : name ≠ name')
    (hkept : PairKept e transform name name' g) (t : Recognizer V α) :
    PairKept e transform name name' (g.dropTraces t) := by
  have hdefines : (g.dropTraces t).Defines (pair e transform).2.2.definitions := by
    unfold Grammar.dropTraces
    split <;> exact hkept.defines
  refine hkept.step h hnames hdefines (.clear t) ?_ (by simp [Step.query?])
  show _ = Grammar.dropTraces _ t
  unfold Grammar.dropTraces renamed
  split <;> rfl

/-- A recognizer of a kept pair reaches every definition. -/
theorem PairKept.covers (h : Transparent e) (hkept : PairKept e transform name name' g)
    {r : Recognizer V α} (hr : IsOfPair e transform r) : g.Covers 0 [r] := by
  intro cell hlo hcell
  rw [hkept.defines.1] at hcell
  obtain ⟨q, hq, l, hl, hreach⟩ := covers_pair h.closed hr cell hlo hcell
  have hdeferrals : (pair e transform).2.2.deferrals = #[] := (built_of_closed h.closed).2.1
  refine ⟨q, hq, l, hl, hreach.mono ?_ fun _ _ hr => hkept.defines.1 ▸ hr⟩
  rw [hkept.defines.2, hdeferrals]

/-- A parse from one of the recognizers of the pair does the same under names. -/
theorem PairKept.parse?_named (h : Transparent e) (hkept : PairKept e transform name name' g)
    (hroot : IsOfPair e transform q.root) (limit : Nat) :
    q.parse? (g.renamed (pairNames e transform name name')) limit =
      (q.parse? g limit).map fun report =>
        { report with grammar := report.grammar.renamed (pairNames e transform name name') } :=
  parse?_renamed hkept.defines.2 (hkept.covers h hroot) limit q.input q.values q.options _

/-- A parse from one of the recognizers of the pair ends as its course. -/
theorem PairKept.parse? (h : Transparent e) (hnames : name ≠ name')
    (hkept : PairKept e transform name name' g) (hroot : IsOfPair e transform q.root) {limit : Nat}
    {ending : Ending V α}
    (hcomes : q.root.ComesTo (addPair e transform name name').target q.context.view limit .start
      ending) :
    ∃ report, q.parse? g limit = some report ∧ report.ending = ending ∧
      PairKept e transform name name' report.grammar := by
  obtain ⟨bodies, hrealm, hregime⟩ := h.regime transform hnames
  have horderly : (addPair e transform name name').OrderlyFrom (IsOfPair e transform) :=
    orderly_addPair h.closed hnames h.orderly
  have hends := q.plain?_ending hrealm hkept.sound.later (.root hroot) limit
  obtain ⟨plain, hplain, rfl⟩ := Option.map_eq_some_iff.1
    (hends.trans (hcomes limit (Nat.le_refl _)))
  have hstarts : ∀ r, q.Starts (addPair e transform name name').target r →
      IsOfPair e transform r := by
    rintro r (rfl | hnests)
    · exact hroot
    · exact absurd hnests (not_nests_of_orderly hrealm horderly (.root hroot))
  obtain ⟨report, hreport, hending⟩ :=
    q.parse?_of_plain? hrealm hregime hkept.sound (.root hroot) hstarts hplain
  -- the same parse without names
  obtain ⟨report', hreport', rfl⟩ :=
    Option.map_eq_some_iff.1 ((hkept.parse?_named h hroot limit).symm.trans hreport)
  have hdefines := parse?_defines hkept.defines.2 (hkept.covers h hroot) limit q.input q.values
    q.options hreport'
  refine ⟨report', hreport', hending, ?_⟩
  rw [hkept.defines.1] at hdefines
  refine hkept.step h hnames hdefines (.parse q report'.ending) ⟨limit, _, hreport, rfl, rfl⟩ ?_
  rintro _ ⟨⟩
  exact hroot

end Uses

end Grammar

end SlotGrammar
