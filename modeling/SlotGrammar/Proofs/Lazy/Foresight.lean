import SlotGrammar.Proofs.Lazy.Sealing
import SlotGrammar.Proofs.Conduct

/-!
# Foresight

A run builds deferrals when it comes to them.  It does the same in a grammar in which all
that it builds, and more, is there already: it finds what it would have built, under the
same numbers.

Main results:

- Theorem `exec_foreseen`: an attempt does the same where all that it builds is there.
-/

namespace SlotGrammar

open Grammar

variable {V α : Type}

/-! ## Stores -/

namespace Stores

/-- Some stores, and empty ones behind them up to a number. -/
def padded (stores : Stores V α) (n : Nat) : Stores V α :=
  stores ++ Array.replicate (n - stores.size) ({} : Store V α)

variable {stores stores' : Stores V α} {n : Nat}

/-- The stores that were there are not touched by padding. -/
theorem padded_getElem? {s : StoreId} (hs : s < stores.size) :
    (stores.padded n)[s]? = stores[s]? :=
  Array.getElem?_append_left hs

/-- Empty stores stay empty when what happens to them leaves them so. -/
theorem padded_modify {s : StoreId} {f : Store V α → Store V α} (h : s < stores.size ∨ f {} = {}) :
    Array.modify (stores.padded n) s f = padded (Array.modify stores s f) n := by
  refine Array.ext_getElem? fun i => ?_
  unfold padded
  rw [Array.getElem?_modify, Array.size_modify, Array.getElem?_append, Array.getElem?_append,
    Array.size_modify, Array.getElem?_modify]
  by_cases hi : i < stores.size
  · simp only [hi, if_true]
  · simp only [hi, if_false, Array.getElem?_replicate]
    by_cases hs : s = i
    · subst hs
      have hf := h.resolve_left hi
      split <;> simp_all
    · simp [hs]

/-- Padded stores lose the same slots. -/
theorem padded_dropSlots (id : SessionId) (k : Nat) (slots : List (Option StoreId))
    (stores : Stores V α) :
    Session.dropSlots id k slots (stores.padded n) =
      (Session.dropSlots id k slots stores).padded n := by
  induction slots generalizing k stores with
  | nil => rfl
  | cons slot slots ih =>
    cases slot with
    | none => exact ih (k + 1) stores
    | some s =>
      rw [Session.dropSlots, Session.dropSlots, padded_modify (.inr rfl)]
      exact ih (k + 1) _

/-- Padded stores settle a session alike. -/
theorem padded_finish (ses : Session) (matched : Bool) (stores : Stores V α) :
    ses.finish matched (stores.padded n) = (ses.finish matched stores).padded n := by
  unfold Session.finish
  induction ses.journal generalizing stores with
  | nil => rfl
  | cons slot slots ih =>
    rw [List.foldl_cons, List.foldl_cons]
    cases slot with
    | none => exact ih stores
    | some s =>
      dsimp only
      rw [padded_modify (.inr (by cases matched <;> rfl))]
      exact ih _

/-- Padded stores settle a call alike. -/
theorem padded_settleIn (ses : Session) {s : StoreId} (hs : s < stores.size) (k : Nat)
    (outcome : Outcome V α) :
    ses.settleIn s k outcome (stores.padded n) = (ses.settleIn s k outcome stores).padded n := by
  unfold Session.settleIn
  unfold Session.dropFrom
  rw [padded_dropSlots, padded_modify (.inl ?_)]
  rw [Session.size_dropSlots]
  exact hs

/-- Stores that were empty when they were added make no difference. -/
theorem padded_eq (hle : stores.size ≤ stores'.size) (hn : stores'.size ≤ n)
    (hkept : ∀ s < stores.size, stores'[s]? = stores[s]?)
    (hblank : ∀ (s : StoreId) (store : Store V α), stores.size ≤ s → stores'[s]? = some store →
      store = {}) : stores'.padded n = stores.padded n := by
  refine Array.ext_getElem? fun i => ?_
  unfold padded
  rw [Array.getElem?_append, Array.getElem?_append, Array.getElem?_replicate,
    Array.getElem?_replicate]
  by_cases hi : i < stores.size
  · rw [if_pos hi, if_pos (Nat.lt_of_lt_of_le hi hle), hkept i hi]
  · rw [if_neg hi]
    by_cases hi' : i < stores'.size
    · have hstore := hblank i _ (Nat.le_of_not_lt hi) (Array.getElem?_eq_getElem hi')
      rw [if_pos hi', Array.getElem?_eq_getElem hi', hstore, if_pos (by omega)]
    · rw [if_neg hi']
      by_cases hin : i < n
      · rw [if_pos (by omega), if_pos (by omega)]
      · rw [if_neg (by omega), if_neg (by omega)]

/-- Padding commits nothing. -/
theorem committed_padded (stores : Stores V α) (n : Nat) :
    (stores.padded n).committed = stores.committed := by
  funext s key k
  unfold committed padded
  rw [Array.getElem?_append]
  by_cases hs : s < stores.size
  · rw [if_pos hs]
  · rw [if_neg hs, Array.getElem?_eq_none (Nat.le_of_not_lt hs), Array.getElem?_replicate]
    split <;> rfl

end Stores

/-! ## Shadows -/

/-- A grammar with what is recorded in another one. -/
def Grammar.onto (m g : Grammar V α) : Grammar V α :=
  { g with stores := Stores.padded m.stores g.stores.size, nextSession := m.nextSession }

/-- The events that do not tell of what was built. -/
def Event.untallied (events : List (Event V α)) : List (Event V α) :=
  events.filter fun event =>
    match event with
    | .tallied _ => false
    | _ => true

/-- Whether two runs are in the same state, but for what is there in the grammar of one of
them. -/
structure Run.Shadow (g : Grammar V α) (run shadow : Run V α) : Prop where
  grammar : shadow.grammar = run.grammar.onto g
  session : shadow.session = run.session
  log : Event.untallied shadow.log = Event.untallied run.log

namespace Run.Shadow

variable {g : Grammar V α} {run shadow : Run V α}

/-- A shadow stands at the same ordinal. -/
theorem ordinal?_eq (h : Shadow g run shadow) : shadow.ordinal? = run.ordinal? :=
  congrArg (Option.map Session.ordinal) h.session

/-- A shadow notes the same events. -/
theorem noted (h : Shadow g run shadow) (event : Event V α) :
    Shadow g (run.noted event) (shadow.noted event) := by
  refine ⟨h.grammar, h.session, ?_⟩
  unfold Run.noted Event.untallied
  rw [List.filter_cons, List.filter_cons]
  have hlog := h.log
  unfold Event.untallied at hlog
  rw [hlog]

/-- A shadow goes on in the same session. -/
theorem withSession (h : Shadow g run shadow) (session : Option Session) :
    Shadow g (run.withSession session) (shadow.withSession session) :=
  ⟨h.grammar, rfl, h.log⟩

/-- A shadow goes on with the padded stores. -/
theorem withStores (h : Shadow g run shadow) {stores stores' : Stores V α}
    (hstores : stores' = stores.padded g.stores.size) :
    Shadow g (run.withStores stores) (shadow.withStores stores') := by
  refine ⟨?_, h.session, h.log⟩
  show { shadow.grammar with stores := stores' } = _
  rw [h.grammar, hstores]
  rfl

/-- The stores of a shadow are the padded ones. -/
theorem stores_eq (h : Shadow g run shadow) :
    shadow.grammar.stores = Stores.padded run.grammar.stores g.stores.size := by
  rw [h.grammar]
  rfl

/-- A shadow enters the same calls. -/
theorem entering (h : Shadow g run shadow) (r : Recognizer V α) (pos : Position) :
    Shadow g (run.entering r pos) (shadow.entering r pos) := by
  unfold Run.entering
  rw [h.ordinal?_eq]
  exact h.noted _

/-- A shadow leaves the same calls. -/
theorem leaving (h : Shadow g run shadow) (r : Recognizer V α) (pos : Position)
    (ending : Ending V α) : Shadow g (run.leaving r pos ending) (shadow.leaving r pos ending) := by
  unfold Run.leaving
  rw [h.ordinal?_eq]
  exact h.noted _

/-- A shadow records the same outcomes. -/
theorem built (h : Shadow g run shadow) {s : StoreId} (hs : s < run.grammar.stores.size) (k : Nat)
    (ending : Ending V α) : Shadow g (Act.built s k ending run) (Act.built s k ending shadow) := by
  unfold Act.built
  rw [h.session]
  cases ending with
  | error e => exact h.withSession _
  | ok outcome =>
    cases run.session with
    | none => exact h.withSession _
    | some ses =>
      refine (h.withStores ?_).withSession _
      rw [h.stores_eq, Stores.padded_settleIn ses hs]

/-- A shadow starts the same parses. -/
theorem opened (h : Shadow g run shadow) (ctx : Context V α) (root : Recognizer V α) :
    Shadow g (run.opened ctx root) (shadow.opened ctx root) := by
  obtain ⟨grammar, session, log⟩ := shadow
  obtain ⟨rfl, rfl, hlog⟩ := h
  unfold Run.opened
  split
  · exact ⟨rfl, rfl, hlog⟩
  · exact ⟨rfl, rfl, hlog⟩

/-- A shadow ends the same parses. -/
theorem closed (h : Shadow g run shadow) (outer : Option Session) (ending : Ending V α) :
    Shadow g (run.closed outer ending) (shadow.closed outer ending) := by
  cases hses : run.session with
  | none =>
    rw [Run.closed_of_no_session hses, Run.closed_of_no_session (h.session.trans hses)]
    exact h.withSession outer
  | some ses =>
    rw [Run.closed_of_session hses, Run.closed_of_session (h.session.trans hses)]
    refine (h.withStores ?_).withSession outer
    rw [h.stores_eq, Stores.padded_finish]

/-- Shadows replay the same. -/
theorem way_eq (h : Shadow g run shadow) {caching : Caching}
    (hs : ∀ s, caching.store? = some s → s < run.grammar.stores.size) :
    shadow.way caching = run.way caching := by
  cases caching with
  | never => rfl
  | paused s => rfl
  | active s =>
    have hreplay : ∀ ses, Act.replay? shadow s ses = Act.replay? run s ses := by
      intro ses
      unfold Act.replay?
      rw [h.stores_eq, Stores.padded_getElem? (hs s rfl)]
    unfold Run.way
    rw [h.session]
    simp only [hreplay]

end Run.Shadow

/-! ## What a run keeps -/

namespace Run

/-- What is recorded has no part in what a grammar has. -/
theorem bare_withStores {run : Run V α} {stores : Stores V α}
    (h : stores.size = run.grammar.stores.size) :
    (run.withStores stores).grammar.bare = run.grammar.bare := by
  show { run.grammar with stores := Array.replicate stores.size {}, nextSession := 0 } = _
  rw [h]
  rfl

/-- A call that is over has built no recognizer. -/
theorem bare_built (s : StoreId) (k : Nat) (ending : Ending V α) (run : Run V α) :
    (Act.built s k ending run).grammar.bare = run.grammar.bare := by
  unfold Act.built
  split
  · exact bare_withStores (Session.size_settleIn _ s k _ _)
  · rfl

/-- The start of a parse builds no recognizer. -/
theorem bare_opened (ctx : Context V α) (root : Recognizer V α) (run : Run V α) :
    (run.opened ctx root).grammar.bare = run.grammar.bare := by
  unfold opened
  split <;> rfl

/-- The end of a parse builds no recognizer. -/
theorem bare_closed (outer : Option Session) (ending : Ending V α) (run : Run V α) :
    (run.closed outer ending).grammar.bare = run.grammar.bare := by
  cases hses : run.session with
  | none => rw [closed_of_no_session hses]; rfl
  | some ses =>
    rw [closed_of_session hses]
    exact bare_withStores (ses.size_finish _ _)

end Run

/-! ## Foreseen actions -/

/-- Whether an action does the same from a state, with the same snapshots, in a grammar in which
all that it builds is there already. -/
def Act.ForeseenFrom (run : Run V α) (act : Act V α (Outcome V α))
    (see : Run V α → List (Snapshot V α)) : Prop :=
  ∃ g', run.grammar.bare.Unfolds g' ∧ (∀ x ∈ act run, x.2.grammar.bare = g') ∧
    ∀ (h : Grammar V α) (shadow : Run V α), g'.Unfolds h → run.Shadow h.sealed shadow →
      Option.Rel (fun x y => y.1 = x.1 ∧ x.2.Shadow h.sealed y.2) (act run) (act shadow) ∧
        (see shadow).map Snapshot.occasion = (see run).map Snapshot.occasion

/-- Whether an action does so from all states in which a grammar has been unfolded. -/
def Act.Foreseen (g : Grammar V α) (act : Act V α (Outcome V α))
    (see : Run V α → List (Snapshot V α)) : Prop :=
  ∀ run : Run V α, g.Unfolds run.grammar.bare → Act.ForeseenFrom run act see

/-- Snapshots behind an action are the same if they only depend on how it ends. -/
theorem Act.ForeseenFrom.afterwards {run : Run V α} {act : Act V α (Outcome V α)}
    {see : Run V α → List (Snapshot V α)} (h : Act.ForeseenFrom run act see)
    (last : Ending V α → Run V α → List (Snapshot V α))
    (hlast : ∀ ending after after',
      (last ending after').map Snapshot.occasion = (last ending after).map Snapshot.occasion) :
    Act.ForeseenFrom run act fun run => see run ++ Snapshot.afterwards (act run) last := by
  obtain ⟨g', hg', hend, hsame⟩ := h
  refine ⟨g', hg', hend, ?_⟩
  intro h shadow hh ht
  obtain ⟨hrel, hsee⟩ := hsame h shadow hh ht
  refine ⟨hrel, ?_⟩
  rw [List.map_append, List.map_append, hsee]
  congr 1
  cases hact : act run with
  | none =>
    rw [hact] at hrel
    rw [eq_none_of_rel_none hrel]
  | some x =>
    rw [hact] at hrel
    obtain ⟨⟨ending, after⟩, hshadow, rfl, -⟩ := exists_of_rel_some hrel
    rw [hshadow]
    exact hlast _ _ _

namespace Act.Foreseen

variable {g : Grammar V α} {act act' : Act V α (Outcome V α)}
  {see see' : Run V α → List (Snapshot V α)}

/-- What ends at once is foreseen. -/
theorem endAs (ending : Ending V α) : Foreseen g (Act.endAs ending) fun _ => [] := by
  intro run _
  refine ⟨_, .refl, ?_, fun h shadow _ hshadow => ⟨?_, rfl⟩⟩
  · intro x hx
    rw [Act.endAs_apply] at hx
    cases hx
    rfl
  · rw [Act.endAs_apply, Act.endAs_apply]
    exact .some ⟨rfl, hshadow⟩

/-- What goes deeper than its limit is foreseen. -/
theorem exhausted : Foreseen g (Act.exhausted : Act V α (Outcome V α)) fun _ => [] :=
  fun _ _ => ⟨_, .refl, by simp, fun _ _ _ _ => ⟨.none, rfl⟩⟩

/-- An action after a step that builds nothing. -/
theorem of_step (h : Foreseen g act see) (f : Run V α → Run V α)
    (hact : ∀ run, act' run = act (f run))
    (hsee : ∀ run, see' run = see (f run))
    (hbare : ∀ run, (f run).grammar.bare = run.grammar.bare)
    (hshadow : ∀ (h : Grammar V α) (run shadow : Run V α), run.Shadow h shadow →
      (f run).Shadow h (f shadow)) : Foreseen g act' see' := by
  intro run hrun
  obtain ⟨g', hg', hend, hsame⟩ := h (f run) (by rwa [hbare])
  rw [hbare] at hg'
  refine ⟨g', hg', by rwa [hact], ?_⟩
  intro h shadow hh ht
  rw [hact, hact, hsee, hsee]
  exact hsame h (f shadow) hh (hshadow _ _ _ ht)

/-- An action that goes on as a first one has ended. -/
theorem call (h : Foreseen g act see) {next : Ending V α → Act V α (Outcome V α)}
    {seeNext : Ending V α → Run V α → List (Snapshot V α)}
    (hnext : ∀ ending, Foreseen g (next ending) (seeNext ending)) :
    Foreseen g (fun run => (act run).bind fun x => next x.1 x.2) fun run =>
      see run ++ Snapshot.afterwards (act run) seeNext := by
  intro run hrun
  obtain ⟨g₁, hg₁, hend, hsame⟩ := h run hrun
  cases hact : act run with
  | none =>
    refine ⟨g₁, hg₁, by simp [hact], ?_⟩
    intro h shadow hh ht
    obtain ⟨hrel, hsee⟩ := hsame h shadow hh ht
    rw [hact] at hrel
    have hshadow := eq_none_of_rel_none hrel
    refine ⟨by simp [hact, hshadow], ?_⟩
    simpa [hact, hshadow, Snapshot.afterwards] using hsee
  | some x =>
    have hx : x.2.grammar.bare = g₁ := hend x hact
    obtain ⟨g₂, hg₂, hend₂, hsame₂⟩ := hnext x.1 x.2 (hrun.trans (hx ▸ hg₁))
    refine ⟨g₂, hg₁.trans (hx ▸ hg₂), by simpa [hact] using hend₂, ?_⟩
    intro h shadow hh ht
    obtain ⟨hrel, hsee⟩ := hsame h shadow ((hx ▸ hg₂ : g₁.Unfolds g₂).trans hh) ht
    rw [hact] at hrel
    obtain ⟨⟨ending, after⟩, hshadow, rfl, hafter⟩ := exists_of_rel_some hrel
    obtain ⟨hrel₂, hsee₂⟩ := hsame₂ h after hh hafter
    refine ⟨by simpa [hact, hshadow] using hrel₂, ?_⟩
    simp only [hact, hshadow, Snapshot.afterwards, List.map_append, hsee, hsee₂]

/-- An action with a step behind it that builds nothing. -/
theorem map (h : Foreseen g act see) {f : Run V α → Ending V α → Run V α → Run V α}
    (hbare : ∀ run ending after, (f run ending after).grammar.bare = after.grammar.bare)
    (hshadow : ∀ (h : Grammar V α) (run shadow after after' : Run V α) (ending : Ending V α),
      g.Unfolds after.grammar.bare → run.Shadow h shadow → after.Shadow h after' →
        (f run ending after).Shadow h (f shadow ending after')) :
    Foreseen g (fun run => (act run).map fun x => (x.1, f run x.1 x.2)) see := by
  intro run hrun
  obtain ⟨g₁, hg₁, hend, hsame⟩ := h run hrun
  refine ⟨g₁, hg₁, ?_, ?_⟩
  · intro x hx
    obtain ⟨y, hy, rfl⟩ := Option.map_eq_some_iff.1 hx
    exact (hbare _ _ _).trans (hend y hy)
  · intro h shadow hh ht
    obtain ⟨hrel, hsee⟩ := hsame h shadow hh ht
    refine ⟨?_, hsee⟩
    show Option.Rel _ ((act run).map _) ((act shadow).map _)
    cases hact : act run with
    | none =>
      rw [hact] at hrel
      rw [eq_none_of_rel_none hrel]
      exact .none
    | some x =>
      rw [hact] at hrel
      obtain ⟨⟨ending, after⟩, hother, rfl, hafter⟩ := exists_of_rel_some hrel
      rw [hother]
      exact .some ⟨rfl, hshadow _ _ _ _ _ _ ((hend x hact).symm ▸ hrun.trans hg₁) ht hafter⟩

/-- The snapshots need not be looked at. -/
theorem unseen (h : Foreseen g act see) : Foreseen g act fun _ => [] := by
  intro run hrun
  obtain ⟨g', hg', hend, hsame⟩ := h run hrun
  exact ⟨g', hg', hend, fun h shadow hh ht => ⟨(hsame h shadow hh ht).1, rfl⟩⟩

/-- A parse is foreseen when the attempt of its root is. -/
theorem inSession (h : Foreseen g act see) (ctx : Context V α) (root : Recognizer V α) :
    Foreseen g (Act.inSession ctx root act) fun run => see (run.opened ctx root) := by
  have hopened := h.of_step (·.opened ctx root) (fun _ => rfl) (fun _ => rfl)
    (Run.bare_opened ctx root) fun _ _ _ ht => ht.opened ctx root
  have hclosed := map (f := fun run ending after => after.closed run.session ending) hopened
    (fun run ending after => Run.bare_closed run.session ending after) (by
      intro h run shadow after after' ending _ ht hafter
      rw [ht.session]
      exact hafter.closed run.session ending)
  exact hclosed.of_step id (Act.inSession_eq ctx root act) (fun _ => rfl) (fun _ => rfl)
    fun _ _ _ ht => ht

/-- A script does the same when the attempts of its parts do. -/
theorem play {attempt : Attempt V α} {watch : Watch V α} {ctx : Context V α}
    {nesting : Nesting V α} {shape : Shape V α (Recognizer V α)} (hshape : shape.Contained)
    (hparts : ∀ p ∈ shape.parts, ∀ pos,
      Foreseen g (attempt ctx p pos) (watch nesting ctx p pos))
    {script : Script V α} (hscript : script.Within shape) :
    Foreseen g (script.play attempt ctx) (script.snapshots attempt watch nesting ctx) := by
  induction hscript with
  | ended ending => exact endAs ending
  | exhausted => exact exhausted
  | @call p pos next hp _ _ ih =>
    have hcall := (hparts p hp pos).call ih
    refine hcall.of_step id (fun run => Script.play_call_apply p pos next run) (fun _ => rfl)
      (fun _ => rfl) fun _ _ _ ht => ht
  | nest h _ _ =>
    subst h
    exact hshape.elim
  | clear h _ _ =>
    subst h
    exact hshape.elim
  | @note event next _ _ ih =>
    exact ih.of_step (·.noted event) (fun _ => rfl) (fun _ => rfl) (fun _ => rfl)
      fun _ _ _ ht => ht.noted event
  | @probe label p pos h =>
    have hp : p ∈ shape.parts := by simp [h, Shape.parts]
    have hprobe := map (f := fun run ending after =>
        after.noted (.probed label pos run.ordinal? after.ordinal? ending)) (hparts p hp pos)
      (fun _ _ _ => rfl) (by
        intro h run shadow after after' ending _ ht hafter
        rw [ht.ordinal?_eq, hafter.ordinal?_eq]
        exact hafter.noted _)
    exact hprobe.of_step id (fun run => Part.probed_eq label (attempt ctx p) pos run)
      (fun _ => rfl) (fun _ => rfl) fun _ _ _ ht => ht

end Act.Foreseen

/-! ## Links -/

section Following

variable {T : Shape V α Unit → Prop} {g a b : Grammar V α} {ctx : Context V α} {run : Run V α}

/-- Whether a run holds only recognizers that are native to a grammar. -/
def Context.Native (T : Shape V α Unit → Prop) (g : Grammar V α) (ctx : Context V α) : Prop :=
  ∀ r ∈ ctx.held, r.Native T g

/-- A recognizer of a grammar is one of every grammar with greater counters. -/
theorem Recognizer.Native.mono {r : Recognizer V α} (h : r.Native T g)
    (hle : ∀ k, g.count k ≤ a.count k) : r.Native T a :=
  Recognizer.Matches.mono (Matching.below_mono hle) h

/-- The store of a native recognizer is one of the grammar. -/
theorem Recognizer.Native.store_lt {r : Recognizer V α} (h : r.Native T g) {s : StoreId}
    (hs : r.handle.caching.store? = some s) : s < g.stores.size := by
  rcases (Recognizer.Matches.handle h).caching.store? with ⟨hnone, -⟩ | ⟨s', t, hs', ht, hst⟩
  · rw [hs] at hnone
    cases hnone
  · rw [hs] at hs'
    cases hs'
    exact hst.2

/-- A context of a grammar is one of every grammar with greater counters. -/
theorem Context.Native.mono (h : ctx.Native T g) (hle : ∀ k, g.count k ≤ a.count k) :
    ctx.Native T a :=
  fun r hr => (h r hr).mono hle

/-- A context may hold one more recognizer of its grammar. -/
theorem Context.Native.hold (h : ctx.Native T g) {r : Recognizer V α} (hr : r.Native T g) :
    (ctx.hold r).Native T g := by
  unfold Context.hold
  split
  · exact h
  · intro q hq
    rcases List.mem_cons.1 hq with rfl | hq
    · exact hr
    · exact h q hq

/-- Stores that a grammar has added make no difference where they are there already. -/
theorem Grammar.Enlarges.onto_eq (h : a.Enlarges b) (hle : b.stores.size ≤ g.stores.size) :
    b.onto g = a.onto g := by
  unfold Grammar.onto
  rw [h.nextSession_eq, Stores.padded_eq h.size_le hle h.kept h.blank]

/-- What is recorded has no part in which definitions live. -/
theorem Grammar.definition?_congr (hnames : b.names = a.names)
    (hdefinitions : b.definitions = a.definitions) (hdeferrals : b.deferrals = a.deferrals)
    (held : List (Recognizer V α)) (cell : Nat) :
    b.definition? held cell = a.definition? held cell := by
  have hholds : b.Holds = a.Holds := by
    funext l k
    unfold Holds linksBehind
    rw [hdefinitions, hdeferrals]
  have halive : b.isAlive held cell = a.isAlive held cell := by
    rw [Bool.eq_iff_iff, isAlive_iff, isAlive_iff]
    unfold Kept Reaches
    rw [hholds, hnames]
  unfold definition?
  rw [halive, hdefinitions]

/-- Whether following a link from a state finds the same, and what is native, where all that it
builds is there already. -/
def Act.FindsForeseen (T : Shape V α Unit → Prop) (ctx : Context V α) (l : Link) (run : Run V α) :
    Prop :=
  ∃ found mid, Act.follow ctx l run = some (.ok found, mid) ∧
    run.grammar.bare.Unfolds mid.grammar.bare ∧
    (∀ x ∈ found, x.2.Native T mid.grammar.bare ∧ x.1.Native T mid.grammar.bare) ∧
    ∀ (h : Grammar V α) (shadow : Run V α), mid.grammar.bare.Unfolds h →
      run.Shadow h.sealed shadow →
      ∃ mid', Act.follow ctx l shadow = some (.ok found, mid') ∧ mid.Shadow h.sealed mid'

section Links

variable (htidy : run.grammar.bare.Tidy T) (hctx : ctx.Native T run.grammar.bare) {c : Nat}

include htidy

/-- What a grammar has is there in all that unfolds from it, sealed or not. -/
theorem Grammar.Tidy.precedes_later {mid h : Grammar V α} (hmid : run.grammar.bare.Unfolds mid)
    (hh : mid.Unfolds h) : mid.Precedes h.sealed :=
  (Precedes.unfolds (htidy.unfolds hmid) hh).trans (precedes_sealed _)

/-- A settled deferral is found where all that has been built since is there. -/
theorem Act.follow_settled {mid : Grammar V α} (hmid : run.grammar.bare.Unfolds mid)
    {r : Recognizer V α} (hr : mid.deferrals[c]? = some (.settled r)) {h : Grammar V α}
    (hh : mid.Unfolds h) {shadow : Run V α} (hshadow : run.Shadow h.sealed shadow) :
    Act.follow ctx (.deferred c) shadow = some (.ok (some (ctx, r)), shadow) := by
  have hstep : Act.follow ctx (.deferred c) shadow =
      (Act.settled c >>= fun found => pure (found.map fun r => (ctx, r))) shadow := rfl
  have hr : shadow.grammar.deferrals[c]? = some (.settled r) := by
    rw [hshadow.grammar]
    exact (htidy.precedes_later hmid hh).settled c r hr
  rw [hstep, Act.bind_apply, Act.settled_of_settled hr]
  rfl

include hctx

/-- To follow a link to a definition is foreseen. -/
theorem Act.definition_foreseen (hc : c < run.grammar.definitions.size) :
    Act.FindsForeseen T ctx (.definition c) run := by
  refine ⟨_, run, rfl, .refl, ?_, ?_⟩
  · intro x hx
    obtain ⟨r, hr, rfl⟩ := Option.map_eq_some_iff.1 hx
    exact ⟨htidy.whole.definitions c r (Option.join_eq_some_iff.1 hr), hctx⟩
  · intro h shadow hh hshadow
    refine ⟨shadow, ?_, hshadow⟩
    have hsame : shadow.grammar.definitions[c]? = run.grammar.definitions[c]? := by
      rw [hshadow.grammar]
      exact (htidy.precedes_later .refl hh).definitions c hc
    show some (Except.ok ((shadow.grammar.definitions[c]?.join).map fun r => (ctx, r)),
      shadow) = _
    rw [hsame]

/-- A definition lives on in all that unfolds. -/
theorem Act.self_foreseen (hc : c < run.grammar.definitions.size) :
    Act.FindsForeseen T ctx (.self c) run := by
  refine ⟨_, run, rfl, .refl, ?_, ?_⟩
  · intro x hx
    obtain ⟨r, hr, rfl⟩ := Option.map_eq_some_iff.1 hx
    unfold Grammar.definition? at hr
    split at hr
    · have hr := htidy.whole.definitions c r (Option.join_eq_some_iff.1 hr)
      exact ⟨hr, hctx.hold hr⟩
    · cases hr
  · intro h shadow hh hshadow
    refine ⟨shadow, ?_, hshadow⟩
    have hsame : shadow.grammar.definition? ctx.held c = run.grammar.definition? ctx.held c :=
      calc shadow.grammar.definition? ctx.held c
        _ = h.sealed.definition? ctx.held c := by
          rw [hshadow.grammar]
          exact definition?_congr (a := h.sealed) (b := run.grammar.onto h.sealed) rfl rfl rfl _ _
        _ = run.grammar.bare.definition? ctx.held c :=
          (htidy.precedes_later .refl hh).definition?_eq hctx hc
        _ = run.grammar.definition? ctx.held c :=
          definition?_congr (a := run.grammar) (b := run.grammar.bare) rfl rfl rfl _ _
    show some (Except.ok ((shadow.grammar.definition? ctx.held c).map fun r => (ctx.hold r, r)),
      shadow) = _
    rw [hsame]

/-- A deferral that is built on the way is found settled, with what would be built. -/
theorem Act.deferred_foreseen (hc : c < run.grammar.deferrals.size) :
    Act.FindsForeseen T ctx (.deferred c) run := by
  have hstep : Act.follow ctx (.deferred c) run =
      (Act.settled c >>= fun found => pure (found.map fun r => (ctx, r))) run := rfl
  cases hcell : run.grammar.deferrals[c]? with
  | none => exact absurd (Array.getElem?_eq_none_iff.1 hcell) (Nat.not_le_of_lt hc)
  | some d =>
    cases d with
    | settled r =>
      refine ⟨some (ctx, r), run, ?_, .refl, ?_, ?_⟩
      · rw [hstep, Act.bind_apply, Act.settled_of_settled hcell]
        rfl
      · intro x hx
        cases hx
        exact ⟨htidy.whole.settled c r hcell, hctx⟩
      · exact fun h shadow hh hshadow =>
          ⟨shadow, Act.follow_settled htidy .refl hcell hh hshadow, hshadow⟩
    | awaiting label e scope =>
      -- the deferral is built now, and stays settled in whatever unfolds from here
      let built := build scope e run.grammar
      have hfollow : Act.follow ctx (.deferred c) run =
          some (.ok (some (ctx, built.1)), run.supplied c label built) := by
        rw [hstep, Act.bind_apply, Act.settled_of_unsettled hcell]
        rfl
      have hsupplies : run.grammar.bare.Supplies (run.supplied c label built).grammar.bare :=
        ⟨c, label, e, scope, hcell, (supplied_bare run.grammar c e scope).symm⟩
      have hmid := Relation.ReflTransGen.single hsupplies
      have hsettled : (run.supplied c label built).grammar.deferrals[c]? =
          some (.settled built.1) := by
        have hdeferral := deferrals_supplied htidy.whole hcell c
        rw [if_pos rfl, build_unaware e scope run.grammar, supplied_bare] at hdeferral
        exact hdeferral
      have htidy' := htidy.unfolds hmid
      refine ⟨_, _, hfollow, hmid, ?_, ?_⟩
      · intro x hx
        cases hx
        exact ⟨htidy'.whole.settled c _ hsettled,
          hctx.mono (Precedes.unfolds htidy hmid).count_le⟩
      · intro h shadow hh hshadow
        refine ⟨shadow, Act.follow_settled htidy hmid hsettled hh hshadow, ?_, hshadow.session, ?_⟩
        · have hgrow := (Enlarges.followed hfollow).1
          have hle := (htidy.precedes_later hmid hh).count_le .store
          rw [count_bare] at hle
          rw [hshadow.grammar, hgrow.onto_eq hle]
        · rw [hshadow.log]
          rfl

end Links

/-- Following a link finds the same where all that is built is there. -/
theorem Act.follow_foreseen (hg : g.Tidy T) (hctx : ctx.Native T g) {l : Link}
    (hl : l.Matches (.below g) l) (hrun : g.Unfolds run.grammar.bare) :
    Act.FindsForeseen T ctx l run := by
  have htidy := hg.unfolds hrun
  have hle := (Precedes.unfolds hg hrun).count_le
  have hctx := hctx.mono hle
  cases hl with
  | unbound =>
    exact ⟨none, run, rfl, .refl, by simp, fun _ shadow _ hshadow => ⟨shadow, rfl, hshadow⟩⟩
  | definition hc =>
    exact Act.definition_foreseen htidy hctx (Nat.lt_of_lt_of_le hc.2 (hle .definition))
  | self hc => exact Act.self_foreseen htidy hctx (Nat.lt_of_lt_of_le hc.2 (hle .definition))
  | deferred hc => exact Act.deferred_foreseen htidy hctx (Nat.lt_of_lt_of_le hc.2 (hle .deferral))

end Following

/-! ## Attempts -/

/-- Whether attempts of what is native to a grammar do the same, with the same snapshots, where
all that they build is there already. -/
def Attempt.Foreseen (T : Shape V α Unit → Prop) (attempt : Attempt V α) (watch : Watch V α) :
    Prop :=
  ∀ ⦃g : Grammar V α⦄ (nesting : Nesting V α) ⦃ctx : Context V α⦄ ⦃r : Recognizer V α⦄
    (pos : Position), g.Tidy T → ctx.Native T g → r.Native T g →
    Act.Foreseen g (attempt ctx r pos) (watch nesting ctx r pos)

section Attempts

variable {T : Shape V α Unit → Prop} {g : Grammar V α} {ctx : Context V α}
  {nesting : Nesting V α} {r : Recognizer V α} {pos : Position}

/-- A recognizer's own logic does the same when the attempts in it do. -/
theorem Attempt.Foreseen.work {attempt : Attempt V α} {watch : Watch V α}
    (h : attempt.Foreseen T watch)
    (hkind : ∀ shape : Shape V α (Recognizer V α), T shape.outline → shape.Contained)
    (hg : g.Tidy T) (hctx : ctx.Native T g) (hr : r.Native T g) (limit : Nat)
    (nesting : Nesting V α) (pos : Position) : Act.Foreseen g (r.work attempt limit ctx pos)
      (r.workSnapshots attempt watch limit nesting ctx pos) := by
  cases r with
  | node handle shape =>
    have hscript := Act.Foreseen.play (hkind shape hr.parts.1)
      (fun p hp pos => h nesting pos hg hctx (hr.parts.2 p hp))
      (Script.within_script limit ctx.view shape pos)
    rw [Script.play_script] at hscript
    exact hscript
  | link handle l =>
    intro run hrun
    have hl : l.Matches (.below g) l := by
      cases hr with
      | link _ hl => exact hl
    obtain ⟨found, mid, hfollow, hmid, hfound, hsame⟩ := Act.follow_foreseen hg hctx hl hrun
    have htidy := hg.unfolds (hrun.trans hmid)
    cases found with
    | none =>
      refine ⟨_, hmid, ?_, ?_⟩
      · intro x hx
        rw [Recognizer.work_link_none hfollow] at hx
        cases hx
        rfl
      · intro h shadow hh ht
        obtain ⟨mid', hfollow', ht'⟩ := hsame h shadow hh ht
        rw [Recognizer.work_link_none hfollow, Recognizer.work_link_none hfollow']
        refine ⟨.some ⟨rfl, ht'⟩, ?_⟩
        rw [Recognizer.workSnapshots, Recognizer.workSnapshots, hfollow, hfollow']
    | some x =>
      obtain ⟨hx, hctx'⟩ := hfound x rfl
      obtain ⟨g', hg', hend, hsame'⟩ :=
        h nesting pos htidy hctx' hx mid .refl
      refine ⟨g', hmid.trans hg', ?_, ?_⟩
      · rwa [Recognizer.work_link_some hfollow]
      · intro h shadow hh ht
        obtain ⟨mid', hfollow', ht'⟩ := hsame h shadow (hg'.trans hh) ht
        rw [Recognizer.work_link_some hfollow, Recognizer.work_link_some hfollow']
        rw [Recognizer.workSnapshots, Recognizer.workSnapshots, hfollow, hfollow']
        exact hsame' h mid' hh ht'

section Calls

variable {attempt : Attempt V α} {watch : Watch V α} {limit : Nat} {run : Run V α}
  (hstore : ∀ s, r.handle.caching.store? = some s → s < run.grammar.stores.size)

include hstore

/-- A straight call is foreseen when its work is. -/
theorem Recognizer.foreseen_of_straight (hrun : g.Unfolds run.grammar.bare)
    (hwork : ∀ nesting, Act.Foreseen g (r.work attempt limit ctx pos)
      (r.workSnapshots attempt watch limit nesting ctx pos))
    (hway : run.way r.handle.caching = .straight) :
    Act.ForeseenFrom run (r.attempt attempt limit ctx pos)
      (r.callSnapshots attempt watch limit nesting ctx pos) := by
  have hinside := (hwork nesting).of_step (fun run => (run.entering r pos).atWork r pos)
    (fun _ => rfl) (fun _ => rfl) (fun _ => rfl) fun _ _ _ ht => (ht.entering r pos).noted _
  have hact := Act.Foreseen.map (f := fun _ ending after => after.leaving r pos ending) hinside
    (fun _ _ _ => rfl) fun _ _ _ _ _ ending _ _ hafter => hafter.leaving r pos ending
  obtain ⟨g', hg', hend, hsame⟩ := hact run hrun
  refine ⟨g', hg', ?_, ?_⟩
  · rw [Recognizer.attempt_eq_of_straight hway]
    exact hend
  · intro h shadow hh ht
    have hway' := (ht.way_eq hstore).trans hway
    obtain ⟨hrel, hsee⟩ := hsame h shadow hh ht
    refine ⟨?_, ?_⟩
    · rw [Recognizer.attempt_eq_of_straight hway, Recognizer.attempt_eq_of_straight hway']
      exact hrel
    · unfold Recognizer.callSnapshots
      rw [hway, hway']
      exact congrArg (_ :: ·) hsee

/-- A call that is replayed is foreseen. -/
theorem Recognizer.foreseen_of_replays {ses : Session} {o : Outcome V α}
    (hway : run.way r.handle.caching = .replays ses o) :
    Act.ForeseenFrom run (r.attempt attempt limit ctx pos)
      (r.callSnapshots attempt watch limit nesting ctx pos) := by
  refine ⟨_, .refl, ?_, ?_⟩
  · intro x hx
    rw [Recognizer.attempt_eq_of_replays hway] at hx
    cases hx
    rfl
  · intro h shadow _ ht
    have hway' := (ht.way_eq hstore).trans hway
    refine ⟨?_, ?_⟩
    · rw [Recognizer.attempt_eq_of_replays hway, Recognizer.attempt_eq_of_replays hway']
      exact .some ⟨rfl, ((ht.entering r pos).withSession _).leaving r pos _⟩
    · unfold Recognizer.callSnapshots
      rw [hway, hway']

/-- A call that builds its outcome is foreseen when its work is. -/
theorem Recognizer.foreseen_of_builds (hg : g.Tidy T) (hr : r.Native T g)
    (hrun : g.Unfolds run.grammar.bare)
    (hwork : ∀ nesting, Act.Foreseen g (r.work attempt limit ctx pos)
      (r.workSnapshots attempt watch limit nesting ctx pos))
    {s : StoreId} {ses : Session} (hway : run.way r.handle.caching = .builds s ses) :
    Act.ForeseenFrom run (r.attempt attempt limit ctx pos)
      (r.callSnapshots attempt watch limit nesting ctx pos) := by
  have hinside := (hwork (nesting.work ses.ordinal)).of_step
    (fun run => ((run.entering r pos).building ses).atWork r pos) (fun _ => rfl) (fun _ => rfl)
    (fun _ => rfl) fun _ _ _ ht => ((ht.entering r pos).withSession _).noted _
  have hlast : ∀ (ending : Ending V α) (after after' : Run V α),
      (Snapshot.afterWork nesting s ses.ordinal ending after').map Snapshot.occasion =
        (Snapshot.afterWork nesting s ses.ordinal ending after).map Snapshot.occasion := by
    intro ending after after'
    cases ending <;> rfl
  have hact := Act.Foreseen.map (g := g)
    (f := fun _ ending after => (Act.built s ses.ordinal ending after).leaving r pos ending)
    (fun run hrun => (hinside run hrun).afterwards _ hlast)
    (fun _ ending after => Run.bare_built s ses.ordinal ending after) (by
      intro h run shadow after after' ending hafter _ ht
      -- the store was there before the run, so what is recorded in it is no padding
      have hnative := hr.mono (Precedes.unfolds hg hafter).count_le
      have hs := hnative.store_lt (congrArg Caching.store? (Run.way_eq_builds hway).1)
      rw [show after.grammar.bare.stores.size = after.grammar.stores.size from
        congrFun (count_bare after.grammar) .store] at hs
      exact (ht.built hs ses.ordinal ending).leaving r pos ending)
  obtain ⟨g', hg', hend, hsame⟩ := hact run hrun
  refine ⟨g', hg', ?_, ?_⟩
  · rw [Recognizer.attempt_eq_of_builds hway]
    exact hend
  · intro h shadow hh ht
    have hway' := (ht.way_eq hstore).trans hway
    obtain ⟨hrel, hsee⟩ := hsame h shadow hh ht
    refine ⟨?_, ?_⟩
    · rw [Recognizer.attempt_eq_of_builds hway, Recognizer.attempt_eq_of_builds hway']
      exact hrel
    · unfold Recognizer.callSnapshots
      rw [hway, hway']
      exact congrArg (_ :: ·) hsee

end Calls

/-- One level of an attempt does the same when the level below does. -/
theorem Attempt.Foreseen.attempt {attempt : Attempt V α} {watch : Watch V α}
    (h : attempt.Foreseen T watch)
    (hkind : ∀ shape : Shape V α (Recognizer V α), T shape.outline → shape.Contained)
    (limit : Nat) : Attempt.Foreseen T (Recognizer.attempt attempt limit · · ·)
      (Recognizer.snapshots attempt watch limit) := by
  intro g nesting ctx r pos hg hctx hr run hrun
  have hnative := hr.mono (Precedes.unfolds hg hrun).count_le
  have hstore : ∀ s, r.handle.caching.store? = some s → s < run.grammar.stores.size := by
    intro s hs
    exact Nat.lt_of_lt_of_eq (hnative.store_lt hs) (congrFun (count_bare run.grammar) .store)
  have hwork : ∀ nesting, Act.Foreseen g (r.work attempt limit ctx pos)
      (r.workSnapshots attempt watch limit nesting ctx pos) :=
    fun nesting => h.work hkind hg hctx hr limit nesting pos
  have hcall : Act.ForeseenFrom run (r.attempt attempt limit ctx pos)
      (r.callSnapshots attempt watch limit nesting ctx pos) := by
    cases hway : run.way r.handle.caching with
    | straight => exact Recognizer.foreseen_of_straight hstore hrun hwork hway
    | replays ses o => exact Recognizer.foreseen_of_replays hstore hway
    | builds s ses => exact Recognizer.foreseen_of_builds hstore hg hr hrun hwork hway
  obtain ⟨g', hg', hend, hsame⟩ := hcall.afterwards
    (fun ending after => [⟨.returned r.handle pos ending, nesting, after⟩])
    fun _ _ _ => rfl
  refine ⟨g', hg', hend, fun h shadow hh ht => ?_⟩
  obtain ⟨hrel, hsee⟩ := hsame h shadow hh ht
  exact ⟨hrel, congrArg (_ :: ·) hsee⟩

/-- Attempts do the same where all that they build is there already. -/
theorem exec_foreseen
    (hkind : ∀ shape : Shape V α (Recognizer V α), T shape.outline → shape.Contained)
    (limit : Nat) : Attempt.Foreseen T (exec limit) (snapshots limit) := by
  induction limit with
  | zero => exact fun _ _ _ _ _ _ _ _ => .exhausted
  | succ limit ih => exact ih.attempt hkind limit

/-- So do attempts that ignore the caches. -/
theorem execPlain_foreseen
    (hkind : ∀ shape : Shape V α (Recognizer V α), T shape.outline → shape.Contained)
    (limit : Nat) : Attempt.Foreseen T (execPlain limit) fun _ _ _ _ _ => [] := by
  induction limit with
  | zero => exact fun _ _ _ _ _ _ _ _ => .exhausted
  | succ limit ih =>
    exact fun _ nesting _ _ pos hg hctx hr => (ih.work hkind hg hctx hr limit nesting pos).unseen

/-- So do attempts with frozen values. -/
theorem execFrozen_foreseen
    (hkind : ∀ shape : Shape V α (Recognizer V α), T shape.outline → shape.Contained)
    (frozen : StoreId → List V) (limit : Nat) :
    Attempt.Foreseen T (execFrozen frozen limit) fun _ _ _ _ _ => [] := by
  induction limit with
  | zero => exact fun _ _ _ _ _ _ _ _ => .exhausted
  | succ limit ih =>
    intro g nesting ctx r pos hg hctx hr
    unfold execFrozen
    cases r.handle.caching with
    | active s =>
      have hinner : Context.Native T g { ctx with values := frozen s } := hctx
      exact ((execPlain_foreseen hkind limit).work hkind hg hinner hr limit nesting pos).unseen
    | never => exact (ih.work hkind hg hctx hr limit nesting pos).unseen
    | paused s => exact (ih.work hkind hg hctx hr limit nesting pos).unseen

end Attempts

end SlotGrammar
