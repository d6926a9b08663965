import SlotGrammar.Proofs.Bookkeeping

/-!
# Calls that record nothing

Outcomes are committed where a parse settles its session after a match, and nowhere else.
So with shapes that start no parse and drop no outcomes, a parse that fails or is aborted,
a parse without caching and an attempt by itself leave the traces of every store as they
were.

Main results:

- Theorem `Enlarges.traces_eq`: stores that are added hold no traces.
- Theorem `InUse.unrecorded`: calls that must not record leave every store as it was.
-/

namespace SlotGrammar

variable {V α : Type}

/-! ## Traces -/

/-- The traces in a store, none if the store does not exist. -/
def Stores.traces (stores : Stores V α) (s : StoreId) :
    Table TraceKey (Table Nat (Outcome V α)) :=
  (stores[s]?.map Store.traces).getD .empty

namespace Stores

/-- A store is changed without a change of its traces. -/
theorem traces_modify (stores : Stores V α) (s : StoreId) {change : Store V α → Store V α}
    (h : ∀ store, (change store).traces = store.traces) :
    traces (Array.modify stores s change) = stores.traces := by
  ext t : 1
  unfold traces
  rw [Array.getElem?_modify]
  by_cases hst : s = t
  · subst hst
    rw [if_pos rfl]
    cases stores[s]? with
    | none => rfl
    | some store => simp [h]
  · rw [if_neg hst]

theorem traces_dropSlots (id : SessionId) (n : Nat) (slots : List (Option StoreId))
    (stores : Stores V α) :
    traces (Session.dropSlots id n slots stores) = stores.traces := by
  induction slots generalizing n stores with
  | nil => rfl
  | cons slot slots ih =>
    cases slot with
    | none => exact ih (n + 1) stores
    | some s =>
      rw [Session.dropSlots, ih]
      exact stores.traces_modify s fun _ => rfl

/-- A session that ends without a match leaves all traces. -/
theorem traces_finish_false (ses : Session) (stores : Stores V α) :
    traces (ses.finish false stores) = stores.traces := by
  rcases ses with ⟨id, key, journal, building⟩
  induction journal generalizing stores with
  | nil => rfl
  | cons slot journal ih =>
    rw [Session.finish_cons ⟨id, key, journal, building⟩, ih]
    cases slot with
    | none => rfl
    | some s => exact stores.traces_modify s fun _ => rfl

end Stores

/-- Stores that are added hold no traces. -/
theorem Grammar.Enlarges.traces_eq {g g' : Grammar V α} (h : g.Enlarges g') :
    g'.stores.traces = g.stores.traces := by
  ext s : 1
  unfold Stores.traces
  by_cases hlt : s < g.stores.size
  · rw [h.kept s hlt]
  · have hle := Nat.le_of_not_lt hlt
    rw [Array.getElem?_eq_none hle]
    cases hs : g'.stores[s]? with
    | none => rfl
    | some store =>
      rw [h.blank s store hle hs]
      rfl

/-- A call that has built its outcome leaves all traces. -/
theorem Act.traces_built (s : StoreId) (k : Nat) (ending : Ending V α) (run : Run V α) :
    (Act.built s k ending run).grammar.stores.traces = run.grammar.stores.traces := by
  cases hses : run.session with
  | none =>
    unfold Act.built
    rw [hses]
    cases ending <;> rfl
  | some ses =>
    cases ending with
    | error e =>
      rw [Run.built_error hses]
      rfl
    | ok outcome =>
      unfold Act.built
      rw [hses]
      have hrecord : Stores.traces (ses.settleIn s k outcome run.grammar.stores) =
          Stores.traces (ses.dropFrom (k + 1) run.grammar.stores) :=
        Stores.traces_modify _ s fun _ => rfl
      exact hrecord.trans (Stores.traces_dropSlots ses.id (k + 1) _ run.grammar.stores)

/-! ## Runs that record nothing -/

/-- Whether a recognizer may be attempted without a parse inside it or a drop of outcomes. -/
theorem Recognizer.Belongs.contained {n : Nat} {handle : Handle}
    {shape : Shape V α (Recognizer V α)}
    (h : (Recognizer.node handle shape).Belongs Shape.Contained n) : shape.Contained := by
  have hkind := h.kind handle shape .refl
  cases shape with
  | nested sub p => exact hkind
  | clearing t p => exact hkind
  | _ => trivial

/-- What happens in a run without parses in it and without drops leaves all traces. -/
def unrecording : Conduct V α where
  Ok nesting run := run.InOrder Shape.Contained nesting
  Knows g r := r.Belongs Shape.Contained g.stores.size
  Sees _ := True
  Goes run _ run' := run.Continues run' ∧ run'.grammar.stores.traces = run.grammar.stores.traces
  Fair _ := True
  refl run := ⟨⟨Nat.le_refl _, rfl⟩, rfl⟩
  trans h h' := ⟨h.1.trans h'.1, h'.2.trans h.2⟩
  knows_goes h hr := hr.mono h.1.size_le
  knows_part h hp := h.part hp
  entered _ _ _ := trivial
  working _ _ _ := trivial
  returned _ _ _ _ := trivial
  noted event haside h :=
    have hnoted := (bookkeeping Shape.Contained).noted event haside h
    ⟨hnoted.1, hnoted.2, rfl⟩
  cleared _ hknows := hknows.contained.elim
  followed := by
    intro nesting run run' ctx handle target found h hsees hknows hfollow
    have hkept := (bookkeeping Shape.Contained).followed h hsees hknows hfollow
    have hgrow := (Grammar.Enlarges.followed hfollow).1
    exact ⟨hkept.1, ⟨hkept.2.1, hgrow.traces_eq⟩, hkept.2.2⟩
  straight := by
    intro nesting run r pos h hknows hway
    have hkept := (bookkeeping Shape.Contained).straight pos h hknows hway
    refine ⟨hkept.1, fun l mid ending hmid hgoes => ?_⟩
    have hafter := hkept.2 l mid ending hmid hgoes.1
    exact ⟨hafter.1, hafter.2, hgoes.2⟩
  replays := by
    intro nesting run r pos ses outcome h hknows hway
    have hkept := (bookkeeping Shape.Contained).replays pos h hknows hway
    exact ⟨hkept.1, hkept.2, rfl⟩
  builds := by
    intro nesting run r pos s ses h hknows hway
    have hkept := (bookkeeping Shape.Contained).builds pos h hknows hway
    refine ⟨hkept.1, fun l mid ending hmid hgoes => ?_⟩
    have hafter := hkept.2 l mid ending hmid hgoes.1
    refine ⟨fun _ _ => trivial, hafter.2.1, hafter.2.2, ?_⟩
    exact (Act.traces_built s ses.ordinal ending mid).trans hgoes.2
  nested _ _ hknows := hknows.contained.elim

namespace Grammar

variable {g : Grammar V α} {hand : List (Recognizer V α)}

/-- However a grammar has been used, a parse that fails or is aborted, a parse without
caching and an attempt by itself leave the traces of every store as they were, and nothing
pending. -/
theorem InUse.unrecorded (h : g.InUse Shape.Contained hand) {q : Query V α}
    (hroot : q.root ∈ hand) :
    (∀ limit report, q.parse? g limit = some report →
      q.options.cache = false ∨ report.ending.isMatch = false →
      report.grammar.stores.traces = g.stores.traces ∧
        ∀ s id n, report.grammar.stores.pending s id n = none) ∧
    ∀ limit window pos report,
      g.exec? limit q.root q.input q.values window pos = some report →
      report.grammar.stores.traces = g.stores.traces ∧
        ∀ s id n, report.grammar.stores.pending s id n = none := by
  have hready := h.ready
  constructor
  · intro limit report hreport hwhy
    refine ⟨?_, (hready.parsed hroot hreport).inOrder.settled⟩
    rcases q.exec_of_parse? hreport with ⟨mid, hmid, hgrammar, -⟩
    have hstores : (q.opened g).grammar.stores = g.stores := stores_opened _ _ _
    have hknows : q.root.Belongs Shape.Contained (q.opened g).grammar.stores.size := by
      rw [hstores]
      exact hready.belongs q.root hroot
    have hpasses := unrecording.passes_exec limit _ q.context q.root .start _ (hready.opened q)
      trivial hknows
    rcases (hpasses.goes report.ending mid hmid).2 with ⟨hgoes, htraces⟩
    rw [hstores] at htraces
    rw [hgrammar, ← htraces]
    cases hses : mid.session with
    | none =>
      rw [Run.closed_of_no_session hses]
      rfl
    | some ses =>
      -- there is a session, so caching is on, and the parse has not matched
      have hcache : q.options.cache ≠ false := by
        intro hoff
        have hnone : (q.opened g).session = none := by
          unfold Query.opened Run.opened
          rw [if_neg (by simp [Query.context, hoff])]
        have hid := hgoes.id_eq
        rw [hses, hnone] at hid
        cases hid
      rw [Run.closed_of_session hses, hwhy.resolve_left hcache]
      exact Stores.traces_finish_false ses mid.grammar.stores
  · intro limit window pos report hreport
    refine ⟨?_, (hready.attempted hroot hreport).inOrder.settled⟩
    rcases Option.map_eq_some_iff.1 hreport with ⟨⟨ending, mid⟩, hmid, rfl⟩
    have hpasses := unrecording.passes_exec limit ⟨{ root := q.root, input := q.input }, []⟩
      ⟨q.input, q.values, { errorWindow := window }, [q.root]⟩ q.root pos { grammar := g }
      (hready.alone q.root q.input) trivial (hready.belongs q.root hroot)
    exact (hpasses.goes ending mid hmid).2.2

/-! ## An example -/

/-- A letter through a store, and a letter that is required after it. -/
def requiredLetter : Recognizer Nat Nat × Grammar Nat Nat :=
  Grammar.build [] (.sequence [.cached true (.literal ['a']), .required (.literal ['b'])]) {}

/-- A letter after the first one. -/
def letterAfter (letter : Char) : Query Nat Nat :=
  ⟨requiredLetter.1, ⟨[['a', letter]]⟩, [], .standard⟩

theorem requiredLetter_inUse : requiredLetter.2.InUse Shape.Contained [requiredLetter.1] := by
  have hletter : ∀ letter : Char, (Expr.literal [letter] : Expr Nat Nat).Uses Shape.Contained :=
    fun letter => .make trivial (by simp [Shape.parts])
  apply InUse.empty.build
  refine .make trivial ?_
  intro p hp
  simp only [Shape.parts, List.mem_cons, List.not_mem_nil, or_false] at hp
  rcases hp with rfl | rfl
  · exact .cached (hletter 'a')
  · refine .make trivial ?_
    intro p hp
    rw [List.mem_singleton.1 hp]
    exact hletter 'b'

/-- After a match, a parse that is aborted and an attempt by itself that matches leave what
the match has committed. -/
theorem requiredLetter_unrecorded : ∃ first second third,
    (letterAfter 'b').parse? requiredLetter.2 10 = some first ∧
    (first.grammar.stores.committed 0 (letterAfter 'b').key 0).isSome = true ∧
    (letterAfter 'c').parse? first.grammar 10 = some second ∧ second.ending.isMatch = false ∧
    second.grammar.stores.traces = first.grammar.stores.traces ∧
    first.grammar.exec? 10 requiredLetter.1 ⟨[['a', 'b']]⟩ [] {} .start = some third ∧
    third.ending.isMatch = true ∧ third.grammar.stores.traces = first.grammar.stores.traces := by
  have hruns : ((letterAfter 'b').parse? requiredLetter.2 10).any (fun first =>
      (first.grammar.stores.committed 0 (letterAfter 'b').key 0).isSome &&
      ((letterAfter 'c').parse? first.grammar 10).any (fun second => !second.ending.isMatch) &&
      (first.grammar.exec? 10 requiredLetter.1 ⟨[['a', 'b']]⟩ [] {} .start).any
        (fun third => third.ending.isMatch)) = true := by decide +kernel
  rcases (Option.any_eq_true _ _).1 hruns with ⟨first, hfirst, hruns⟩
  rcases Bool.and_eq_true_iff.1 hruns with ⟨hruns, hthird⟩
  rcases Bool.and_eq_true_iff.1 hruns with ⟨hcommitted, hsecond⟩
  rcases (Option.any_eq_true _ _).1 hsecond with ⟨second, hsecond, hfails⟩
  rcases (Option.any_eq_true _ _).1 hthird with ⟨third, hthird, hmatches⟩
  rw [Bool.not_eq_true'] at hfails
  have hroot : requiredLetter.1 ∈ [requiredLetter.1] := List.mem_cons_self
  have hused := requiredLetter_inUse.parse hroot hfirst
  have haborted := (InUse.unrecorded hused hroot).1 10 second hsecond (.inr hfails)
  have halone := (InUse.unrecorded (q := letterAfter 'b') hused hroot).2 10 {} .start third
    hthird
  exact ⟨first, second, third, hfirst, hcommitted, hsecond, hfails, haborted.1, hthird, hmatches,
    halone.1⟩

end Grammar

end SlotGrammar
