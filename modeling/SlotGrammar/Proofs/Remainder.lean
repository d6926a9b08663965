import SlotGrammar.Proofs.Accounts
import SlotGrammar.Proofs.Symbols

/-!
# What is left of an input

Whether and how a recognizer matches depends only on what is left of the input: an attempt at
a position comes to the same as one at the start of what is left there, with all positions
moved back.  Two such runs go side by side, and attempt the same recognizers at positions
that correspond.

Main results:

- Theorem `Leaf.outcome_past`: a leaf matches as it does in what is left of the input.
- Theorem `Sides.agree_exec`: so does every recognizer of the library.
- Theorem `Grammar.exec?_remainder`: an attempt depends only on what is left of the input.
-/

namespace SlotGrammar

variable {V α : Type}

/-! ## Positions in what is left -/

namespace Position

variable (base p q : Position)

/-- The position in an input that lies so far past another one as a position lies past the
start of what is left there. -/
def past : Position :=
  ⟨base.fragment + p.fragment, if p.fragment = 0 then base.offset + p.offset else p.offset⟩

@[simp]
theorem past_fragment : (base.past p).fragment = base.fragment + p.fragment := rfl

/-- The start of the remainder lies at its base. -/
@[simp]
theorem past_start : base.past .start = base := rfl

/-- A move inside a fragment is the same past a base. -/
@[simp]
theorem past_advance (n : Nat) : base.past (p.advance n) = (base.past p).advance n := by
  unfold past advance
  by_cases h : p.fragment = 0
  · simp [h, Nat.add_assoc]
  · simp [h]

/-- A move to the next fragment is the same past a base. -/
@[simp]
theorem past_nextFragment : base.past p.nextFragment = (base.past p).nextFragment := by
  simp [past, nextFragment, Nat.add_assoc]

/-- Positions keep their order. -/
@[simp]
theorem past_lt_past_iff : base.past p < base.past q ↔ p < q := by
  simp only [lt_iff, past]
  by_cases hp : p.fragment = 0
  · by_cases hq : q.fragment = 0
    · simp only [if_pos hp, if_pos hq]
      omega
    · simp only [if_pos hp, if_neg hq]
      omega
  · by_cases hq : q.fragment = 0
    · simp only [if_neg hp, if_pos hq]
      omega
    · simp only [if_neg hp, if_neg hq]
      omega

end Position

/-- Behind a leading text, bytes are dropped from what follows it. -/
theorem Text.dropBytes?_byteLength_add (s t : Text) (n : Nat) :
    dropBytes? (s.byteLength + n) (s ++ t) = dropBytes? n t := by
  ext r
  rw [dropBytes?_eq_some_iff, dropBytes?_eq_some_iff]
  constructor
  · rintro ⟨u, htext, hlength⟩
    rcases Text.exists_between htext (by omega) with ⟨v, rfl, rfl⟩
    refine ⟨v, rfl, ?_⟩
    rw [byteLength_append] at hlength
    omega
  · rintro ⟨u, rfl, rfl⟩
    exact ⟨s ++ u, by rw [List.append_assoc], byteLength_append s u⟩

namespace Fragments

variable {input rest : Fragments} {base : Position}

/-- What is left of an input at a position, if there is such a position. -/
def remainder? (input : Fragments) (base : Position) : Option Fragments :=
  (input.rest? base).map fun t => ⟨t :: input.texts.drop (base.fragment + 1)⟩

/-- An input around what is left at a position. -/
theorem exists_of_remainder? (h : input.remainder? base = some rest) :
    ∃ s t, input.get? base.fragment = some (s ++ t) ∧ s.byteLength = base.offset ∧
      rest.texts = t :: input.texts.drop (base.fragment + 1) := by
  rcases Option.map_eq_some_iff.1 h with ⟨t, ht, rfl⟩
  rcases Option.bind_eq_some_iff.1 ht with ⟨text, htext, hdrop⟩
  rcases Text.dropBytes?_eq_some_iff.1 hdrop with ⟨s, rfl, hoffset⟩
  exact ⟨s, t, htext, hoffset, rfl⟩

/-- The input has the fragments before the base and those of the remainder. -/
theorem length_remainder (h : input.remainder? base = some rest) :
    input.length = base.fragment + rest.length := by
  rcases exists_of_remainder? h with ⟨s, t, htext, -, hrest⟩
  have hlt : base.fragment < input.texts.length := (List.getElem?_eq_some_iff.1 htext).1
  unfold length
  rw [hrest, List.length_cons, List.length_drop]
  omega

/-- Behind its first fragment, what is left has the fragments of the input. -/
theorem get?_remainder (h : input.remainder? base = some rest) {k : Nat} (hk : k ≠ 0) :
    rest.get? k = input.get? (base.fragment + k) := by
  rcases exists_of_remainder? h with ⟨s, t, -, -, hrest⟩
  rcases Nat.exists_eq_succ_of_ne_zero hk with ⟨k, rfl⟩
  unfold get?
  rw [hrest, List.getElem?_cons_succ, List.getElem?_drop]
  congr 1
  omega

variable (h : input.remainder? base = some rest) (p : Position)

include h

/-- What is ahead past a base is what is ahead in the remainder. -/
theorem rest?_past : input.rest? (base.past p) = rest.rest? p := by
  rcases exists_of_remainder? h with ⟨s, t, htext, hoffset, hrest⟩
  by_cases hp : p.fragment = 0
  · have hfirst : rest.get? 0 = some t := by
      rw [get?, hrest]
      rfl
    simp only [rest?, hfirst, Position.past, hp, Nat.add_zero, if_true, htext, Option.bind_some]
    rw [← hoffset, Text.dropBytes?_byteLength_add]
  · simp only [rest?, Position.past, hp, if_false, get?_remainder h hp]

/-- A fragment is used up past a base when it is in the remainder. -/
theorem exhausted_past : input.exhausted (base.past p) = rest.exhausted p := by
  rcases exists_of_remainder? h with ⟨s, t, htext, hoffset, hrest⟩
  by_cases hp : p.fragment = 0
  · have hfirst : rest.get? 0 = some t := by
      rw [get?, hrest]
      rfl
    simp only [exhausted, hfirst, Position.past, hp, Nat.add_zero, if_true, htext,
      Text.byteLength_append, ← hoffset, Nat.add_le_add_iff_left]
  · simp only [exhausted, Position.past, hp, if_false, get?_remainder h hp]

/-- A position at a fragment of what is left has room for the next number on both sides. -/
theorem hasRoom_past (hp : p.fragment < rest.length) :
    rest.HasRoom p ∧ input.HasRoom (base.past p) := by
  refine ⟨hasRoom_of_lt hp, hasRoom_of_lt ?_⟩
  rw [length_remainder h, Position.past_fragment]
  exact Nat.add_lt_add_left hp _

/-- A slot is ahead past a base when one is in the remainder. -/
theorem isSlot_past (hp : p.fragment < rest.length) :
    input.isSlot (base.past p) = rest.isSlot p := by
  obtain ⟨hroom, hroom'⟩ := hasRoom_past h p hp
  rw [isSlot_eq hroom, isSlot_eq hroom', exhausted_past h p, length_remainder h,
    Position.past_fragment, Nat.add_assoc]
  simp only [Nat.add_lt_add_iff_left]

/-- The end is reached past a base when it is in the remainder. -/
theorem isEnd_past (hp : p.fragment < rest.length) : input.isEnd (base.past p) = rest.isEnd p := by
  obtain ⟨hroom, hroom'⟩ := hasRoom_past h p hp
  rw [isEnd_eq hroom, isEnd_eq hroom', exhausted_past h p, length_remainder h,
    Position.past_fragment, Nat.add_assoc]
  simp only [Nat.add_le_add_iff_left]

end Fragments

/-! ## Trees -/

namespace Tree

mutual

/-- A tree with later numbers of slots and fragments. -/
def shift (n : Nat) : Tree V α → Tree V α
  | index i => index (n + i)
  | list items => list (shiftAll n items)
  | present inner => present (inner.shift n)
  | text t => text t
  | unit => unit
  | absent => absent
  | value v => value v
  | made a => made a

/-- Trees with later numbers of slots and fragments. -/
def shiftAll (n : Nat) : List (Tree V α) → List (Tree V α)
  | [] => []
  | t :: ts => t.shift n :: shiftAll n ts

end

/-- The value at a slot is found under its later number among all values. -/
theorem lookUpSlot_shift (n : Nat) (tree : Tree V α) (values : List V) :
    Expr.lookUpSlot (tree.shift n) values =
      (Expr.lookUpSlot tree (values.drop n)).shift n := by
  cases tree with
  | index i =>
    rw [shift, Expr.lookUpSlot, Expr.lookUpSlot, List.getElem?_drop]
    cases values[n + i]? <;> simp [shift]
  | _ => simp [shift, Expr.lookUpSlot]

end Tree

/-- A leaf matches as it does in what is left of the input, wherever there is a fragment left. -/
theorem Leaf.outcome_past {l : Leaf V α} (hl : (Shape.leaf l : Shape V α Unit).Standard)
    {input rest : Fragments} {base : Position} (h : input.remainder? base = some rest)
    (values values' : List V) {p : Position} (hp : p.fragment < rest.length) :
    l.outcome input values (base.past p) =
      (l.outcome rest values' p).map fun m => ⟨m.tree.shift base.fragment, base.past m.stop⟩ := by
  cases l with
  | find pattern =>
    simp only [outcome_find, Fragments.rest?_past h]
    cases (rest.rest? p).bind pattern.matched? <;> simp [Tree.shift]
  | nextSlot =>
    obtain ⟨hroom, hroom'⟩ := Fragments.hasRoom_past h p hp
    simp only [outcome_nextSlot hroom, outcome_nextSlot hroom', Fragments.isSlot_past h p hp]
    cases rest.isSlot p <;> simp [Tree.shift]
  | inputEnd =>
    simp only [outcome, Fragments.isEnd_past h p hp]
    cases rest.isEnd p <;> simp [Tree.shift]
  | fail => rfl
  | empty => simp [outcome, Tree.shift]
  | inspect decide => exact hl.elim

/-! ## Two runs side by side -/

/-- Whether an attempt ends as the one on what is left of the input does: both match, up to
positions that correspond and with trees that are alike, both fail, or both raise an error of
the same kind about positions that correspond. -/
inductive Ending.Past (base : Position) (Like : Tree V α → Tree V α → Prop) :
    Ending V α → Ending V α → Prop where
  | failed : Past base Like (.ok none) (.ok none)
  | matched {m m' : Match V α} (hstop : m.stop = base.past m'.stop) (htree : Like m.tree m'.tree) :
      Past base Like (.ok (some m)) (.ok (some m'))
  | raised {e e' : ParseError} (h : e.position? = e'.position?.map base.past) :
      Past base Like (.error e) (.error e')

/-- A run on an input from a position on and a run on what is left there, with values of their
own and windows of their own, and when their trees are alike. -/
structure Sides (V α : Type) (T : Shape V α Unit → Prop) where
  view : View V
  view' : View V
  base : Position
  remainder : view.input.remainder? base = some view'.input
  Like : Tree V α → Tree V α → Prop
  standard : ∀ shape, T shape → shape.Standard
  shifted : ∀ tree, Like (tree.shift base.fragment) tree
  mapped : ∀ {transform : Tree V α → List V → Tree V α} {tree tree' : Tree V α},
    T (.mapped transform ()) → Like tree tree' →
    Like (transform tree view.values) (transform tree' view'.values)
  cons : ∀ {tree tree' : Tree V α} {trees trees' : List (Tree V α)}, Like tree tree' →
    Like (.list trees) (.list trees') → Like (.list (tree :: trees)) (.list (tree' :: trees'))
  present : ∀ {tree tree' : Tree V α}, Like tree tree' → Like (.present tree) (.present tree')

namespace Sides

variable {T : Shape V α Unit → Prop} {S : Sides V α T} {pos : Position}

/-! ## Scripts -/

/-- Whether two scripts attempt the same parts at positions that correspond, and go on side by
side as the parts end. -/
inductive Goes (S : Sides V α T) : Script V α → Script V α → Prop where
  | ended {ending ending' : Ending V α} (h : ending.Past S.base S.Like ending') :
      Goes S (.ended ending) (.ended ending')
  | exhausted : Goes S .exhausted .exhausted
  | call {p : Recognizer V α} {pos : Position} {next next' : Ending V α → Script V α}
      (hnext : ∀ ending ending', Ending.Past S.base S.Like ending ending' →
        Goes S (next ending) (next' ending')) :
      Goes S (.call p (S.base.past pos) next) (.call p pos next')
  | note {event event' : Event V α} {next next' : Script V α} (hnext : Goes S next next') :
      Goes S (.note event next) (.note event' next')
  | probe {label : String} {p : Recognizer V α} {pos : Position} :
      Goes S (.probe label p (S.base.past pos)) (.probe label p pos)

/-- Two attempts that do not match go alike. -/
theorem goes_none : S.Goes (.done none) (.done none) := .ended .failed

/-- Two matches that stop at the same place, with trees alike, go alike. -/
theorem goes_some {tree tree' : Tree V α} (h : S.Like tree tree') :
    S.Goes (.done (some ⟨tree, S.base.past pos⟩)) (.done (some ⟨tree', pos⟩)) :=
  .ended (.matched rfl h)

/-- Errors of a part are errors of the whole on both sides. -/
theorem goes_onOutcome {p : Recognizer V α} {next next' : Outcome V α → Script V α}
    (hfailed : S.Goes (next none) (next' none))
    (hmatched : ∀ tree tree' stop, S.Like tree tree' →
      S.Goes (next (some ⟨tree, S.base.past stop⟩)) (next' (some ⟨tree', stop⟩))) :
    S.Goes (.onOutcome p (S.base.past pos) next) (.onOutcome p pos next') := by
  refine .call ?_
  intro ending ending' h
  cases h with
  | failed => exact hfailed
  | @matched m m' hstop htree =>
    rcases m with ⟨tree, stop⟩
    cases hstop
    exact hmatched tree m'.tree m'.stop htree
  | raised h => exact .ended (.raised h)

/-- A part that is attempted last goes alike. -/
theorem goes_last {p : Recognizer V α} :
    S.Goes (.onOutcome p (S.base.past pos) .done) (.onOutcome p pos .done) :=
  goes_onOutcome goes_none fun _ _ _ h => goes_some h

/-- The empty list is like itself. -/
theorem nil_like (S : Sides V α T) : S.Like (.list []) (.list []) := S.shifted (.list [])

/-- An absent part is like itself. -/
theorem absent_like (S : Sides V α T) : S.Like .absent .absent := S.shifted .absent

/-- Parts in order go alike when what follows them does. -/
theorem goes_inOrder {ps : List (Recognizer V α)}
    {next next' : Option (List (Tree V α) × Position) → Script V α}
    (hfailed : S.Goes (next none) (next' none))
    (hmatched : ∀ trees trees' stop, S.Like (.list trees) (.list trees') →
      S.Goes (next (some (trees, S.base.past stop))) (next' (some (trees', stop)))) :
    S.Goes (.inOrder ps (S.base.past pos) next) (.inOrder ps pos next') := by
  induction ps generalizing pos next next' with
  | nil => exact hmatched [] [] pos S.nil_like
  | cons p ps ih =>
    refine goes_onOutcome hfailed ?_
    intro tree tree' stop htree
    refine ih hfailed ?_
    intro trees trees' stop' htrees
    exact hmatched (tree :: trees) (tree' :: trees') stop' (S.cons htree htrees)

/-- The first of some parts that matches goes alike. -/
theorem goes_firstOf (ps : List (Recognizer V α)) :
    S.Goes (.firstOf ps (S.base.past pos)) (.firstOf ps pos) := by
  induction ps with
  | nil => exact goes_none
  | cons p ps ih => exact goes_onOutcome ih fun _ _ _ h => goes_some h

/-- Whether a step of a repetition goes on side by side when what comes after it does. -/
def KeptBy (S : Sides V α T) (step : Script.Step V α) : Prop :=
  ∀ {pos : Position} {next next' : Outcome V α → Script V α}, S.Goes (next none) (next' none) →
    (∀ tree tree' stop, S.Like tree tree' →
      S.Goes (next (some ⟨tree, S.base.past stop⟩)) (next' (some ⟨tree', stop⟩))) →
    S.Goes (step (S.base.past pos) next) (step pos next')

/-- An attempt of a part is a step that goes alike. -/
theorem keptBy_part (p : Recognizer V α) : S.KeptBy (.onOutcome p) :=
  fun hfailed hmatched => goes_onOutcome hfailed hmatched

/-- A part after a delimiter is a step that goes alike. -/
theorem keptBy_after (d p : Recognizer V α) : S.KeptBy (Script.after d p) :=
  fun hfailed hmatched =>
    goes_onOutcome hfailed fun _ _ _ _ => goes_onOutcome hfailed hmatched

/-- Both sides compare their positions alike, so they make the same rounds. -/
theorem goes_chain {step : Script.Step V α} (hstep : S.KeptBy step) (limit : Nat)
    {next next' : List (Tree V α) → Position → Script V α}
    (hmatched : ∀ trees trees' stop, S.Like (.list trees) (.list trees') →
      S.Goes (next trees (S.base.past stop)) (next' trees' stop)) :
    S.Goes (.chain step limit (S.base.past pos) next) (.chain step limit pos next') := by
  induction limit generalizing pos next next' with
  | zero => exact .exhausted
  | succ limit ih =>
    have hover : S.Goes (next [] (S.base.past pos)) (next' [] pos) :=
      hmatched [] [] pos S.nil_like
    refine hstep hover ?_
    intro tree tree' stop htree
    by_cases hlt : pos < stop
    · simp only [Position.past_lt_past_iff, hlt, if_true]
      refine ih ?_
      intro trees trees' stop' htrees
      exact hmatched (tree :: trees) (tree' :: trees') stop' (S.cons htree htrees)
    · simp only [Position.past_lt_past_iff, hlt, if_false]
      exact hover

/-- A repetition of steps that go alike goes alike. -/
theorem goes_repetition {first step : Script.Step V α} (hfirst : S.KeptBy first)
    (hstep : S.KeptBy step) (limit : Nat) :
    S.Goes (.repetition limit first step (S.base.past pos)) (.repetition limit first step pos) := by
  refine hfirst goes_none ?_
  intro tree tree' stop htree
  by_cases hlt : pos < stop
  · simp only [Position.past_lt_past_iff, hlt, if_true]
    refine goes_chain hstep limit ?_
    intro trees trees' stop' htrees
    exact goes_some (S.cons htree htrees)
  · simp only [Position.past_lt_past_iff, hlt, if_false]
    exact goes_none

/-- Whether a position is at a fragment of what is left. -/
def Inside (S : Sides V α T) (pos : Position) : Prop := pos.fragment < S.view'.input.length

/-- The scripts of a shape go side by side. -/
theorem goes_script (S : Sides V α T) (limit : Nat) {shape : Shape V α (Recognizer V α)}
    (hkind : T shape.outline) (hpos : S.Inside pos) :
    S.Goes (shape.script limit S.view (S.base.past pos)) (shape.script limit S.view' pos) := by
  have hstandard := S.standard _ hkind
  cases shape with
  | leaf l =>
    rw [Shape.script, Shape.script,
      Leaf.outcome_past hstandard S.remainder S.view.values S.view'.values hpos]
    cases l.outcome S.view'.input S.view'.values pos with
    | none => exact goes_none
    | some m => exact goes_some (S.shifted m.tree)
  | mapped transform p =>
    refine goes_onOutcome goes_none ?_
    intro tree tree' stop htree
    exact goes_some (S.mapped hkind htree)
  | sequence ps =>
    refine goes_inOrder goes_none ?_
    intro trees trees' stop htrees
    exact goes_some htrees
  | choice ps => exact goes_firstOf ps
  | optional p =>
    refine goes_onOutcome (goes_some S.absent_like) ?_
    intro tree tree' stop htree
    exact goes_some (S.present htree)
  | required p =>
    refine goes_onOutcome ?_ fun _ _ _ h => goes_some h
    exact .note (.ended (.raised rfl))
  | conditional t p q => exact goes_onOutcome goes_last fun _ _ _ _ => goes_last
  | repeated p => exact goes_repetition (keptBy_part p) (keptBy_part p) limit
  | separated p d => exact goes_repetition (keptBy_part p) (keptBy_after d p) limit
  | butNot p q => exact goes_onOutcome goes_last fun _ _ _ _ => goes_none
  | catching p => exact hstandard.elim
  | nested sub p => exact hstandard.elim
  | clearing t p => exact hstandard.elim
  | counted label p => exact .note goes_last
  | probed label p => exact .probe

/-- The cursor stays at the fragments of what is left. -/
def inside (S : Sides V α T) : Account V α T S.view'.input where
  Spans pos _ stop := S.Inside pos → S.Inside stop
  Raises _ _ := True
  Reaches pos stop := S.Inside pos → S.Inside stop
  standard := S.standard
  leaf {l} pos m _ hl h := by
    intro hpos
    have hstandard : (Shape.leaf l : Shape V α Unit).Standard := S.standard _ hl
    cases l with
    | find pattern =>
      rw [Leaf.outcome_find] at h
      obtain ⟨t, -, rfl⟩ := Option.map_eq_some_iff.1 h
      exact hpos
    | nextSlot =>
      simp only [Leaf.outcome, Option.ite_none_right_eq_some, Option.some.injEq, Fragments.isSlot,
        Bool.and_eq_true, decide_eq_true_eq] at h
      rw [← h.2]
      exact h.1.2
    | inputEnd =>
      simp only [Leaf.outcome, Option.ite_none_right_eq_some, Option.some.injEq] at h
      rw [← h.2]
      exact hpos
    | fail => cases h
    | empty =>
      cases h
      exact hpos
    | inspect decide => exact hstandard.elim
  mapped _ _ h := h
  separated _ h h' := h' ∘ h
  nil _ := id
  cons h h' := h' ∘ h
  absent _ := id
  present h := h
  missed _ _ := trivial
  unresolved _ := trivial
  refl _ := id
  trans h h' := h' ∘ h
  reaches h := h
  raises _ _ := trivial

end Sides

/-! ## Attempts -/

/-- Following a link changes the grammar, and with it what is held, as a function of these two
alone. -/
theorem Act.exists_followed (l : Link) (held : List (Recognizer V α)) (g : Grammar V α) :
    ∃ (found : Option (List (Recognizer V α) × Recognizer V α)) (g' : Grammar V α)
      (tallies : List (Event V α)), ∀ (ctx : Context V α) (run : Run V α), ctx.held = held →
      run.grammar = g → Act.follow ctx l run =
        some (.ok (found.map fun x => ({ ctx with held := x.1 }, x.2)),
          { run with grammar := g', log := tallies ++ run.log }) := by
  cases l with
  | definition cell =>
    refine ⟨(g.definitions[cell]?.join).map fun r => (held, r), g, [], ?_⟩
    rintro ctx run rfl rfl
    rw [Option.map_map]
    rfl
  | self cell =>
    refine ⟨(g.definition? held cell).map fun r =>
      (if held.any fun h => h.sameNode r then held else r :: held, r), g, [], ?_⟩
    rintro ctx run rfl rfl
    rw [Option.map_map]
    show some (Except.ok ((run.grammar.definition? ctx.held cell).map fun r =>
      (ctx.hold r, r)), run) = _
    cases run.grammar.definition? ctx.held cell with
    | none => rfl
    | some r =>
      have hhold : ctx.hold r = { ctx with
          held := if ctx.held.any fun h => h.sameNode r then ctx.held else r :: ctx.held } := by
        unfold Context.hold
        split <;> rfl
      rw [Option.map_some, hhold]
      rfl
  | deferred cell =>
    cases hcell : g.deferrals[cell]? with
    | none =>
      refine ⟨none, g, [], ?_⟩
      rintro ctx run rfl rfl
      show (Act.settled cell >>= fun found => pure (found.map fun r => (ctx, r))) run = _
      rw [Act.bind_apply, Act.settled_of_none hcell]
      rfl
    | some deferral =>
      cases deferral with
      | settled r =>
        refine ⟨some (held, r), g, [], ?_⟩
        rintro ctx run rfl rfl
        show (Act.settled cell >>= fun found => pure (found.map fun r => (ctx, r))) run = _
        rw [Act.bind_apply, Act.settled_of_settled hcell]
        rfl
      | awaiting label e scope =>
        refine ⟨some (held, (Grammar.build scope e g).1),
          (Grammar.settle cell (Grammar.build scope e g).1 (Grammar.build scope e g).2).2,
          [.tallied label], ?_⟩
        rintro ctx run rfl rfl
        show (Act.settled cell >>= fun found => pure (found.map fun r => (ctx, r))) run = _
        rw [Act.bind_apply]
        unfold Act.settled
        rw [Act.bind_apply, Act.get_apply, Option.bind_some]
        simp only [hcell]
        rfl
  | unbound =>
    refine ⟨none, g, [], ?_⟩
    rintro ctx run rfl rfl
    rfl

/-- Whether two runs are in states of one grammar, outside any session. -/
structure Run.Twin (T : Shape V α Unit → Prop) (run run' : Run V α) : Prop where
  grammar_eq : run.grammar = run'.grammar
  alone : run.session = none
  alone' : run'.session = none
  coherent : run.grammar.Coherent T run.grammar.stores.size

namespace Sides

variable {T : Shape V α Unit → Prop} {S : Sides V α T} {run run' : Run V α}

/-- Whether two actions both do not come to an end, or end side by side at a fragment of what is
left, in states of one grammar that has got no smaller. -/
inductive Agree (S : Sides V α T) (run : Run V α) : Option (Ending V α × Run V α) →
    Option (Ending V α × Run V α) → Prop where
  | neither : Agree S run none none
  | both {ending ending' : Ending V α} {mid mid' : Run V α}
      (hends : ending.Past S.base S.Like ending')
      (hinside : ∀ m, ending' = .ok (some m) → S.Inside m.stop) (htwin : mid.Twin T mid')
      (hle : run.grammar.stores.size ≤ mid.grammar.stores.size) :
      Agree S run (some (ending, mid)) (some (ending', mid'))

/-- Runs that agree from a later state on agree from an earlier one. -/
theorem Agree.of_le {mid : Run V α} {result result' : Option (Ending V α × Run V α)}
    (h : S.Agree mid result result')
    (hle : run.grammar.stores.size ≤ mid.grammar.stores.size) : S.Agree run result result' := by
  cases h with
  | neither => exact .neither
  | both hends hinside htwin hle' => exact .both hends hinside htwin (Nat.le_trans hle hle')

/-- What is noted last does not matter. -/
theorem Agree.noted {result result' : Option (Ending V α × Run V α)}
    (h : S.Agree run result result') (event event' : Ending V α → Run V α → Event V α) :
    S.Agree run (result.map fun x => (x.1, x.2.noted (event x.1 x.2)))
      (result'.map fun x => (x.1, x.2.noted (event' x.1 x.2))) := by
  cases h with
  | neither => exact .neither
  | both hends hinside htwin hle =>
    exact .both hends hinside ⟨htwin.grammar_eq, htwin.alone, htwin.alone', htwin.coherent⟩ hle

section Level

variable {attempt : Attempt V α} {ctx ctx' : Context V α}

/-- Scripts that go side by side end side by side when the attempts in them do, all of them at
fragments of what is left. -/
theorem agree_play {handle : Handle} {shape : Shape V α (Recognizer V α)}
    (hattempt : ∀ {p : Recognizer V α} {pos : Position} {run run' : Run V α}, S.Inside pos →
      run.Twin T run' → p.Belongs T run.grammar.stores.size →
      S.Agree run (attempt ctx p (S.base.past pos) run) (attempt ctx' p pos run'))
    {start : Position} (hstart : S.Inside start) {script script' : Script V α}
    (h : S.Goes script script') (hobeys : S.inside.Obeys start script')
    (hscript : script'.Within shape) (htwin : run.Twin T run')
    (hr : (Recognizer.node handle shape).Belongs T run.grammar.stores.size) :
    S.Agree run (script.play attempt ctx run) (script'.play attempt ctx' run') := by
  induction h generalizing run run' with
  | ended h =>
    rw [Script.play, Script.play, Act.endAs_apply, Act.endAs_apply]
    cases hobeys with
    | ended hends =>
      refine .both h ?_ htwin (Nat.le_refl _)
      rintro m rfl
      exact hends hstart
  | exhausted => exact .neither
  | @call p pos next next' _ ih =>
    cases hobeys with | call hreaches hcontinues =>
    cases hscript with
    | call hp _ hnext =>
      have hpart := hattempt (hreaches hstart) htwin (hr.part hp)
      rw [Script.play_call_apply, Script.play_call_apply]
      generalize attempt ctx p (S.base.past pos) run = result at hpart ⊢
      generalize attempt ctx' p pos run' = result' at hpart ⊢
      cases hpart with
      | neither => exact .neither
      | @both _ ending' _ _ hends hinside hmid hle =>
        have hkeeps : S.inside.Ends pos ending' := by
          rcases ending' with e | _ | m
          · trivial
          · trivial
          · exact fun _ => hinside m rfl
        exact (ih _ _ hends (hcontinues _ hkeeps) (hnext _) hmid (hr.mono hle)).of_le hle
  | @note event event' next next' _ ih =>
    cases hobeys with | note hobeys =>
    cases hscript with
    | note _ hnext =>
      have hnoted : (run.noted event).Twin T (run'.noted event') :=
        ⟨htwin.grammar_eq, htwin.alone, htwin.alone', htwin.coherent⟩
      exact (ih hobeys hnext hnoted hr).of_le (Nat.le_refl _)
  | @probe label p pos =>
    cases hobeys with | probe =>
    cases hscript with
    | probe hshape =>
      have hp : p ∈ shape.parts := by simp [hshape, Shape.parts]
      have hpart := hattempt hstart htwin (hr.part hp)
      rw [Script.play, Script.play, Part.probed_eq, Part.probed_eq]
      exact hpart.noted
        (fun ending mid => .probed label (S.base.past start) run.ordinal? mid.ordinal? ending)
        (fun ending mid => .probed label start run'.ordinal? mid.ordinal? ending)

end Level

/-- An attempt on an input from a position on and one on what is left there end side by side. -/
theorem agree_exec (S : Sides V α T) (limit : Nat) {ctx ctx' : Context V α}
    (hview : ctx.view = S.view) (hview' : ctx'.view = S.view') (hheld : ctx.held = ctx'.held)
    {r : Recognizer V α} {pos : Position} (hpos : S.Inside pos) (htwin : run.Twin T run')
    (hr : r.Belongs T run.grammar.stores.size) :
    S.Agree run (exec limit ctx r (S.base.past pos) run) (exec limit ctx' r pos run') := by
  induction limit generalizing ctx ctx' r pos run run' with
  | zero => exact .neither
  | succ limit ih =>
    let start := (run.entering r (S.base.past pos)).atWork r (S.base.past pos)
    let start' := (run'.entering r pos).atWork r pos
    have hstart : start.Twin T start' :=
      ⟨htwin.grammar_eq, htwin.alone, htwin.alone', htwin.coherent⟩
    suffices hwork : S.Agree run (r.work (exec limit) limit ctx (S.base.past pos) start)
        (r.work (exec limit) limit ctx' pos start') by
      rw [exec_succ, exec_succ,
        Recognizer.attempt_eq_of_straight (Run.way_of_no_session htwin.alone r.handle.caching),
        Recognizer.attempt_eq_of_straight (Run.way_of_no_session htwin.alone' r.handle.caching)]
      exact hwork.noted
        (fun ending mid => .replied r.handle (S.base.past pos) mid.ordinal? ending)
        (fun ending mid => .replied r.handle pos mid.ordinal? ending)
    cases r with
    | node handle shape =>
      show S.Agree run (shape.attempt (exec limit) limit ctx (S.base.past pos) start)
        (shape.attempt (exec limit) limit ctx' pos start')
      have hscript := Script.within_script limit ctx'.view shape pos
      have hgoes := S.goes_script limit (hr.kind handle shape .refl) hpos
      have hobeys : S.inside.Obeys pos (shape.script limit S.view' pos) :=
        S.inside.obeys_script limit rfl (hr.kind handle shape .refl) pos
      rw [← Script.play_script, ← Script.play_script, hview, hview']
      rw [hview'] at hscript
      have hplay := agree_play (fun hpos htwin hp => ih hview hview' hheld hpos htwin hp) hpos
        hgoes hobeys hscript hstart hr
      exact hplay.of_le (Nat.le_refl _)
    | link handle target =>
      rcases Act.exists_followed target ctx.held run.grammar with ⟨found, g', tallies, hfollow⟩
      have hleft := hfollow ctx start rfl rfl
      have hright := hfollow ctx' start' hheld.symm htwin.grammar_eq.symm
      have hcoherent := hstart.coherent.followed hleft
      have hgrown := (Grammar.Enlarges.followed hleft).1.size_le
      let mid : Run V α := { start with grammar := g', log := tallies ++ start.log }
      let mid' : Run V α := { start' with grammar := g', log := tallies ++ start'.log }
      have hmid : mid.Twin T mid' := ⟨rfl, htwin.alone, htwin.alone', hcoherent.1⟩
      cases found with
      | none =>
        rw [Recognizer.work_link_none hleft, Recognizer.work_link_none hright]
        exact .both (.raised rfl) nofun hmid hgrown
      | some x =>
        rw [Recognizer.work_link_some hleft, Recognizer.work_link_some hright]
        let inner : Context V α := { ctx with held := x.1 }
        let inner' : Context V α := { ctx' with held := x.1 }
        have hinner : inner.view = S.view := hview
        have hinner' : inner'.view = S.view' := hview'
        have hheld : inner.held = inner'.held := rfl
        exact (ih hinner hinner' hheld hpos hmid (hcoherent.2 _ rfl)).of_le hgrown

/-- Runs of which no more is asked than that they match, fail and raise alike. -/
def bare (view view' : View V) (base : Position)
    (h : view.input.remainder? base = some view'.input) :
    Sides V α (Shape.Standard : Shape V α Unit → Prop) where
  view := view
  view' := view'
  base := base
  remainder := h
  Like _ _ := True
  standard _ h := h
  shifted _ := trivial
  mapped _ _ := trivial
  cons _ _ := trivial
  present _ := trivial

end Sides

/-- Whether a shape leaves trees as they are, or puts the value at a slot for its number. -/
def Shape.Slotwise {ρ : Type} : Shape V α ρ → Prop
  | .mapped transform _ => transform = Expr.lookUpSlot
  | shape => shape.Standard

/-- Runs with trees that differ in the numbers of slots and fragments only.  What is left of the
input comes with the values of the slots in it. -/
def Sides.slotwise (view view' : View V) (base : Position)
    (h : view.input.remainder? base = some view'.input)
    (hvalues : view'.values = view.values.drop base.fragment) :
    Sides V α (Shape.Slotwise : Shape V α Unit → Prop) where
  view := view
  view' := view'
  base := base
  remainder := h
  Like tree tree' := tree = tree'.shift base.fragment
  standard shape h := by
    cases shape with
    | mapped transform p => trivial
    | _ => exact h
  shifted _ := rfl
  mapped := by
    rintro _ _ tree' rfl rfl
    rw [hvalues]
    exact tree'.lookUpSlot_shift base.fragment view.values
  cons := by
    intro tree tree' trees trees' htree htrees
    rw [Tree.shift] at htrees ⊢
    rw [Tree.shiftAll, htree, Tree.list.inj htrees]
  present := by
    rintro _ tree' rfl
    rw [Tree.shift]

/-- Whether two attempts both do not come to an end, or end as on what is left of the input and
leave the same grammar. -/
inductive Report.Past (base : Position) (Like : Tree V α → Tree V α → Prop) :
    Option (Report V α) → Option (Report V α) → Prop where
  | neither : Past base Like none none
  | both {report report' : Report V α} (hends : report.ending.Past base Like report'.ending)
      (hgrammar : report.grammar = report'.grammar) : Past base Like (some report) (some report')

/-- Where one run has a report the other one has. -/
theorem Report.Past.exists_of_some {base : Position} {Like : Tree V α → Tree V α → Prop}
    {report : Report V α} {other : Option (Report V α)}
    (h : Report.Past base Like (some report) other) :
    ∃ report', other = some report' ∧ report.ending.Past base Like report'.ending := by
  cases h with
  | both hends _ => exact ⟨_, rfl, hends⟩

namespace Grammar

variable {g : Grammar V α} {hand : List (Recognizer V α)} {root : Recognizer V α}

/-- Two attempts of a recognizer in a grammar in use go side by side. -/
theorem InUse.exec?_sides {T : Shape V α Unit → Prop} (h : g.InUse T hand) (hroot : root ∈ hand)
    (limit : Nat) (S : Sides V α T) :
    Report.Past S.base S.Like
      (g.exec? limit root S.view.input S.view.values S.view.window S.base)
      (g.exec? limit root S.view'.input S.view'.values S.view'.window .start) := by
  let run : Run V α := { grammar := g }
  let ctx : Context V α :=
    ⟨S.view.input, S.view.values, { errorWindow := S.view.window }, [root]⟩
  let ctx' : Context V α :=
    ⟨S.view'.input, S.view'.values, { errorWindow := S.view'.window }, [root]⟩
  have htwin : run.Twin T run := ⟨rfl, rfl, rfl, h.ready.coherent⟩
  have hview : ctx.view = S.view := rfl
  have hview' : ctx'.view = S.view' := rfl
  have hheld : ctx.held = ctx'.held := rfl
  have hstart : S.Inside .start := by
    obtain ⟨s, t, -, -, hrest⟩ := Fragments.exists_of_remainder? S.remainder
    show 0 < S.view'.input.texts.length
    rw [hrest]
    exact Nat.succ_pos _
  have hagree : S.Agree run (SlotGrammar.exec limit ctx root (S.base.past .start) run)
      (SlotGrammar.exec limit ctx' root .start run) :=
    S.agree_exec limit hview hview' hheld hstart htwin (h.ready.belongs root hroot)
  rw [Position.past_start] at hagree
  change Report.Past S.base S.Like ((SlotGrammar.exec limit ctx root S.base).report? g)
    ((SlotGrammar.exec limit ctx' root .start).report? g)
  unfold Act.report?
  generalize SlotGrammar.exec limit ctx root S.base run = result at hagree ⊢
  generalize SlotGrammar.exec limit ctx' root .start run = result' at hagree ⊢
  cases hagree with
  | neither => exact .neither
  | both hends _ hmid _ => exact .both hends hmid.grammar_eq

/-- Matching depends only on what is left of the input.  In a grammar in use, an attempt at a
position and the same one at the start of what is left there both do not come to an end, or
both match up to positions that correspond, both fail, or both raise an error of the same kind
about positions that correspond, whatever the values.  Where no tree is transformed, other than
to look up the value at a slot, the trees have the same texts and values, and numbers of slots
and fragments that correspond. -/
theorem exec?_remainder {input rest : Fragments} {base : Position}
    (hrest : input.remainder? base = some rest) (hroot : root ∈ hand) (limit : Nat)
    (window window' : ErrorWindow) :
    (g.InUse Shape.Standard hand → ∀ values values' : List V,
      Report.Past base (fun _ _ => True) (g.exec? limit root input values window base)
        (g.exec? limit root rest values' window' .start)) ∧
    (g.InUse Shape.Slotwise hand → ∀ values : List V,
      Report.Past base (fun tree tree' => tree = tree'.shift base.fragment)
        (g.exec? limit root input values window base)
        (g.exec? limit root rest (values.drop base.fragment) window' .start)) :=
  ⟨fun h values values' => h.exec?_sides hroot limit
      (Sides.bare ⟨input, values, window⟩ ⟨rest, values', window'⟩ base hrest),
    fun h values => h.exec?_sides hroot limit (Sides.slotwise ⟨input, values, window⟩
      ⟨rest, values.drop base.fragment, window'⟩ base hrest rfl)⟩

/-! ## An example -/

/-- A letter of two bytes, a slot, the value at another slot, and the end of the input. -/
def letterThenSlots : Recognizer Nat Nat × Grammar Nat Nat :=
  Grammar.build [] (.sequence [.literal ['é'], .nextSlot, .slotValue, .required .inputEnd]) {}

theorem letterThenSlots_inUse :
    letterThenSlots.2.InUse Shape.Standard [letterThenSlots.1] ∧
      letterThenSlots.2.InUse Shape.Slotwise [letterThenSlots.1] := by
  constructor
  · apply InUse.empty.build
    simp [Expr.sequence, Expr.literal, Expr.nextSlot, Expr.slotValue, Expr.map, Expr.required,
      Expr.inputEnd, Shape.outline, Shape.parts, Shape.withParts, Shape.Standard]
  · apply InUse.empty.build
    simp [Expr.sequence, Expr.literal, Expr.nextSlot, Expr.slotValue, Expr.map, Expr.required,
      Expr.inputEnd, Shape.outline, Shape.parts, Shape.withParts, Shape.Standard, Shape.Slotwise]

/-- Four fragments, with the letter behind something else in the second one, and `more` at the
end. -/
def letterInside (more : Text) : Fragments := ⟨[['x'], ['a', 'é'], [], more]⟩

/-- What is left of them where the letter is. -/
def letterFirst (more : Text) : Fragments := ⟨[['é'], [], more]⟩

/-- A match is the same in what is left of the input, which has the values of its own slots, and
so is an error, whatever the values. -/
theorem letterThenSlots_remainder : ∃ matched matched' raised raised',
    letterThenSlots.2.exec? 10 letterThenSlots.1 (letterInside []) [7, 8, 9] {} ⟨1, 1⟩ =
      some matched ∧
    matched.ending = .ok (some ⟨.list [.text ['é'], .index 1, .present (.value 9), .index 3],
      ⟨3, 0⟩⟩) ∧
    letterThenSlots.2.exec? 10 letterThenSlots.1 (letterFirst []) [8, 9] {} .start =
      some matched' ∧
    matched.ending.Past ⟨1, 1⟩ (fun tree tree' => tree = tree'.shift 1) matched'.ending ∧
    letterThenSlots.2.exec? 10 letterThenSlots.1 (letterInside ['b']) [7] {} ⟨1, 1⟩ =
      some raised ∧
    raised.ending = .error (.unexpectedSymbol ⟨3, 0⟩ [] ['b'] []) ∧
    letterThenSlots.2.exec? 10 letterThenSlots.1 (letterFirst ['b']) [] {} .start =
      some raised' ∧
    raised.ending.Past ⟨1, 1⟩ (fun _ _ => True) raised'.ending := by
  have hmatches : (letterThenSlots.2.exec? 10 letterThenSlots.1 (letterInside []) [7, 8, 9] {}
      ⟨1, 1⟩).any (fun report => report.ending = .ok (some
        ⟨.list [.text ['é'], .index 1, .present (.value 9), .index 3], ⟨3, 0⟩⟩)) = true := by
    decide +kernel
  have hraises : (letterThenSlots.2.exec? 10 letterThenSlots.1 (letterInside ['b']) [7] {}
      ⟨1, 1⟩).any (fun report => report.ending =
        .error (.unexpectedSymbol ⟨3, 0⟩ [] ['b'] [])) = true := by
    decide +kernel
  rcases (Option.any_eq_true _ _).1 hmatches with ⟨matched, hmatched, hending⟩
  rcases (Option.any_eq_true _ _).1 hraises with ⟨raised, hraised, herror⟩
  have hrest : ∀ more, (letterInside more).remainder? ⟨1, 1⟩ = some (letterFirst more) :=
    fun _ => rfl
  have hroot : letterThenSlots.1 ∈ [letterThenSlots.1] := List.mem_cons_self
  have hsame := (exec?_remainder (hrest []) hroot 10 {} {}).2 letterThenSlots_inUse.2 [7, 8, 9]
  have hother := (exec?_remainder (hrest ['b']) hroot 10 {} {}).1 letterThenSlots_inUse.1 [7] []
  rw [hmatched] at hsame
  rw [hraised] at hother
  rcases hsame.exists_of_some with ⟨matched', hmatched', hends⟩
  rcases hother.exists_of_some with ⟨raised', hraised', hends'⟩
  exact ⟨matched, matched', raised, raised', hmatched, of_decide_eq_true hending, hmatched', hends,
    hraised, of_decide_eq_true herror, hraised', hends'⟩

end Grammar

end SlotGrammar
