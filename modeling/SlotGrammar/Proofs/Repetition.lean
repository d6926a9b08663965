import SlotGrammar.Proofs.Limits
import SlotGrammar.Proofs.Snapshots

/-!
# Repetition

A repetition makes turns: its part first, and from then on the part again, or a delimiter and
the part.  It goes on as long as its turns move the cursor forward.  The parts are arbitrary
here: they may match without moving, move backwards, fail or raise, and a turn may depend on
the state that the turns before it left.

Main results:

- Theorem `Part.repetition_iff`: a repetition ends as the first turn says that does not
  advance.
- Theorem `Recognizer.repetition_turns`: a match, a failure and an error of a repetition, each
  in terms of its turns.
-/

namespace SlotGrammar

variable {V α : Type}

/-! ## Turns -/

/-- What a step of a run may do: from a position and a state it ends in some way, in another
state. -/
abbrev Turn (V α : Type) := Position → Run V α → Ending V α → Run V α → Prop

/-- One step after another, which starts where the first one stopped.  Only the second one
counts as a match. -/
inductive Turn.After (first second : Turn V α) : Turn V α where
  | raised {pos : Position} {run after : Run V α} {e : ParseError}
      (h : first pos run (.error e) after) : After first second pos run (.error e) after
  | missing {pos : Position} {run after : Run V α}
      (h : first pos run (.ok none) after) : After first second pos run (.ok none) after
  | found {pos : Position} {run mid after : Run V α} {m : Match V α} {ending : Ending V α}
      (h : first pos run (.ok (some m)) mid) (h' : second m.stop mid ending after) :
      After first second pos run ending after

namespace Recognizer

/-- The attempts of a recognizer that come to an end. -/
def Attempted (ctx : Context V α) (r : Recognizer V α) : Turn V α := fun pos run ending after =>
  ∃ limit, exec limit ctx r pos run = some (ending, after)

/-- What a recognizer does itself when it is not replayed, where this comes to an end. -/
def Works (ctx : Context V α) (r : Recognizer V α) : Turn V α := fun pos run ending after =>
  ∃ limit, r.work (exec limit) limit ctx pos run = some (ending, after)

/-- The turn of a repetition with the given number of turns before it. -/
def turn (ctx : Context V α) (p : Recognizer V α) (delimiter : Option (Recognizer V α)) :
    Nat → Turn V α
  | 0 => p.Attempted ctx
  | _ + 1 =>
    match delimiter with
    | none => p.Attempted ctx
    | some d => Turn.After (d.Attempted ctx) (p.Attempted ctx)

end Recognizer

/-- The shape of a repetition, with or without a delimiter. -/
def Shape.repetition {ρ : Type} (p : ρ) : Option ρ → Shape V α ρ
  | none => .repeated p
  | some d => .separated p d

/-- Some turns one after the other, each of which moves the cursor forward.  The number is that
of the turns before the first one. -/
inductive Advance (turn : Nat → Turn V α) :
    Nat → Position → Run V α → List (Tree V α) → Position → Run V α → Prop where
  | nil (n : Nat) (pos : Position) (run : Run V α) : Advance turn n pos run [] pos run
  | cons {n : Nat} {pos stop : Position} {run mid after : Run V α} {m : Match V α}
      {trees : List (Tree V α)} (h : turn n pos run (.ok (some m)) mid) (hlt : pos < m.stop)
      (hrest : Advance turn (n + 1) m.stop mid trees stop after) :
      Advance turn n pos run (m.tree :: trees) stop after

/-- One more turn that advances. -/
theorem Advance.snoc {turn : Nat → Turn V α} {n : Nat} {pos stop : Position}
    {run mid after : Run V α} {trees : List (Tree V α)} {m : Match V α}
    (h : Advance turn n pos run trees stop mid)
    (hlast : turn (n + trees.length) stop mid (.ok (some m)) after) (hlt : stop < m.stop) :
    Advance turn n pos run (trees ++ [m.tree]) m.stop after := by
  induction h with
  | nil n pos run => exact .cons hlast hlt (.nil _ _ _)
  | cons hx hlt' _ ih =>
    rw [List.length_cons, Nat.add_comm (List.length _), ← Nat.add_assoc] at hlast
    exact .cons hx hlt' (ih hlast hlt)

/-- Whether a turn from a position is over without an error and has not moved the cursor
forward. -/
def Ending.Stays (pos : Position) : Ending V α → Prop
  | .error _ => False
  | .ok none => True
  | .ok (some m) => ¬ pos < m.stop

/-- A turn that comes to an end advances, or it is the last one. -/
theorem Ending.stays_or (last : Ending V α) (pos : Position) :
    (∃ m, last = .ok (some m) ∧ pos < m.stop) ∨ (∃ e, last = .error e) ∨ last.Stays pos := by
  rcases last with e | _ | m
  · exact .inr (.inl ⟨e, rfl⟩)
  · exact .inr (.inr trivial)
  · by_cases hlt : pos < m.stop
    · exact .inl ⟨m, rfl, hlt⟩
    · exact .inr (.inr hlt)

/-- What a repetition comes to after some turns that advance and one last turn.  The last turn
adds nothing to a match. -/
inductive Concludes : List (Tree V α) → Position → Ending V α → Ending V α → Prop where
  | nothing {pos : Position} {last : Ending V α} (h : last.Stays pos) :
      Concludes [] pos last (.ok none)
  | found {tree : Tree V α} {trees : List (Tree V α)} {pos : Position} {last : Ending V α}
      (h : last.Stays pos) :
      Concludes (tree :: trees) pos last (.ok (some ⟨.list (tree :: trees), pos⟩))
  | raised (trees : List (Tree V α)) (pos : Position) (e : ParseError) :
      Concludes trees pos (.error e) (.error e)

/-- A last turn concludes a repetition in some way. -/
theorem exists_concludes {last : Ending V α} {pos : Position}
    (h : (∃ e, last = .error e) ∨ last.Stays pos) (trees : List (Tree V α)) :
    ∃ ending, Concludes trees pos last ending := by
  rcases h with ⟨e, rfl⟩ | hstays
  · exact ⟨_, .raised trees pos e⟩
  · cases trees with
    | nil => exact ⟨_, .nothing hstays⟩
    | cons tree trees => exact ⟨_, .found hstays⟩

/-- When turns come to an end, and only so many of them advance, one of them is the last. -/
theorem Advance.exists_last {turn : Nat → Turn V α} {pos : Position} {run : Run V α} {bound : Nat}
    (hbound : ∀ trees stop mid, Advance turn 0 pos run trees stop mid → trees.length ≤ bound)
    (hends : ∀ trees stop mid, Advance turn 0 pos run trees stop mid →
      ∃ last after, turn trees.length stop mid last after) :
    ∃ trees stop mid last after, Advance turn 0 pos run trees stop mid ∧
      turn trees.length stop mid last after ∧ ((∃ e, last = .error e) ∨ last.Stays stop) := by
  -- from every chain of turns that advance, by induction on how many more there can be
  have hfrom : ∀ (k : Nat) (trees : List (Tree V α)) (stop : Position) (mid : Run V α),
      bound < trees.length + k → Advance turn 0 pos run trees stop mid →
      ∃ trees stop mid last after, Advance turn 0 pos run trees stop mid ∧
        turn trees.length stop mid last after ∧ ((∃ e, last = .error e) ∨ last.Stays stop) := by
    intro k
    induction k with
    | zero =>
      intro trees stop mid hlt hadvance
      exact absurd (hbound trees stop mid hadvance) (Nat.not_le.2 hlt)
    | succ k ih =>
      intro trees stop mid hlt hadvance
      rcases hends trees stop mid hadvance with ⟨last, after, hlast⟩
      rcases last.stays_or stop with ⟨m, rfl, hgoes⟩ | hover
      · apply ih (trees ++ [m.tree]) m.stop after
        · rw [List.length_append, List.length_singleton]
          omega
        · exact hadvance.snoc (by rwa [Nat.zero_add]) hgoes
      · exact ⟨trees, stop, mid, last, after, hadvance, hlast, hover⟩
  exact hfrom (bound + 1) [] pos run (by simp) (.nil 0 pos run)

/-! ## Limits -/

/-- Whether a turn is what parts do, given one part for each limit: a greater limit changes
nothing in what comes to an end. -/
structure Turn.Of (turn : Turn V α) (part : Nat → Part V α) : Prop where
  mono : ∀ {limit limit' : Nat}, limit ≤ limit' → ∀ pos, (part limit pos).Under (part limit' pos)
  iff : ∀ {pos : Position} {run after : Run V α} {ending : Ending V α},
    turn pos run ending after ↔ ∃ limit, part limit pos run = some (ending, after)

namespace Turn.Of

variable {turn turn' : Turn V α} {part part' : Nat → Part V α} {pos : Position}
  {run after : Run V α} {ending : Ending V α}

theorem of_part (h : turn.Of part) {limit : Nat} (heq : part limit pos run = some (ending, after)) :
    turn pos run ending after := h.iff.2 ⟨limit, heq⟩

/-- A turn is what the parts do under every limit from some limit on. -/
theorem eventually (h : turn.Of part) (hturn : turn pos run ending after) :
    ∃ limit, ∀ k ≥ limit, part k pos run = some (ending, after) := by
  rcases h.iff.1 hturn with ⟨limit, hlimit⟩
  exact ⟨limit, fun k hk => h.mono hk pos run _ hlimit⟩

theorem attempted (ctx : Context V α) (r : Recognizer V α) :
    Turn.Of (r.Attempted ctx) fun limit => exec limit ctx r :=
  ⟨fun hle pos => exec_mono hle ctx r pos, Iff.rfl⟩

theorem delimited (h : turn.Of part) (h' : turn'.Of part') :
    (turn.After turn').Of fun limit => Part.after (part limit) (part' limit) := by
  refine ⟨?_, ?_⟩
  · intro limit limit' hle pos
    refine (h.mono hle pos).bind ?_
    intro found
    cases found with
    | none => exact .refl _
    | some m => exact h'.mono hle m.stop
  · intro pos run after ending
    constructor
    · rintro (hfirst | hfirst | ⟨hfirst, hsecond⟩)
      · rcases h.iff.1 hfirst with ⟨limit, hlimit⟩
        refine ⟨limit, ?_⟩
        rw [Part.after, Act.bind_apply, hlimit]
        rfl
      · rcases h.iff.1 hfirst with ⟨limit, hlimit⟩
        refine ⟨limit, ?_⟩
        rw [Part.after, Act.bind_apply, hlimit]
        rfl
      · rcases h.eventually hfirst with ⟨limit, hlimit⟩
        rcases h'.eventually hsecond with ⟨limit', hlimit'⟩
        refine ⟨limit + limit', ?_⟩
        rw [Part.after, Act.bind_apply, hlimit _ (Nat.le_add_right limit limit')]
        exact hlimit' _ (Nat.le_add_left limit' limit)
    · rintro ⟨limit, heq⟩
      rw [Part.after, Act.bind_apply] at heq
      rcases Option.bind_eq_some_iff.1 heq with ⟨⟨first, mid⟩, hfirst, hrest⟩
      have hturn := h.of_part hfirst
      rcases first with e | _ | m
      · cases hrest
        exact .raised hturn
      · cases hrest
        exact .missing hturn
      · exact .found hturn (h'.of_part hrest)

end Turn.Of

/-! ## Chains -/

namespace Part

variable {turn : Nat → Turn V α}

/-- One more step of a chain. -/
theorem chain_succ_apply (step : Part V α) (limit : Nat) (pos : Position) (run : Run V α) :
    chain step (limit + 1) pos run = (step pos run).bind fun x =>
      match x.1 with
      | .error e => some (.error e, x.2)
      | .ok none => some (.ok ([], pos), x.2)
      | .ok (some m) =>
        if pos < m.stop then
          (chain step limit m.stop x.2).map fun y =>
            (y.1.map fun c => (m.tree :: c.1, c.2), y.2)
        else some (.ok ([], pos), x.2) := by
  rw [chain, Act.bind_apply]
  congr 1
  funext x
  rcases x with ⟨_ | _ | m, mid⟩
  · rfl
  · rfl
  · by_cases hlt : pos < m.stop
    · simp only [hlt, if_true, Act.bind_apply]
      rcases chain step limit m.stop mid with _ | ⟨_ | c, after⟩ <;> rfl
    · simp only [hlt, if_false]
      rfl

/-- A repetition makes its first step and then those of a chain. -/
theorem repetition_apply (limit : Nat) (first step : Part V α) (pos : Position) (run : Run V α) :
    repetition limit first step pos run = (first pos run).bind fun x =>
      match x.1 with
      | .error e => some (.error e, x.2)
      | .ok none => some (.ok none, x.2)
      | .ok (some m) =>
        if pos < m.stop then
          (chain step limit m.stop x.2).map fun y =>
            (y.1.map fun c => some ⟨.list (m.tree :: c.1), c.2⟩, y.2)
        else some (.ok none, x.2) := by
  rw [repetition, Act.bind_apply]
  congr 1
  funext x
  rcases x with ⟨_ | _ | m, mid⟩
  · rfl
  · rfl
  · by_cases hlt : pos < m.stop
    · simp only [hlt, if_true, Act.bind_apply]
      rcases chain step limit m.stop mid with _ | ⟨_ | c, after⟩ <;> rfl
    · simp only [hlt, if_false]
      rfl

/-- What a chain comes to after some turns that advance and one last turn. -/
inductive Closes : List (Tree V α) → Position → Ending V α →
    Except ParseError (List (Tree V α) × Position) → Prop where
  | found {trees : List (Tree V α)} {pos : Position} {last : Ending V α} (h : last.Stays pos) :
      Closes trees pos last (.ok (trees, pos))
  | raised (trees : List (Tree V α)) (pos : Position) (e : ParseError) :
      Closes trees pos (.error e) (.error e)

variable {step : Nat → Part V α} (hstep : ∀ n, (turn (n + 1)).Of step)
include hstep

/-- A chain makes turns that advance and one last turn. -/
theorem exists_advance_of_chain {limit rounds : Nat} (n : Nat) {pos : Position}
    {run after : Run V α} {result : Except ParseError (List (Tree V α) × Position)}
    (h : chain (step limit) rounds pos run = some (result, after)) :
    ∃ trees stop mid last, Advance turn (n + 1) pos run trees stop mid ∧
      turn (n + 1 + trees.length) stop mid last after ∧ Closes trees stop last result := by
  induction rounds generalizing n pos run result with
  | zero => cases h
  | succ rounds ih =>
    rw [chain_succ_apply] at h
    rcases Option.bind_eq_some_iff.1 h with ⟨⟨last, mid⟩, hx, h⟩
    have hlast := (hstep n).of_part hx
    rcases last with e | _ | m
    · cases h
      exact ⟨[], pos, run, _, .nil _ _ _, hlast, .raised _ _ e⟩
    · cases h
      exact ⟨[], pos, run, _, .nil _ _ _, hlast, .found trivial⟩
    · by_cases hlt : pos < m.stop
      · simp only [hlt, if_true] at h
        rcases Option.map_eq_some_iff.1 h with ⟨⟨rest, after'⟩, hrest, heq⟩
        cases heq
        rcases ih (n + 1) hrest with ⟨trees, stop, mid', last, hadvance, hlast', hcloses⟩
        refine ⟨m.tree :: trees, stop, mid', last, .cons hlast hlt hadvance, ?_, ?_⟩
        · rw [List.length_cons, Nat.add_comm trees.length, ← Nat.add_assoc]
          exact hlast'
        · cases hcloses with
          | found hstays => exact .found hstays
          | raised e => exact .raised _ _ e
      · simp only [hlt, if_false] at h
        cases h
        exact ⟨[], pos, run, _, .nil _ _ _, hlast, .found hlt⟩

/-- Turns that advance and one last turn are those of a chain, under every limit from some limit
on. -/
theorem chain_of_advance {n : Nat} {pos stop : Position} {run mid after : Run V α}
    {trees : List (Tree V α)} {last : Ending V α}
    {result : Except ParseError (List (Tree V α) × Position)}
    (hadvance : Advance turn (n + 1) pos run trees stop mid)
    (hlast : turn (n + 1 + trees.length) stop mid last after)
    (hcloses : Closes trees stop last result) :
    ∃ limit, ∀ k ≥ limit, ∀ rounds ≥ limit,
      chain (step k) rounds pos run = some (result, after) := by
  generalize hn : n + 1 = i at hadvance hlast
  induction hadvance generalizing n result with
  | nil i pos run =>
    subst hn
    rcases (hstep n).eventually hlast with ⟨limit, hlimit⟩
    refine ⟨limit + 1, ?_⟩
    intro k hk rounds hrounds
    rcases Nat.exists_eq_add_of_le' (show 1 ≤ rounds by omega) with ⟨rounds, rfl⟩
    rw [chain_succ_apply, hlimit k (by omega), Option.bind_some]
    cases hcloses with
    | raised e => rfl
    | found h =>
      rcases last with e | _ | m
      · exact h.elim
      · rfl
      · exact if_neg h
  | @cons i pos stop run mid _ m trees hx hlt _ ih =>
    subst hn
    rcases (hstep n).eventually hx with ⟨limit, hlimit⟩
    have hrest : ∃ rest, Closes trees stop last rest ∧
        result = rest.map fun c => (m.tree :: c.1, c.2) := by
      cases hcloses with
      | found hstays => exact ⟨_, .found hstays, rfl⟩
      | raised e => exact ⟨.error e, .raised _ _ e, rfl⟩
    rcases hrest with ⟨rest, hrest, rfl⟩
    rw [List.length_cons, Nat.add_comm trees.length, ← Nat.add_assoc] at hlast
    rcases ih hrest rfl hlast with ⟨limit', hlimit'⟩
    refine ⟨limit + limit' + 1, ?_⟩
    intro k hk rounds hrounds
    rcases Nat.exists_eq_add_of_le' (show 1 ≤ rounds by omega) with ⟨rounds, rfl⟩
    rw [chain_succ_apply, hlimit k (by omega), Option.bind_some]
    simp only [hlt, if_true]
    rw [hlimit' k (by omega) rounds (by omega), Option.map_some]

/-- A repetition ends as the first of its turns says that does not advance. -/
theorem repetition_iff {first : Nat → Part V α} (hfirst : (turn 0).Of first) {pos : Position}
    {run after : Run V α} {ending : Ending V α} :
    (∃ limit, repetition limit (first limit) (step limit) pos run = some (ending, after)) ↔
      ∃ trees stop mid last, Advance turn 0 pos run trees stop mid ∧
        turn trees.length stop mid last after ∧ Concludes trees stop last ending := by
  constructor
  · rintro ⟨limit, h⟩
    rw [repetition_apply] at h
    rcases Option.bind_eq_some_iff.1 h with ⟨⟨last, mid⟩, hx, h⟩
    have hlast := hfirst.of_part hx
    rcases last with e | _ | m
    · cases h
      exact ⟨[], pos, run, _, .nil _ _ _, hlast, .raised _ _ e⟩
    · cases h
      exact ⟨[], pos, run, _, .nil _ _ _, hlast, .nothing trivial⟩
    · by_cases hlt : pos < m.stop
      · simp only [hlt, if_true] at h
        rcases Option.map_eq_some_iff.1 h with ⟨⟨rest, after'⟩, hrest, heq⟩
        cases heq
        rcases exists_advance_of_chain hstep 0 hrest with
          ⟨trees, stop, mid', last, hadvance, hlast', hcloses⟩
        refine ⟨m.tree :: trees, stop, mid', last, .cons hlast hlt hadvance, ?_, ?_⟩
        · rw [List.length_cons, Nat.add_comm trees.length, ← Nat.zero_add 1]
          exact hlast'
        · cases hcloses with
          | found hstays => exact .found hstays
          | raised e => exact .raised _ _ e
      · simp only [hlt, if_false] at h
        cases h
        exact ⟨[], pos, run, _, .nil _ _ _, hlast, .nothing hlt⟩
  · rintro ⟨trees, stop, mid, last, hadvance, hlast, hconcludes⟩
    cases hadvance with
    | nil =>
      rcases hfirst.eventually hlast with ⟨limit, hlimit⟩
      refine ⟨limit, ?_⟩
      rw [repetition_apply, hlimit limit (Nat.le_refl limit), Option.bind_some]
      cases hconcludes with
      | raised e => rfl
      | nothing h =>
        rcases last with e | _ | m
        · exact h.elim
        · rfl
        · exact if_neg h
    | @cons _ _ _ _ mid' _ m trees hx hlt hrest =>
      rcases hfirst.eventually hx with ⟨limit, hlimit⟩
      have hcloses : ∃ rest, Closes trees stop last rest ∧
          ending = rest.map fun c => some ⟨.list (m.tree :: c.1), c.2⟩ := by
        cases hconcludes with
        | found hstays => exact ⟨_, .found hstays, rfl⟩
        | raised _ _ e => exact ⟨.error e, .raised _ _ e, rfl⟩
      rcases hcloses with ⟨rest, hcloses, rfl⟩
      rw [List.length_cons, Nat.add_comm trees.length, ← Nat.zero_add 1] at hlast
      rcases chain_of_advance hstep hrest hlast hcloses with ⟨limit', hlimit'⟩
      refine ⟨limit + limit', ?_⟩
      rw [repetition_apply, hlimit _ (by omega), Option.bind_some]
      simp only [hlt, if_true]
      rw [hlimit' _ (by omega) _ (by omega), Option.map_some]

end Part

/-! ## Repetitions -/

namespace Recognizer

variable {ctx : Context V α} {handle : Handle} {p : Recognizer V α}
  {delimiter : Option (Recognizer V α)} {pos : Position} {run after : Run V α}
  {ending : Ending V α}

theorem turn_of_succ (ctx : Context V α) (p d : Recognizer V α) (n : Nat) :
    (p.turn ctx (some d) (n + 1)).Of fun limit =>
      Part.after (exec limit ctx d) (exec limit ctx p) :=
  (Turn.Of.attempted ctx d).delimited (.attempted ctx p)

/-- What a repetition does itself, in terms of its turns. -/
theorem works_repetition_iff :
    (node handle (.repetition p delimiter)).Works ctx pos run ending after ↔
      ∃ trees stop mid last, Advance (p.turn ctx delimiter) 0 pos run trees stop mid ∧
        p.turn ctx delimiter trees.length stop mid last after ∧
        Concludes trees stop last ending := by
  cases delimiter with
  | none =>
    have hturn : ∀ n, (p.turn ctx none n).Of fun limit => exec limit ctx p := by
      intro n
      cases n <;> exact .attempted ctx p
    exact Part.repetition_iff (fun n => hturn (n + 1)) (hturn 0)
  | some d => exact Part.repetition_iff (p.turn_of_succ ctx d) (.attempted ctx p)

/-- An attempt ends as the recognizer's own work does, with its notes in the log, if it does not
replay an outcome. -/
theorem attempted_iff {r : Recognizer V α} :
    r.Attempted ctx pos run ending after ↔
      match run.way r.handle.caching with
      | .straight => ∃ done, r.Works ctx pos ((run.entering r pos).atWork r pos) ending done ∧
          after = done.leaving r pos ending
      | .replays ses outcome => ending = .ok outcome ∧
          after = ((run.entering r pos).withSession (some ses.reserve)).leaving r pos (.ok outcome)
      | .builds s ses =>
          ∃ done, r.Works ctx pos (((run.entering r pos).building ses).atWork r pos) ending done ∧
            after = (Act.built s ses.ordinal ending done).leaving r pos ending := by
  have hone : r.Attempted ctx pos run ending after ↔
      ∃ limit, r.attempt (exec limit) limit ctx pos run = some (ending, after) := by
    constructor
    · rintro ⟨_ | limit, h⟩
      · cases h
      · exact ⟨limit, h⟩
    · rintro ⟨limit, h⟩
      exact ⟨limit + 1, h⟩
  rw [hone]
  cases hway : run.way r.handle.caching with
  | straight =>
    simp only [attempt_eq_of_straight hway, Option.map_eq_some_iff, Prod.mk.injEq, Works]
    constructor
    · rintro ⟨limit, ⟨last, done⟩, hwork, rfl, rfl⟩
      exact ⟨done, ⟨limit, hwork⟩, rfl⟩
    · rintro ⟨done, ⟨limit, hwork⟩, rfl⟩
      exact ⟨limit, (ending, done), hwork, rfl, rfl⟩
  | replays ses outcome =>
    simp only [attempt_eq_of_replays hway, Option.some.injEq, Prod.mk.injEq, exists_const]
    constructor
    · rintro ⟨rfl, rfl⟩
      exact ⟨rfl, rfl⟩
    · rintro ⟨rfl, rfl⟩
      exact ⟨rfl, rfl⟩
  | builds s ses =>
    simp only [attempt_eq_of_builds hway, Option.map_eq_some_iff, Prod.mk.injEq, Works]
    constructor
    · rintro ⟨limit, ⟨last, done⟩, hwork, rfl, rfl⟩
      exact ⟨done, ⟨limit, hwork⟩, rfl⟩
    · rintro ⟨done, ⟨limit, hwork⟩, rfl⟩
      exact ⟨limit, (ending, done), hwork, rfl, rfl⟩

/-- Repetition is exactly the maximal chain of advancing turns, whatever its parts do.  It matches
with the trees of the turns that advance and stops with the last of them, if there is one and the
turn after it does not advance; it fails when the first turn does not advance; and it raises an
error that a turn after some advancing ones raises.  An attempt of it does just this, unless an
outcome is replayed. -/
theorem repetition_turns (ctx : Context V α) (handle : Handle) (p : Recognizer V α)
    (delimiter : Option (Recognizer V α)) (pos : Position) (run : Run V α) :
    let r := node handle (.repetition p delimiter)
    let turn := p.turn ctx delimiter
    (∀ m after, r.Works ctx pos run (.ok (some m)) after ↔
      ∃ trees mid last, trees ≠ [] ∧ m.tree = .list trees ∧
        Advance turn 0 pos run trees m.stop mid ∧
        turn trees.length m.stop mid last after ∧ last.Stays m.stop) ∧
    (∀ after, r.Works ctx pos run (.ok none) after ↔
      ∃ first, turn 0 pos run first after ∧ first.Stays pos) ∧
    (∀ e after, r.Works ctx pos run (.error e) after ↔
      ∃ trees stop mid, Advance turn 0 pos run trees stop mid ∧
        turn trees.length stop mid (.error e) after) ∧
    ∀ ending after, r.Attempted ctx pos run ending after ↔
      match run.way handle.caching with
      | .straight => ∃ done, r.Works ctx pos ((run.entering r pos).atWork r pos) ending done ∧
          after = done.leaving r pos ending
      | .replays ses outcome => ending = .ok outcome ∧
          after = ((run.entering r pos).withSession (some ses.reserve)).leaving r pos (.ok outcome)
      | .builds s ses =>
          ∃ done, r.Works ctx pos (((run.entering r pos).building ses).atWork r pos) ending done ∧
            after = (Act.built s ses.ordinal ending done).leaving r pos ending := by
  intro r turn
  refine ⟨?_, ?_, ?_, fun ending after => attempted_iff⟩
  · intro m after
    rw [works_repetition_iff]
    constructor
    · rintro ⟨trees, stop, mid, last, hadvance, hlast, hconcludes⟩
      cases hconcludes with
      | found hstays => exact ⟨_, mid, last, List.cons_ne_nil _ _, rfl, hadvance, hlast, hstays⟩
    · rintro ⟨trees, mid, last, hne, htree, hadvance, hlast, hstays⟩
      refine ⟨trees, m.stop, mid, last, hadvance, hlast, ?_⟩
      rcases m with ⟨tree, stop⟩
      cases htree
      cases trees with
      | nil => exact absurd rfl hne
      | cons tree trees => exact .found hstays
  · intro after
    rw [works_repetition_iff]
    constructor
    · rintro ⟨trees, stop, mid, last, hadvance, hlast, hconcludes⟩
      cases hconcludes with
      | nothing hstays =>
        cases hadvance
        exact ⟨last, hlast, hstays⟩
    · rintro ⟨first, hfirst, hstays⟩
      exact ⟨[], pos, run, first, .nil _ _ _, hfirst, .nothing hstays⟩
  · intro e after
    rw [works_repetition_iff]
    constructor
    · rintro ⟨trees, stop, mid, last, hadvance, hlast, hconcludes⟩
      cases hconcludes with
      | raised => exact ⟨trees, stop, mid, hadvance, hlast⟩
    · rintro ⟨trees, stop, mid, hadvance, hlast⟩
      exact ⟨trees, stop, mid, _, hadvance, hlast, .raised trees stop e⟩

end Recognizer

end SlotGrammar
