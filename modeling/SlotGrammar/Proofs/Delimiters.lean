import SlotGrammar.Proofs.Cursor
import SlotGrammar.Proofs.Repetition

/-!
# Delimiters

A repetition with a delimiter looks at the cursor once a turn, and a turn is a match of the
delimiter and a match of the part together.  So the part may match without moving, as long as
the delimiter has moved: the value of such a match counts, and when it is the last one the
repetition stops right behind a delimiter.  The first turn has no delimiter, and there the part
itself has to move.

Main results:

- Theorem `Recognizer.exists_laps`: the values of a match, each with where its delimiter and its
  part were attempted.
- Theorem `Grammar.InUse.delimited_laps`: in each turn the part moves the cursor, or the delimiter
  before it does.
-/

namespace SlotGrammar

variable {V α : Type}

/-! ## Laps -/

/-- A turn that counts: where it started, where its part was attempted, and the match of the
part. -/
structure Lap (V α : Type) where
  start : Position
  inner : Position
  found : Match V α

/-- The trees that some turns give. -/
def Lap.trees (laps : List (Lap V α)) : List (Tree V α) := laps.map fun lap => lap.found.tree

/-- Some turns one after the other, each of which moves the cursor forward.  The number is that
of the turns before the first one.  Every turn but the very first begins with the delimiter. -/
inductive Laps (ctx : Context V α) (p d : Recognizer V α) :
    Nat → Position → Run V α → List (Lap V α) → Position → Run V α → Prop where
  | nil (n : Nat) (pos : Position) (run : Run V α) : Laps ctx p d n pos run [] pos run
  | first {pos stop : Position} {run mid after : Run V α} {m : Match V α} {laps : List (Lap V α)}
      (hpart : p.Attempted ctx pos run (.ok (some m)) mid) (hlt : pos < m.stop)
      (hrest : Laps ctx p d 1 m.stop mid laps stop after) :
      Laps ctx p d 0 pos run (⟨pos, pos, m⟩ :: laps) stop after
  | next {n : Nat} {pos stop : Position} {run mid mid' after : Run V α} {skipped m : Match V α}
      {laps : List (Lap V α)} (hdelimiter : d.Attempted ctx pos run (.ok (some skipped)) mid)
      (hpart : p.Attempted ctx skipped.stop mid (.ok (some m)) mid') (hlt : pos < m.stop)
      (hrest : Laps ctx p d (n + 2) m.stop mid' laps stop after) :
      Laps ctx p d (n + 1) pos run (⟨pos, skipped.stop, m⟩ :: laps) stop after

section Laps

variable {ctx : Context V α} {p d : Recognizer V α} {n : Nat} {pos stop : Position}
  {run after : Run V α} {laps : List (Lap V α)}

/-- Turns that advance are laps. -/
theorem Advance.exists_laps {trees : List (Tree V α)}
    (h : Advance (p.turn ctx (some d)) n pos run trees stop after) :
    ∃ laps, Lap.trees laps = trees ∧ Laps ctx p d n pos run laps stop after := by
  induction h with
  | nil n pos run => exact ⟨[], rfl, .nil n pos run⟩
  | @cons n pos stop run mid after m trees hturn hlt _ ih =>
    rcases ih with ⟨laps, rfl, hlaps⟩
    cases n with
    | zero => exact ⟨_, rfl, .first hturn hlt hlaps⟩
    | succ n =>
      cases hturn with
      | found hdelimiter hpart => exact ⟨_, rfl, .next hdelimiter hpart hlt hlaps⟩

/-- A lap moves the cursor forward, and the first one starts with its part. -/
theorem Laps.lt_stop (h : Laps ctx p d n pos run laps stop after) :
    ∀ lap ∈ laps, lap.start < lap.found.stop := by
  induction h with
  | nil => simp
  | first _ hlt _ ih => exact List.forall_mem_cons.2 ⟨hlt, ih⟩
  | next _ _ hlt _ ih => exact List.forall_mem_cons.2 ⟨hlt, ih⟩

/-- Laps stop where the match of the last part does. -/
theorem Laps.stop_eq (h : Laps ctx p d n pos run laps stop after) :
    ∀ last ∈ laps.getLast?, last.found.stop = stop := by
  have hrest : ∀ {m : Match V α} {laps : List (Lap V α)} {lap : Lap V α} {n : Nat}
      {mid after : Run V α}, lap.found = m → Laps ctx p d n m.stop mid laps stop after →
      (∀ last ∈ laps.getLast?, last.found.stop = stop) →
      ∀ last ∈ (lap :: laps).getLast?, last.found.stop = stop := by
    intro m laps lap n mid after hfound hlaps ih last hlast
    cases laps with
    | nil =>
      cases hlast
      cases hlaps
      exact congrArg Match.stop hfound
    | cons lap' laps => exact ih last (by rwa [List.getLast?_cons_cons] at hlast)
  induction h with
  | nil => simp
  | first _ _ hlaps ih => exact hrest rfl hlaps (ih hrest)
  | next _ _ _ hlaps ih => exact hrest rfl hlaps (ih hrest)

/-- A match of a repetition with a delimiter is made of laps, one for each value. -/
theorem Recognizer.exists_laps {handle : Handle} {m : Match V α}
    (h : (node handle (.separated p d)).Works ctx pos run (.ok (some m)) after) :
    ∃ first rest mid, m.tree = .list (Lap.trees (first :: rest)) ∧
      Laps ctx p d 0 pos run (first :: rest) m.stop mid := by
  have hworks : (node handle (.repetition p (some d))).Works ctx pos run (.ok (some m)) after := h
  rcases works_repetition_iff.1 hworks with
    ⟨trees, stop, mid, last, hadvance, -, hconcludes⟩
  cases hconcludes with
  | found =>
    rcases hadvance.exists_laps with ⟨laps, htrees, hlaps⟩
    cases laps with
    | nil => cases htrees
    | cons first rest => exact ⟨first, rest, mid, by rw [htrees], hlaps⟩

end Laps

/-! ## Laps of the library -/

section Library

variable {nesting : Nesting V α} {ctx : Context V α} {p d r : Recognizer V α} {n : Nat}
  {pos stop : Position} {run after : Run V α} {laps : List (Lap V α)}

/-- Whether a run without a session is in order. -/
def Run.Alone (nesting : Nesting V α) (run : Run V α) : Prop :=
  run.session = none ∧ run.InOrder Shape.Standard nesting

/-- A match that is found without a session moves the cursor as it may go. -/
theorem Recognizer.Attempted.proceeds {m : Match V α}
    (h : r.Attempted ctx pos run (.ok (some m)) after) (hrun : run.Alone nesting)
    (hr : r.Belongs Shape.Standard run.grammar.stores.size) :
    ctx.input.Proceeds pos m.stop ∧ after.Alone nesting ∧ run.Continues after := by
  rcases h with ⟨limit, h⟩
  rcases hrun with ⟨hnone, hok⟩
  have hends := ((Account.onward ctx.input).admits_alone limit rfl pos hnone hok hr).ends _ _ h
  rcases hok.attempted hr h with ⟨hok', hcontinues⟩
  refine ⟨hends, ⟨?_, hok'⟩, hcontinues⟩
  have hid := hcontinues.id_eq
  rw [hnone] at hid
  exact Option.map_eq_none_iff.1 hid

/-- In laps of the library nothing moves backwards. -/
theorem Laps.ordered (h : Laps ctx p d n pos run laps stop after) (hrun : run.Alone nesting)
    (hp : p.Belongs Shape.Standard run.grammar.stores.size)
    (hd : d.Belongs Shape.Standard run.grammar.stores.size) :
    ∀ lap ∈ laps, lap.start ≤ lap.inner ∧ lap.inner ≤ lap.found.stop := by
  induction h with
  | nil => simp
  | first hpart hlt _ ih =>
    rcases hpart.proceeds hrun hp with ⟨hmoves, hmid, hcontinues⟩
    have hle := (hmoves.1 (hmoves.hasRoom hlt)).2.1
    refine List.forall_mem_cons.2 ⟨⟨Position.le_refl _, hle⟩, ?_⟩
    exact ih hmid (hp.mono hcontinues.size_le) (hd.mono hcontinues.size_le)
  | next hdelimiter hpart hlt _ ih =>
    rcases hdelimiter.proceeds hrun hd with ⟨hskips, hmid, hcontinues⟩
    rcases hpart.proceeds hmid (hp.mono hcontinues.size_le) with ⟨hmoves, hmid', hcontinues'⟩
    -- a lap goes forward, so there was room where it started
    rcases hskips.1 ((hskips.trans hmoves).hasRoom hlt) with ⟨hroom, hskipped⟩
    have hle := (hmoves.1 hroom).2.1
    have hsize := (hcontinues.trans hcontinues').size_le
    exact List.forall_mem_cons.2 ⟨⟨hskipped.1, hle⟩, ih hmid' (hp.mono hsize) (hd.mono hsize)⟩

end Library

namespace Position

variable {p q r : Position}

/-- What moves forward in two steps, none of which goes backwards, moves in the second one or
else in the first one. -/
theorem lt_or_of_le (hpq : p ≤ q) (hqr : q ≤ r) (h : p < r) : q < r ∨ q = r ∧ p < q := by
  rcases p with ⟨_, _⟩
  rcases q with ⟨_, _⟩
  rcases r with ⟨_, _⟩
  simp only [lt_iff, le_iff, mk.injEq] at *
  omega

end Position

namespace Grammar

variable {g : Grammar V α} {hand : List (Recognizer V α)}

/-- What a repetition with a delimiter matches by itself, in a grammar of the library in any use
and from any position.  Each of its values comes from a match of the part, at the start for the
first one and else behind a match of the delimiter, and the repetition stops with the last of
these.  In each turn the part moves the cursor, or the delimiter before it does and the part
stays there.  In the first turn the part moves. -/
theorem InUse.delimited_laps (h : g.InUse Shape.Standard hand) {handle : Handle}
    {p d : Recognizer V α} (hroot : Recognizer.node handle (.separated p d) ∈ hand) {limit : Nat}
    {input : Fragments} {values : List V} {window : ErrorWindow} {pos : Position}
    {report : Report V α} {m : Match V α}
    (hreport : g.exec? limit (.node handle (.separated p d)) input values window pos = some report)
    (hmatch : report.ending = .ok (some m)) :
    let root := Recognizer.node handle (.separated p d)
    let ctx : Context V α := ⟨input, values, { errorWindow := window }, [root]⟩
    let start := (Run.entering { grammar := g } root pos).atWork root pos
    ∃ first rest mid, m.tree = .list (Lap.trees (first :: rest)) ∧
      Laps ctx p d 0 pos start (first :: rest) m.stop mid ∧
      (∀ last ∈ (first :: rest).getLast?, last.found.stop = m.stop) ∧
      pos < first.found.stop ∧ first.inner = pos ∧
      ∀ lap ∈ first :: rest, lap.start ≤ lap.inner ∧
        (lap.inner < lap.found.stop ∨ lap.inner = lap.found.stop ∧ lap.start < lap.inner) := by
  intro root ctx start
  rcases Option.map_eq_some_iff.1 hreport with ⟨⟨ending, after⟩, hafter, rfl⟩
  cases hmatch
  have hway : Run.way ({ grammar := g } : Run V α) root.handle.caching = .straight :=
    Run.way_of_no_session rfl _
  have hworks : ∃ done, root.Works ctx pos start (.ok (some m)) done := by
    have hattempted : root.Attempted ctx pos { grammar := g } (.ok (some m)) after :=
      ⟨limit, hafter⟩
    rw [Recognizer.attempted_iff, hway] at hattempted
    rcases hattempted with ⟨done, hworks, -⟩
    exact ⟨done, hworks⟩
  rcases hworks with ⟨done, hworks⟩
  rcases Recognizer.exists_laps hworks with ⟨first, rest, mid, htree, hlaps⟩
  have hok := h.ready.alone root input
  have hstart : start.Alone ⟨{ root, input }, []⟩ := ⟨rfl, ⟨hok.flight, hok.coherent⟩⟩
  have hbelongs := h.ready.belongs root hroot
  have hordered := hlaps.ordered hstart (hbelongs.part List.mem_cons_self)
    (hbelongs.part (List.mem_cons_of_mem _ List.mem_cons_self))
  refine ⟨first, rest, mid, htree, hlaps, hlaps.stop_eq, ?_, ?_, ?_⟩
  · cases hlaps with
    | first _ hlt _ => exact hlt
  · cases hlaps with
    | first => rfl
  · intro lap hlap
    rcases hordered lap hlap with ⟨hle, hle'⟩
    exact ⟨hle, Position.lt_or_of_le hle hle' (hlaps.lt_stop lap hlap)⟩

/-! ## A delimiter at the end -/

/-- Letters that may be missing, with commas between. -/
def maybeLetters : Recognizer Nat Nat × Grammar Nat Nat :=
  Grammar.build [] (.separated (.optional (.literal ['a'])) (.literal [','])) {}

/-- The letter that may be missing. -/
def maybeLetter : Recognizer Nat Nat :=
  .node ⟨1, 1, .never, []⟩ (.optional (.node ⟨0, 0, .never, []⟩ (.leaf (.find (.literal ['a'])))))

/-- The comma. -/
def comma : Recognizer Nat Nat := .node ⟨2, 2, .never, []⟩ (.leaf (.find (.literal [','])))

/-- The handle of the letters. -/
def maybeLettersHandle : Handle := ⟨3, 3, .never, []⟩

theorem maybeLetters_eq :
    maybeLetters.1 = .node maybeLettersHandle (.separated maybeLetter comma) := rfl

/-- A letter and a comma behind it. -/
def letterAndComma : Fragments := ⟨[['a', ',']]⟩

theorem maybeLetters_inUse : maybeLetters.2.InUse Shape.Standard
    [.node maybeLettersHandle (.separated maybeLetter comma)] := by
  apply InUse.empty.build
  simp [Expr.separated, Expr.literal, Expr.optional, Shape.outline, Shape.parts, Shape.withParts,
    Shape.Standard]

/-- Of a letter and a comma all is matched. -/
theorem maybeLetters_matches :
    ∃ report, maybeLetters.2.exec? 10 (.node maybeLettersHandle (.separated maybeLetter comma))
        letterAndComma [] {} .start = some report ∧
      report.ending = .ok (some ⟨.list [.present (.text ['a']), .absent], ⟨0, 2⟩⟩) := by
  have hrun : (maybeLetters.2.exec? 10 (.node maybeLettersHandle (.separated maybeLetter comma))
      letterAndComma [] {} .start).any (fun report =>
        report.ending = .ok (some ⟨.list [.present (.text ['a']), .absent], ⟨0, 2⟩⟩)) = true := by
    decide +kernel
  rcases (Option.any_eq_true _ _).1 hrun with ⟨report, hreport, hmatch⟩
  exact ⟨report, hreport, of_decide_eq_true hmatch⟩

/-- The last value of the match comes from behind the comma, and what moved there is the letter or
the comma before it. -/
theorem maybeLetters_delimited : ∃ report : Report Nat Nat, ∃ first rest,
    maybeLetters.2.exec? 10 (.node maybeLettersHandle (.separated maybeLetter comma))
      letterAndComma [] {} .start = some report ∧
    report.ending = .ok (some ⟨.list (Lap.trees (first :: rest)), ⟨0, 2⟩⟩) ∧
    Lap.trees (first :: rest) = [.present (.text ['a']), .absent] ∧
    first.inner = .start ∧ .start < first.found.stop ∧
    ∀ last ∈ (first :: rest).getLast?, last.found.stop = ⟨0, 2⟩ ∧
      (last.inner < last.found.stop ∨
        last.inner = last.found.stop ∧ last.start < last.inner) := by
  rcases maybeLetters_matches with ⟨report, hreport, hmatch⟩
  rcases maybeLetters_inUse.delimited_laps List.mem_cons_self hreport hmatch with
    ⟨first, rest, mid, htree, -, hstop, hlt, hinner, hordered⟩
  have htrees : Lap.trees (first :: rest) = [.present (.text ['a']), .absent] :=
    (Tree.list.inj htree).symm
  refine ⟨report, first, rest, hreport, ?_, htrees, hinner, hlt, ?_⟩
  · rw [hmatch, htrees]
  · intro last hlast
    exact ⟨hstop last hlast, (hordered last (List.mem_of_getLast? hlast)).2⟩

/-- A delimiter at the end is consumed when the part may match without moving.  The letter is
attempted behind the comma, does not move the cursor there, and yet gives the last value of the
match, which stops right behind the comma. -/
theorem maybeLetters_trailing :
    let root := Recognizer.node maybeLettersHandle (.separated maybeLetter comma)
    let ctx : Context Nat Nat := ⟨letterAndComma, [], {}, [root]⟩
    let start := (Run.entering { grammar := maybeLetters.2 } root .start).atWork root .start
    maybeLetters.1 = root ∧
    (∃ report, maybeLetters.2.exec? 10 root letterAndComma [] {} .start = some report ∧
      report.ending = .ok (some ⟨.list [.present (.text ['a']), .absent], ⟨0, 2⟩⟩)) ∧
    ∃ (first last : Lap Nat Nat) (mid : Run Nat Nat),
      Laps ctx maybeLetter comma 0 .start start [first, last] ⟨0, 2⟩ mid ∧
      Lap.trees [first, last] = [.present (.text ['a']), .absent] ∧
      last.inner = ⟨0, 2⟩ ∧ ¬ last.inner < last.found.stop := by
  intro root ctx start
  refine ⟨maybeLetters_eq, maybeLetters_matches, ?_⟩
  have hruns : (exec 10 ctx maybeLetter .start start).any (fun x =>
      x.1 = .ok (some ⟨.present (.text ['a']), ⟨0, 1⟩⟩) ∧
      (exec 10 ctx comma ⟨0, 1⟩ x.2).any fun y => y.1 = .ok (some ⟨.text [','], ⟨0, 2⟩⟩) ∧
        (exec 10 ctx maybeLetter ⟨0, 2⟩ y.2).any fun z =>
          z.1 = .ok (some ⟨.absent, ⟨0, 2⟩⟩)) = true := by decide +kernel
  rcases (Option.any_eq_true _ _).1 hruns with ⟨⟨_, mid⟩, hfirst, hruns⟩
  rcases of_decide_eq_true hruns with ⟨rfl, hruns⟩
  rcases (Option.any_eq_true _ _).1 hruns with ⟨⟨_, mid'⟩, hcomma, hruns⟩
  rcases of_decide_eq_true hruns with ⟨rfl, hruns⟩
  rcases (Option.any_eq_true _ _).1 hruns with ⟨⟨_, mid''⟩, hlast, hruns⟩
  cases of_decide_eq_true hruns
  refine ⟨_, _, mid'', .first ⟨10, hfirst⟩ (by decide) (.next ⟨10, hcomma⟩ ⟨10, hlast⟩ (by decide)
    (.nil _ _ _)), rfl, rfl, Position.lt_irrefl _⟩

end Grammar

end SlotGrammar
