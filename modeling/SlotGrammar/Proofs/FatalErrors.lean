import SlotGrammar.Proofs.Accounts

/-!
# Fatal errors

With shapes that catch no errors, the first fatal error ends a parse: whatever is attempted
at that time passes it on, and nothing is attempted anymore.  Only a required recognizer
raises one, where its part does not match, found or replayed.  (An error about a definition
that is gone is no such error.)

Main results:

- Theorem `mild_script`: of the shapes that let errors through, only a required recognizer
  raises an error of its own.
- Theorem `halts_exec`: the first error ends an attempt.
- Theorem `InUse.parse?_halts`: a parse raises the error of a required recognizer whose part
  does not match, and this is the last thing that it does.
-/

namespace SlotGrammar

variable {V α : Type}

/-! ## Scripts -/

/-- Whether a shape lets the errors of its parts through. -/
def Shape.LetsThrough {ρ : Type} : Shape V α ρ → Prop
  | .catching _ => False
  | .nested _ _ => False
  | _ => True

theorem Shape.letsThrough_outline {shape : Shape V α (Recognizer V α)} :
    shape.outline.LetsThrough ↔ shape.LetsThrough := by
  cases shape <;> exact Iff.rfl

namespace Script

/-- Whether a script raises no errors of its own after parts that raise none. -/
inductive Mild : Script V α → Prop where
  | ended (outcome : Outcome V α) : Mild (.ended (.ok outcome))
  | exhausted : Mild .exhausted
  | call {p : Recognizer V α} {pos : Position} {next : Ending V α → Script V α}
      (hnext : ∀ outcome, Mild (next (.ok outcome))) : Mild (.call p pos next)
  | clear {t : Recognizer V α} {next : Script V α} (hnext : Mild next) : Mild (.clear t next)
  | note {event : Event V α} {next : Script V α} (hnext : Mild next) : Mild (.note event next)
  | probe {label : String} {p : Recognizer V α} {pos : Position} : Mild (.probe label p pos)

theorem mild_last {p : Recognizer V α} {pos : Position} : Mild (onOutcome p pos done) :=
  .call .ended

theorem Mild.of_simple {parts : List (Recognizer V α)} {script : Script V α}
    (h : Simple parts script) : Mild script := by
  induction h with
  | done outcome => exact .ended outcome
  | exhausted => exact .exhausted
  | onOutcome _ _ ih => exact .call ih

/-- Of the shapes that let errors through, only a required recognizer raises an error of its
own. -/
theorem mild_script {shape : Shape V α (Recognizer V α)} (hthrough : shape.LetsThrough)
    (hrequired : ∀ p, shape ≠ .required p) (limit : Nat) (view : View V) (pos : Position) :
    Mild (shape.script limit view pos) := by
  cases shape with
  | required p => exact absurd rfl (hrequired p)
  | catching p => exact hthrough.elim
  | nested sub p => exact hthrough.elim
  | clearing t p => exact .clear mild_last
  | counted label p => exact .note mild_last
  | probed label p => exact .probe
  | _ =>
    apply Mild.of_simple
    apply simple_script
    trivial

end Script

/-! ## Required parts that do not match -/

/-- The error that an attempt has ended with, if it has. -/
def Ending.error? : Ending V α → Option ParseError
  | .error e => some e
  | .ok _ => none

/-- The error that a call passes on in a snapshot, if it does. -/
def Snapshot.error? (snap : Snapshot V α) : Option ParseError :=
  match snap.occasion with
  | .worked _ ending => ending.error?
  | .returned _ _ ending => ending.error?
  | _ => none

/-- The parses in flight and the state in which the own logic of a recognizer starts, if its
outcome is not replayed. -/
def Recognizer.start? (r : Recognizer V α) (nesting : Nesting V α) (pos : Position)
    (run : Run V α) : Option (Nesting V α × Run V α) :=
  match run.way r.handle.caching with
  | .straight => some (nesting, (run.entering r pos).atWork r pos)
  | .replays _ _ => none
  | .builds _ ses =>
    some (nesting.work ses.ordinal, ((run.entering r pos).building ses).atWork r pos)

/-- The snapshots of a call whose own logic is over. -/
def Recognizer.lastSnapshots (r : Recognizer V α) (nesting : Nesting V α) (pos : Position)
    (run : Run V α) (ending : Ending V α) (mid : Run V α) : List (Snapshot V α) :=
  match run.way r.handle.caching with
  | .builds s ses =>
    Snapshot.afterWork nesting s ses.ordinal ending mid ++
      [⟨.returned r.handle pos ending, nesting,
        (Act.built s ses.ordinal ending mid).leaving r pos ending⟩]
  | _ => [⟨.returned r.handle pos ending, nesting, mid.leaving r pos ending⟩]

section Calls

variable {attempt : Attempt V α} {watch : Watch V α} {limit : Nat} {nesting inside : Nesting V α}
  {ctx : Context V α} {r : Recognizer V α} {pos : Position} {run start : Run V α}

/-- What follows the own logic of a recognizer passes on its error, if there is one. -/
theorem Recognizer.error?_lastSnapshots (ending : Ending V α) (mid : Run V α) :
    ∀ snap ∈ r.lastSnapshots nesting pos run ending mid, snap.error? = ending.error? := by
  intro snap hsnap
  unfold lastSnapshots at hsnap
  cases hway : run.way r.handle.caching with
  | builds s ses =>
    rw [hway] at hsnap
    rcases List.mem_append.1 hsnap with hafter | hlast
    · cases ending with
      | error e =>
        rw [List.mem_singleton.1 hafter]
        rfl
      | ok outcome =>
        have hforall : ∀ snap ∈ Snapshot.afterWork nesting s ses.ordinal (.ok outcome) mid,
            snap.error? = none := Snapshot.forall_afterWork rfl fun _ => rfl
        exact hforall snap hafter
    · rw [List.mem_singleton.1 hlast]
      rfl
  | _ =>
    rw [hway] at hsnap
    rw [List.mem_singleton.1 hsnap]
    rfl

/-- A call in which the recognizer works ends as its work does. -/
theorem Recognizer.attempt_of_start (h : r.start? nesting pos run = some (inside, start)) :
    ∃ change : Ending V α → Run V α → Run V α, r.attempt attempt limit ctx pos run =
      (r.work attempt limit ctx pos start).map fun x => (x.1, change x.1 x.2) := by
  unfold start? at h
  cases hway : run.way r.handle.caching with
  | straight =>
    rw [hway] at h
    cases h
    exact ⟨fun ending mid => mid.leaving r pos ending, attempt_eq_of_straight hway⟩
  | replays ses o =>
    rw [hway] at h
    cases h
  | builds s ses =>
    rw [hway] at h
    cases h
    exact ⟨fun ending mid => (Act.built s ses.ordinal ending mid).leaving r pos ending,
      attempt_eq_of_builds hway⟩

/-- The snapshots of a call in which the recognizer works. -/
theorem Recognizer.snapshots_of_start (h : r.start? nesting pos run = some (inside, start)) :
    Recognizer.snapshots attempt watch limit nesting ctx r pos run =
      ⟨.entered r.handle pos, nesting, run⟩ :: ⟨.working r.handle pos, inside, start⟩ ::
        (r.workSnapshots attempt watch limit inside ctx pos start ++
          Snapshot.afterwards (r.work attempt limit ctx pos start)
            (r.lastSnapshots nesting pos run)) := by
  unfold start? at h
  unfold snapshots callSnapshots lastSnapshots
  cases hway : run.way r.handle.caching with
  | straight =>
    rw [hway] at h
    cases h
    rw [attempt_eq_of_straight hway]
    cases r.work attempt limit ctx pos ((run.entering r pos).atWork r pos) <;> rfl
  | replays ses o =>
    rw [hway] at h
    cases h
  | builds s ses =>
    rw [hway] at h
    cases h
    rw [attempt_eq_of_builds hway]
    dsimp only
    cases r.work attempt limit ctx pos (((run.entering r pos).building ses).atWork r pos) with
    | none => simp [Snapshot.afterwards]
    | some x => simp [Snapshot.afterwards]

/-- A call whose outcome is replayed: how it ends, and its snapshots. -/
theorem Recognizer.attempt_of_no_start (h : r.start? nesting pos run = none) :
    ∃ outcome after, r.attempt attempt limit ctx pos run = some (.ok outcome, after) ∧
      Recognizer.snapshots attempt watch limit nesting ctx r pos run =
        [⟨.entered r.handle pos, nesting, run⟩,
          ⟨.returned r.handle pos (.ok outcome), nesting, after⟩] := by
  unfold start? at h
  unfold snapshots callSnapshots
  cases hway : run.way r.handle.caching with
  | straight =>
    rw [hway] at h
    cases h
  | replays ses o =>
    rw [attempt_eq_of_replays hway]
    exact ⟨o, _, rfl, rfl⟩
  | builds s ses =>
    rw [hway] at h
    cases h

/-- The own logic of a recognizer starts in order. -/
theorem Run.InOrder.started {T : Shape V α Unit → Prop} (hok : run.InOrder T nesting)
    (hr : r.Belongs T run.grammar.stores.size)
    (h : r.start? nesting pos run = some (inside, start)) :
    start.InOrder T inside ∧ r.Belongs T start.grammar.stores.size := by
  unfold Recognizer.start? at h
  cases hway : run.way r.handle.caching with
  | straight =>
    rw [hway] at h
    cases h
    exact ⟨((bookkeeping T).straight pos hok hr hway).1, hr⟩
  | replays ses o =>
    rw [hway] at h
    cases h
  | builds s ses =>
    rw [hway] at h
    cases h
    exact ⟨((bookkeeping T).builds pos hok hr hway).1, hr⟩

end Calls

/-- An attempt of a required recognizer in which its part does not match. -/
structure Miss (V α : Type) where
  limit : Nat
  nesting : Nesting V α
  ctx : Context V α
  handle : Handle
  part : Recognizer V α
  pos : Position
  run : Run V α
  /-- The parses in flight while the recognizer works. -/
  inside : Nesting V α
  /-- The state in which its part is attempted. -/
  start : Run V α
  /-- The state in which its part has not matched. -/
  failed : Run V α
  works : (Recognizer.node handle (.required part)).start? nesting pos run = some (inside, start)
  fails : exec limit ctx part pos start = some (.ok none, failed)

namespace Miss

variable (m : Miss V α)

/-- The required recognizer. -/
def recognizer : Recognizer V α := .node m.handle (.required m.part)

/-- The snapshots of the attempt. -/
def snapshots : List (Snapshot V α) :=
  SlotGrammar.snapshots (m.limit + 1) m.nesting m.ctx m.recognizer m.pos m.run

/-- The snapshots up to the time when the part has not matched. -/
def opening : List (Snapshot V α) :=
  ⟨.entered m.handle m.pos, m.nesting, m.run⟩ :: ⟨.working m.handle m.pos, m.inside, m.start⟩ ::
    SlotGrammar.snapshots m.limit m.inside m.ctx m.part m.pos m.start

/-- The error of a miss in what its recognizer sees. -/
def errorIn (view : View V) : ParseError := .unexpectedAt view.input m.pos view.window

/-- The snapshots with the error. -/
def closing : List (Snapshot V α) :=
  m.recognizer.lastSnapshots m.nesting m.pos m.run (.error (m.errorIn m.ctx.view))
    (m.failed.noted (.missed m.pos))

/-- A required recognizer whose part does not match raises an error about this position. -/
theorem work_eq : m.recognizer.work (exec m.limit) m.limit m.ctx m.pos m.start =
    some (.error (m.errorIn m.ctx.view), m.failed.noted (.missed m.pos)) := by
  show Part.required m.ctx (exec m.limit m.ctx m.part) m.pos m.start = _
  unfold Part.required
  rw [Act.bind_apply, m.fails]
  rfl

/-- After the part has not matched, the attempt only passes on the error. -/
theorem snapshots_eq : m.snapshots = m.opening ++ m.closing := by
  have hpart : m.recognizer.workSnapshots (exec m.limit) (SlotGrammar.snapshots m.limit) m.limit
      m.inside m.ctx m.pos m.start =
        SlotGrammar.snapshots m.limit m.inside m.ctx m.part m.pos m.start := by
    show _ ++ Snapshot.afterwards (exec m.limit m.ctx m.part m.pos m.start) _ = _
    rw [m.fails]
    exact List.append_nil _
  have hcall : m.snapshots = ⟨.entered m.handle m.pos, m.nesting, m.run⟩ ::
      ⟨.working m.handle m.pos, m.inside, m.start⟩ ::
        (m.recognizer.workSnapshots (exec m.limit) (SlotGrammar.snapshots m.limit) m.limit
          m.inside m.ctx m.pos m.start ++
          Snapshot.afterwards (m.recognizer.work (exec m.limit) m.limit m.ctx m.pos m.start)
            (m.recognizer.lastSnapshots m.nesting m.pos m.run)) :=
    Recognizer.snapshots_of_start m.works
  rw [hcall, hpart, m.work_eq]
  rfl

/-- The error is passed on at once. -/
theorem error?_closing : ∀ snap ∈ m.closing, snap.error? = some (m.errorIn m.ctx.view) :=
  Recognizer.error?_lastSnapshots _ _

end Miss

/-! ## The first error -/

/-- Whether a miss is what an error comes from: up to it there is none, and later the error
is only passed on. -/
structure Miss.Stops (m : Miss V α) (view : View V) (e : ParseError)
    (before closing : List (Snapshot V α)) : Prop where
  sees : m.ctx.view = view
  error_eq : e = m.errorIn view
  last : ∃ earlier, before = earlier ++ m.opening
  first : ∃ later, closing = m.closing ++ later

/-- Whether the first error in the snapshots of an action is the last thing that it does: from
there on the error is only passed on.  It comes from a miss or from a definition that is
gone. -/
inductive Halts (view : View V) : List (Snapshot V α) → Option (Ending V α × Run V α) → Prop where
  | quiet {l : List (Snapshot V α)} {result : Option (Ending V α × Run V α)}
      (hquiet : ∀ snap ∈ l, snap.error? = none)
      (hresult : ∀ e run, result ≠ some (.error e, run)) : Halts view l result
  | raised {before closing : List (Snapshot V α)} {e : ParseError} {run : Run V α}
      (hquiet : ∀ snap ∈ before, snap.error? = none)
      (hclosing : ∀ snap ∈ closing, snap.error? = some e)
      (hwhy : e = .unresolved ∨ ∃ m : Miss V α, m.Stops view e before closing) :
      Halts view (before ++ closing) (some (.error e, run))

namespace Halts

variable {view : View V} {l : List (Snapshot V α)} {result : Option (Ending V α × Run V α)}

theorem rest (outcome : Outcome V α) (run : Run V α) :
    Halts view [] (some (.ok outcome, run)) :=
  .quiet (by simp) fun _ _ heq => by cases heq

/-- An action that ends with an outcome has no error in its snapshots. -/
theorem quiet_of_ok {outcome : Outcome V α} {run : Run V α}
    (h : Halts view l (some (.ok outcome, run))) : ∀ snap ∈ l, snap.error? = none := by
  cases h with
  | quiet hquiet _ => exact hquiet

/-- Snapshots without an error before an action. -/
theorem after {l' : List (Snapshot V α)} (h : Halts view l result)
    (hquiet : ∀ snap ∈ l', snap.error? = none) : Halts view (l' ++ l) result := by
  cases h with
  | quiet hl hresult => exact .quiet (List.forall_mem_append.2 ⟨hquiet, hl⟩) hresult
  | raised hl hclosing hwhy =>
    rw [← List.append_assoc]
    refine .raised (List.forall_mem_append.2 ⟨hquiet, hl⟩) hclosing (hwhy.imp_right ?_)
    rintro ⟨m, hsees, herror, ⟨earlier, rfl⟩, hfirst⟩
    exact ⟨m, hsees, herror, ⟨l' ++ earlier, (List.append_assoc _ _ _).symm⟩, hfirst⟩

/-- How the state is changed once an action is over does not matter. -/
theorem map (h : Halts view l result) (change : Ending V α → Run V α → Run V α) :
    Halts view l (result.map fun x => (x.1, change x.1 x.2)) := by
  cases h with
  | quiet hl hresult =>
    refine .quiet hl ?_
    intro e run heq
    rcases Option.map_eq_some_iff.1 heq with ⟨⟨ending, mid⟩, hmid, heq⟩
    cases heq
    exact hresult e mid hmid
  | raised hl hclosing hwhy => exact .raised hl hclosing hwhy

/-- Snapshots that pass on the error of an action that is over. -/
theorem passed (h : Halts view l result) {see : Ending V α → Run V α → List (Snapshot V α)}
    (hsee : ∀ ending run, ∀ snap ∈ see ending run, snap.error? = ending.error?) :
    Halts view (l ++ Snapshot.afterwards result see) result := by
  cases h with
  | quiet hl hresult =>
    refine .quiet (List.forall_mem_append.2 ⟨hl, ?_⟩) hresult
    rcases result with _ | ⟨e | outcome, run⟩
    · simp [Snapshot.afterwards]
    · exact absurd rfl (hresult e run)
    · exact hsee (.ok outcome) run
  | @raised before closing e run hl hclosing hwhy =>
    rw [List.append_assoc]
    refine .raised hl (List.forall_mem_append.2 ⟨hclosing, hsee (.error e) run⟩)
      (hwhy.imp_right ?_)
    rintro ⟨m, hsees, herror, hlast, ⟨later, rfl⟩⟩
    exact ⟨m, hsees, herror, hlast, ⟨later ++ see (.error e) run, List.append_assoc _ _ _⟩⟩

/-- There is no error before a snapshot without one. -/
theorem quiet_before {snap : Snapshot V α} {l l' : List (Snapshot V α)}
    (h : Halts view (l ++ snap :: l') result) (hsnap : snap.error? = none) :
    ∀ s ∈ l, s.error? = none := by
  generalize hall : l ++ snap :: l' = all at h
  cases h with
  | quiet hl _ =>
    intro s hs
    apply hl
    rw [← hall]
    exact List.mem_append_left _ hs
  | @raised before closing e run hl hclosing _ =>
    rcases List.append_eq_append_iff.1 hall with ⟨c, hbefore, -⟩ | ⟨c, -, hlater⟩
    · intro s hs
      apply hl
      rw [hbefore]
      exact List.mem_append_left _ hs
    · have hpassed : snap.error? = some e := by
        apply hclosing
        rw [hlater]
        simp
      rw [hsnap] at hpassed
      cases hpassed

/-- An error in a snapshot is that of the whole action, and all that follows is to pass it
on. -/
theorem passed_after {snap : Snapshot V α} {l l' : List (Snapshot V α)} {e : ParseError}
    (h : Halts view (l ++ snap :: l') result) (hsnap : snap.error? = some e) :
    (∃ run, result = some (.error e, run)) ∧ ∀ s ∈ l', s.error? = some e := by
  generalize hall : l ++ snap :: l' = all at h
  cases h with
  | quiet hl _ =>
    have hnone : snap.error? = none := by
      apply hl
      rw [← hall]
      simp
    rw [hsnap] at hnone
    cases hnone
  | @raised before closing e' run hl hclosing _ =>
    have hlater : ∃ c, closing = c ++ snap :: l' := by
      rcases List.append_eq_append_iff.1 hall with ⟨c, hbefore, hlater⟩ | ⟨c, -, hlater⟩
      · cases c with
        | nil => exact ⟨[], hlater.symm⟩
        | cons s c =>
          -- then the snapshot would be one before the error
          rw [List.cons_append] at hlater
          rcases List.cons.inj hlater with ⟨rfl, -⟩
          have hnone : snap.error? = none := by
            apply hl
            rw [hbefore]
            simp
          rw [hsnap] at hnone
          cases hnone
      · exact ⟨c, hlater⟩
    rcases hlater with ⟨c, rfl⟩
    have hpassed := (List.forall_mem_append.1 hclosing).2
    have hsame := hpassed snap List.mem_cons_self
    rw [hsnap] at hsame
    cases hsame
    exact ⟨⟨run, rfl⟩, fun s hs => hpassed s (List.mem_cons_of_mem _ hs)⟩

/-- An error about a position comes from a miss there. -/
theorem exists_miss {e : ParseError} {run : Run V α} (h : Halts view l (some (.error e, run)))
    (he : e ≠ .unresolved) :
    ∃ (m : Miss V α) (earlier later : List (Snapshot V α)),
      l = earlier ++ m.snapshots ++ later ∧ m.ctx.view = view ∧ e = m.errorIn view := by
  cases h with
  | quiet _ hresult => exact absurd rfl (hresult e run)
  | raised _ _ hwhy =>
    rcases hwhy.resolve_left he with ⟨m, hsees, herror, ⟨earlier, rfl⟩, ⟨later, rfl⟩⟩
    refine ⟨m, earlier, later, ?_, hsees, herror⟩
    rw [m.snapshots_eq]
    simp only [List.append_assoc]

/-- An action goes on after its first part, unless that raises an error. -/
theorem bind (h : Halts view l result)
    {next : Ending V α × Run V α → Option (Ending V α × Run V α)}
    {rest : Ending V α → Run V α → List (Snapshot V α)}
    (hok : ∀ outcome run, result = some (.ok outcome, run) →
      Halts view (rest (.ok outcome) run) (next (.ok outcome, run)))
    (herror : ∀ e run, rest (.error e) run = [] ∧ next (.error e, run) = some (.error e, run)) :
    Halts view (l ++ Snapshot.afterwards result rest) (result.bind next) := by
  cases h with
  | quiet hl hresult =>
    rcases result with _ | ⟨e | outcome, run⟩
    · exact .quiet (by simpa [Snapshot.afterwards] using hl) (by simp)
    · exact absurd rfl (hresult e run)
    · exact (hok outcome run rfl).after hl
  | @raised before closing e run hl hclosing hwhy =>
    show Halts view (before ++ closing ++ rest (.error e) run) (next (.error e, run))
    rw [(herror e run).1, (herror e run).2, List.append_nil]
    exact .raised hl hclosing hwhy

end Halts

/-! ## Attempts -/

section Attempts

variable {view : View V} {attempt : Attempt V α} {watch : Watch V α} {limit : Nat}
  {nesting : Nesting V α} {ctx : Context V α} {r : Recognizer V α} {pos : Position} {run : Run V α}

/-- A script that is played and raises no errors of its own halts at the first error when the
attempts in it do.  They are made in states that go with the rest of the script. -/
theorem halts_play (Good : Script V α → Run V α → Prop) {shape : Shape V α (Recognizer V α)}
    (hthrough : shape.LetsThrough)
    (hcall : ∀ {p pos next run}, Good (.call p pos next) run →
      Halts view (watch nesting ctx p pos run) (attempt ctx p pos run) ∧
        ∀ ending mid, attempt ctx p pos run = some (ending, mid) → Good (next ending) mid)
    (hclear : ∀ {t next run}, Good (.clear t next) run →
      Good next { run with grammar := run.grammar.dropTraces t })
    (hnote : ∀ {event next run}, Good (.note event next) run → Good next (run.noted event))
    (hprobe : ∀ {label p pos run}, Good (.probe label p pos) run →
      Halts view (watch nesting ctx p pos run) (attempt ctx p pos run))
    {script : Script V α} (hscript : script.Within shape) (hmild : script.Mild)
    (hgood : Good script run) :
    Halts view (script.snapshots attempt watch nesting ctx run) (script.play attempt ctx run) := by
  induction hmild generalizing run with
  | ended outcome => exact .rest outcome run
  | exhausted => exact .quiet (by simp [Script.snapshots]) (by simp [Script.play])
  | @call p pos next _ ih =>
    cases hscript with
    | call hp hpass hnext =>
      have hpart := hcall hgood
      have hpass : ∀ e, next (.error e) = .ended (.error e) := by
        refine hpass.resolve_right ?_
        rintro rfl
        exact hthrough
      rw [Script.play_call_apply, Script.snapshots]
      refine hpart.1.bind ?_ ?_
      · intro outcome mid heq
        exact ih outcome (hnext _) (hpart.2 _ mid heq)
      · intro e mid
        rw [hpass e]
        exact ⟨rfl, rfl⟩
  | clear _ ih =>
    cases hscript with
    | clear _ hnext => exact ih hnext (hclear hgood)
  | note _ ih =>
    cases hscript with
    | note _ hnext => exact ih hnext (hnote hgood)
  | @probe label p pos =>
    rw [Script.play, Part.probed_eq]
    exact (hprobe hgood).map fun ending mid =>
      mid.noted (.probed label pos run.ordinal? mid.ordinal? ending)

/-- A call halts at the first error when the work of its recognizer does. -/
theorem halts_attempt
    (hwork : ∀ inside start, r.start? nesting pos run = some (inside, start) →
      Halts view (r.workSnapshots attempt watch limit inside ctx pos start)
        (r.work attempt limit ctx pos start)) :
    Halts view (Recognizer.snapshots attempt watch limit nesting ctx r pos run)
      (r.attempt attempt limit ctx pos run) := by
  cases hstart : r.start? nesting pos run with
  | none =>
    rcases Recognizer.attempt_of_no_start hstart with ⟨outcome, after, hattempt, hsnapshots⟩
    rw [hattempt, hsnapshots]
    refine .quiet ?_ (by simp)
    simp [Snapshot.error?, Ending.error?]
  | some x =>
    rcases x with ⟨inside, start⟩
    rcases Recognizer.attempt_of_start hstart with ⟨change, hattempt⟩
    have hlast : ∀ ending mid, ∀ snap ∈ r.lastSnapshots nesting pos run ending mid,
        snap.error? = ending.error? := Recognizer.error?_lastSnapshots
    have hbegun : ∀ snap ∈ [(⟨.entered r.handle pos, nesting, run⟩ : Snapshot V α),
        ⟨.working r.handle pos, inside, start⟩], snap.error? = none := by simp [Snapshot.error?]
    rw [hattempt, Recognizer.snapshots_of_start hstart]
    exact (((hwork inside start hstart).passed hlast).after hbegun).map change

/-- A miss is the first error of its attempt, and the last thing that happens in it. -/
theorem Miss.halts (m : Miss V α) (hpart : Halts m.ctx.view
      (SlotGrammar.snapshots m.limit m.inside m.ctx m.part m.pos m.start)
      (exec m.limit m.ctx m.part m.pos m.start)) :
    Halts m.ctx.view m.snapshots (exec (m.limit + 1) m.ctx m.recognizer m.pos m.run) := by
  rw [m.fails] at hpart
  have hquiet : ∀ snap ∈ m.opening, snap.error? = none :=
    List.forall_mem_cons.2 ⟨rfl, List.forall_mem_cons.2 ⟨rfl, hpart.quiet_of_ok⟩⟩
  have hattempt : ∃ change : Ending V α → Run V α → Run V α,
      exec (m.limit + 1) m.ctx m.recognizer m.pos m.run =
        (m.recognizer.work (exec m.limit) m.limit m.ctx m.pos m.start).map fun x =>
          (x.1, change x.1 x.2) :=
    Recognizer.attempt_of_start m.works
  rcases hattempt with ⟨change, hattempt⟩
  rw [hattempt, m.work_eq, m.snapshots_eq]
  exact .raised hquiet m.error?_closing
    (.inr ⟨m, rfl, rfl, ⟨[], rfl⟩, ⟨[], (List.append_nil _).symm⟩⟩)

/-- A required recognizer raises an error of its own where its part does not match. -/
theorem halts_required {handle : Handle} {p : Recognizer V α}
    (hpart : ∀ inside start,
      (Recognizer.node handle (.required p)).start? nesting pos run = some (inside, start) →
      Halts ctx.view (snapshots limit inside ctx p pos start) (exec limit ctx p pos start)) :
    Halts ctx.view (snapshots (limit + 1) nesting ctx (.node handle (.required p)) pos run)
      (exec (limit + 1) ctx (.node handle (.required p)) pos run) := by
  by_cases hmiss : ∃ inside start failed,
      (Recognizer.node handle (.required p)).start? nesting pos run = some (inside, start) ∧
        exec limit ctx p pos start = some (.ok none, failed)
  · rcases hmiss with ⟨inside, start, failed, hstart, hfails⟩
    exact Miss.halts ⟨limit, nesting, ctx, handle, p, pos, run, inside, start, failed, hstart,
      hfails⟩ (hpart inside start hstart)
  · -- otherwise it ends as its part does
    apply halts_attempt
    intro inside start hstart
    show Halts ctx.view _ ((Shape.required p).attempt (exec limit) limit ctx pos start)
    rw [← Script.play_script]
    show Halts ctx.view _ ((Script.call p pos _).play (exec limit) ctx start)
    rw [Script.play_call_apply]
    refine (hpart inside start hstart).bind ?_ fun _ _ => ⟨rfl, rfl⟩
    intro outcome mid heq
    cases outcome with
    | none => exact absurd ⟨inside, start, mid, hstart, heq⟩ hmiss
    | some found => exact .rest (some found) mid

end Attempts

/-- In a grammar whose recognizers let errors through, the first error ends an attempt. -/
theorem halts_exec {T : Shape V α Unit → Prop} (hT : ∀ shape, T shape → shape.LetsThrough)
    (limit : Nat) {nesting : Nesting V α} (ctx : Context V α) (r : Recognizer V α) (pos : Position)
    {run : Run V α} (hok : run.InOrder T nesting) (hr : r.Belongs T run.grammar.stores.size) :
    Halts ctx.view (snapshots limit nesting ctx r pos run) (exec limit ctx r pos run) := by
  induction limit generalizing nesting ctx r pos run with
  | zero => exact .quiet (by simp [snapshots]) (by simp [exec])
  | succ limit ih =>
    cases r with
    | node handle shape =>
      have hthrough : shape.LetsThrough :=
        Shape.letsThrough_outline.1 (hT _ (hr.kind handle shape .refl))
      by_cases hrequired : ∃ p, shape = .required p
      · rcases hrequired with ⟨p, rfl⟩
        apply halts_required
        intro inside start hstart
        rcases hok.started hr hstart with ⟨hokstart, hrstart⟩
        exact ih ctx p pos hokstart (hrstart.part (by simp [Shape.parts]))
      · apply halts_attempt
        intro inside start hstart
        rcases hok.started hr hstart with ⟨hokstart, hrstart⟩
        show Halts ctx.view _ (shape.attempt (exec limit) limit ctx pos start)
        rw [← Script.play_script]
        have hscript := Script.within_script limit ctx.view shape pos
        have hmild := Script.mild_script hthrough (fun p heq => hrequired ⟨p, heq⟩) limit
          ctx.view pos
        refine halts_play (Script.GoesOn T inside handle shape) hthrough ?_ Script.GoesOn.clear
          Script.GoesOn.note ?_ hscript hmild ⟨hscript, hokstart, hrstart⟩
        · intro p pos next run hgoes
          rcases hgoes.call with ⟨hp, hnext⟩
          exact ⟨ih ctx p pos hgoes.inOrder hp, fun ending mid heq => (hnext heq).2⟩
        · intro label p pos run hgoes
          exact ih ctx p pos hgoes.inOrder hgoes.probe
    | link handle target =>
      apply halts_attempt
      intro inside start hstart
      rcases hok.started hr hstart with ⟨hokstart, hrstart⟩
      rcases Act.exists_follow ctx target start with ⟨found, mid, hfollow⟩
      have hmid := (bookkeeping T).followed hokstart trivial hrstart hfollow
      cases found with
      | none =>
        rw [Recognizer.work_link_none hfollow, Recognizer.workSnapshots, hfollow]
        have hnone : ∀ snap ∈ ([] : List (Snapshot V α)), snap.error? = none := by simp
        exact .raised hnone (by simp) (.inl rfl)
      | some x =>
        have hview := Act.view_followed hfollow
        rw [Recognizer.work_link_some hfollow, Recognizer.workSnapshots, hfollow, ← hview]
        exact ih x.1 x.2 pos hmid.1 (hmid.2.2 x rfl).2

/-! ## Parses -/

/-- The last snapshot of an attempt that ends shows how. -/
theorem exists_snapshots_eq_of_exec {limit : Nat} {nesting : Nesting V α} {ctx : Context V α}
    {r : Recognizer V α} {pos : Position} {run after : Run V α} {ending : Ending V α}
    (h : exec limit ctx r pos run = some (ending, after)) :
    ∃ l, snapshots limit nesting ctx r pos run =
      l ++ [⟨.returned r.handle pos ending, nesting, after⟩] := by
  cases limit with
  | zero => cases h
  | succ limit =>
    have hattempt : r.attempt (exec limit) limit ctx pos run = some (ending, after) := h
    refine ⟨⟨.entered r.handle pos, nesting, run⟩ ::
      r.callSnapshots (exec limit) (snapshots limit) limit nesting ctx pos run, ?_⟩
    show Recognizer.snapshots (exec limit) (snapshots limit) limit nesting ctx r pos run = _
    rw [Recognizer.snapshots, hattempt]
    rfl

/-- The snapshots with the error of a miss are at least one. -/
theorem Miss.exists_closing_eq (m : Miss V α) : ∃ snap l, m.closing = snap :: l := by
  unfold closing Recognizer.lastSnapshots
  split
  · exact ⟨_, _, rfl⟩
  · exact ⟨_, _, rfl⟩

/-- The part has been attempted when the error is raised. -/
theorem Miss.exists_opening_eq (m : Miss V α) : ∃ l, m.opening =
    l ++ [⟨.returned m.part.handle m.pos (.ok none), m.inside, m.failed⟩] := by
  have hpart : ∃ l, SlotGrammar.snapshots m.limit m.inside m.ctx m.part m.pos m.start =
      l ++ [⟨.returned m.part.handle m.pos (.ok none), m.inside, m.failed⟩] :=
    exists_snapshots_eq_of_exec m.fails
  rcases hpart with ⟨l, hl⟩
  refine ⟨⟨.entered m.handle m.pos, m.nesting, m.run⟩ ::
    ⟨.working m.handle m.pos, m.inside, m.start⟩ :: l, ?_⟩
  rw [opening, hl]
  rfl

/-- Wherever a miss is among the snapshots of a run, it is the first error, and the last thing
that happens. -/
theorem Halts.of_miss {view : View V} {result : Option (Ending V α × Run V α)} {m : Miss V α}
    {earlier later : List (Snapshot V α)}
    (h : Halts view (earlier ++ m.snapshots ++ later) result) :
    (∃ run, result = some (.error (m.errorIn view), run)) ∧
      (∀ snap ∈ earlier ++ m.opening, snap.error? = none) ∧
      ∀ snap ∈ m.closing ++ later, snap.error? = some (m.errorIn view) := by
  rcases m.exists_closing_eq with ⟨snap, own, hclosing⟩
  rcases m.exists_opening_eq with ⟨begun, hopening⟩
  have hsplit : earlier ++ m.snapshots ++ later =
      earlier ++ m.opening ++ snap :: (own ++ later) := by
    rw [m.snapshots_eq, hclosing]
    simp only [List.append_assoc, List.cons_append]
  have hsnap : snap.error? = some (m.errorIn m.ctx.view) :=
    m.error?_closing snap (by simp [hclosing])
  rw [hsplit] at h
  rcases h.passed_after hsnap with ⟨⟨run, rfl⟩, hpassed⟩
  -- the error is one in this view, about the same position
  rcases h.exists_miss (by simp [Miss.errorIn, ParseError.unexpectedAt]) with
    ⟨m', -, -, -, -, herror⟩
  have hpos : m.pos = m'.pos := Option.some.inj (congrArg ParseError.position? herror)
  have hsame : m.errorIn m.ctx.view = m.errorIn view := by
    rw [herror, Miss.errorIn, Miss.errorIn, hpos]
  rw [hsame] at hsnap hpassed
  refine ⟨⟨run, by rw [hsame]⟩, ?_, ?_⟩
  · have hfirst : ∀ s ∈ earlier ++ begun, s.error? = none := by
      rw [hopening] at h
      simp only [List.append_assoc, List.cons_append, List.nil_append] at h
      rw [← List.append_assoc] at h
      exact h.quiet_before rfl
    rw [hopening, ← List.append_assoc]
    exact List.forall_mem_append.2 ⟨hfirst, by simp [Snapshot.error?, Ending.error?]⟩
  · rw [hclosing, List.cons_append]
    exact List.forall_mem_cons.2 ⟨hsnap, hpassed⟩

namespace Grammar

/-- However a grammar whose recognizers let errors through has been used, the first fatal error
ends a parse.  Where the part of a required recognizer does not match, found or replayed, there
has been no error before, the parse comes to an end with the error about this position in its
own window, and until then the error is only passed on: nothing is attempted anymore.  And
every error about a position with which a parse ends comes from such a miss. -/
theorem InUse.parse?_halts {T : Shape V α Unit → Prop} {g : Grammar V α}
    {hand : List (Recognizer V α)} (h : g.InUse T hand)
    (hT : ∀ shape, T shape → shape.LetsThrough) {q : Query V α} (hroot : q.root ∈ hand)
    (limit : Nat) :
    (∀ (m : Miss V α) (earlier later : List (Snapshot V α)),
      q.snapshots g limit = earlier ++ m.snapshots ++ later →
      (∃ report, q.parse? g limit = some report ∧
        report.ending = .error (.unexpectedAt q.input m.pos q.options.errorWindow)) ∧
      (∀ snap ∈ earlier ++ m.opening, snap.error? = none) ∧
      ∀ snap ∈ m.closing ++ later,
        snap.error? = some (.unexpectedAt q.input m.pos q.options.errorWindow)) ∧
    ∀ report e, q.parse? g limit = some report → report.ending = .error e → e ≠ .unresolved →
      ∃ (m : Miss V α) (earlier later : List (Snapshot V α)),
        q.snapshots g limit = earlier ++ m.snapshots ++ later ∧ m.ctx.view = q.context.view ∧
          e = .unexpectedAt q.input m.pos q.options.errorWindow := by
  have hready := h.ready
  have hhalts : Halts q.context.view (q.snapshots g limit)
      (SlotGrammar.exec limit q.context q.root .start (q.opened g)) :=
    halts_exec hT limit q.context q.root .start (hready.opened q) (hready.belongs_opened hroot)
  constructor
  · intro m earlier later heq
    rw [heq] at hhalts
    rcases hhalts.of_miss with ⟨⟨mid, hmid⟩, hrest⟩
    exact ⟨q.exists_parse? hmid, hrest⟩
  · intro report e hreport hending he
    rcases q.exec_of_parse? hreport with ⟨mid, hmid, -⟩
    rw [hmid, hending] at hhalts
    exact hhalts.exists_miss he

/-! ## An example -/

/-- A letter through a store, which is optional where there are no values and required
otherwise. -/
def letterAsAsked : Recognizer Nat Nat × Grammar Nat Nat :=
  Grammar.build [] (.make (.conditional
    (.inspect fun _ values pos => if values = [] then some ⟨.unit, pos⟩ else none)
    (.optional (.named "letter" (.cached true (.literal ['a']))))
    (.required (.ref "letter")))) {}

/-- Another letter, and how much of it is to be quoted. -/
def otherLetter (values : List Nat) (window : ErrorWindow) : Query Nat Nat :=
  ⟨letterAsAsked.1, ⟨[['b', 'c']]⟩, values, { errorWindow := window }⟩

theorem letterAsAsked_inUse : letterAsAsked.2.InUse Shape.LetsThrough [letterAsAsked.1] := by
  apply InUse.empty.build
  simp [Expr.inspect, Expr.optional, Expr.literal, Expr.required, Shape.outline, Shape.parts,
    Shape.withParts, Shape.LetsThrough]

/-- That the letter does not match is kept while it is optional.  Once it is required, this is
replayed, and raises an error in the window of that time. -/
theorem letterAsAsked_halts : ∃ first second,
    (otherLetter [] {}).parse? letterAsAsked.2 10 = some first ∧
    first.grammar.stores.committed 0 (otherLetter [] {}).key 0 = some none ∧
    (otherLetter [1] ⟨0, 1⟩).parse? first.grammar 10 = some second ∧
    second.ending = .error (.unexpectedSymbol .start [] ['b'] ['c']) ∧
    ∃ (m : Miss Nat Nat) (earlier later : List (Snapshot Nat Nat)),
      (otherLetter [1] ⟨0, 1⟩).snapshots first.grammar 10 = earlier ++ m.snapshots ++ later ∧
      m.pos = .start ∧
      ∀ snap ∈ m.closing ++ later,
        snap.error? = some (.unexpectedSymbol .start [] ['b'] ['c']) := by
  have hruns : ((otherLetter [] {}).parse? letterAsAsked.2 10).any (fun first =>
      first.grammar.stores.committed 0 (otherLetter [] {}).key 0 = some none ∧
      ((otherLetter [1] ⟨0, 1⟩).parse? first.grammar 10).any fun second =>
        second.ending = .error (.unexpectedSymbol .start [] ['b'] ['c'])) = true := by
    decide +kernel
  rcases (Option.any_eq_true _ _).1 hruns with ⟨first, hfirst, hruns⟩
  rcases of_decide_eq_true hruns with ⟨hcommitted, hruns⟩
  rcases (Option.any_eq_true _ _).1 hruns with ⟨second, hsecond, hending⟩
  have hending := of_decide_eq_true hending
  have hroot : letterAsAsked.1 ∈ [letterAsAsked.1] := List.mem_cons_self
  have hused := letterAsAsked_inUse.parse (q := otherLetter [] {}) hroot hfirst
  have hhalts := hused.parse?_halts (fun _ h => h) (q := otherLetter [1] ⟨0, 1⟩) hroot 10
  rcases hhalts.2 second _ hsecond hending (by simp) with ⟨m, earlier, later, heq, -, herror⟩
  have hpos : m.pos = .start := (Option.some.inj (congrArg ParseError.position? herror)).symm
  have hclosing := (hhalts.1 m earlier later heq).2.2
  rw [← herror] at hclosing
  exact ⟨first, second, hfirst, hcommitted, hsecond, hending, m, earlier, later, heq, hpos,
    hclosing⟩

end Grammar

end SlotGrammar
