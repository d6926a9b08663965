import SlotGrammar.Proofs.Bookkeeping

/-!
# Accounts of matches

Much of what holds of a match is put together from what holds of the matches of its parts:
each leaf covers some of the input, a sequence covers what its parts cover one after the
other, and a match that is given up covers nothing.  An account says what the leaves cover
and how this is joined.  The scripts of shapes then keep it, and so does every attempt in
which nothing is replayed that breaks it.

Main results:

- Theorem `Account.obeys_script`: the script of a shape keeps an account.
- Theorem `Account.admits_alone`: an attempt by itself keeps an account throughout.
-/

namespace SlotGrammar

variable {V α : Type}

/-! ## Shapes of the library -/

/-- Whether a shape is one of the library, or one that only counts or watches its part.  The
others call a function of the user on the input, catch errors, parse another input or drop
outcomes. -/
def Shape.Standard {ρ : Type} : Shape V α ρ → Prop
  | .leaf (.inspect _) => False
  | .catching _ => False
  | .nested _ _ => False
  | .clearing _ _ => False
  | _ => True

/-! ## Accounts -/

/-- What holds of the matches of some kinds of shapes on an input, with what holds of their
errors and of the places where parts are attempted. -/
structure Account (V α : Type) (T : Shape V α Unit → Prop) (input : Fragments) where
  /-- Whether a match may have a tree from one position to another. -/
  Spans : Position → Tree V α → Position → Prop
  /-- Whether an attempt at a position may raise an error. -/
  Raises : Position → ParseError → Prop
  /-- Whether an attempt at one position may attempt a part at another one. -/
  Reaches : Position → Position → Prop
  standard : ∀ shape, T shape → shape.Standard
  leaf : ∀ {l : Leaf V α} {pos : Position} {m : Match V α} (values : List V), T (.leaf l) →
    l.outcome input values pos = some m → Spans pos m.tree m.stop
  mapped : ∀ {transform : Tree V α → List V → Tree V α} {pos stop : Position} {tree : Tree V α}
    (values : List V), T (.mapped transform ()) → Spans pos tree stop →
    Spans pos (transform tree values) stop
  separated : ∀ {pos mid stop : Position} {tree delimiter : Tree V α}, T (.separated () ()) →
    Spans pos delimiter mid → Spans mid tree stop → Spans pos tree stop
  nil : ∀ pos, Spans pos (.list []) pos
  cons : ∀ {pos mid stop : Position} {tree : Tree V α} {trees : List (Tree V α)},
    Spans pos tree mid → Spans mid (.list trees) stop → Spans pos (.list (tree :: trees)) stop
  absent : ∀ pos, Spans pos .absent pos
  present : ∀ {pos stop : Position} {tree : Tree V α}, Spans pos tree stop →
    Spans pos (.present tree) stop
  missed : ∀ pos window, Raises pos (.unexpectedAt input pos window)
  unresolved : ∀ pos, Raises pos .unresolved
  refl : ∀ pos, Reaches pos pos
  trans : ∀ {pos mid stop : Position}, Reaches pos mid → Reaches mid stop → Reaches pos stop
  reaches : ∀ {pos stop : Position} {tree : Tree V α}, Spans pos tree stop → Reaches pos stop
  raises : ∀ {pos mid : Position} {e : ParseError}, Reaches pos mid → Raises mid e → Raises pos e

namespace Account

variable {T : Shape V α Unit → Prop} {input : Fragments} {A : Account V α T input}
  {start pos : Position}

/-- Whether an attempt at a position may end as given. -/
def Ends (A : Account V α T input) (start : Position) : Ending V α → Prop
  | .error e => A.Raises start e
  | .ok none => True
  | .ok (some m) => A.Spans start m.tree m.stop

/-! ## Scripts -/

/-- Whether a script keeps an account of an attempt that started at a position, when the
attempts in it do. -/
inductive Obeys (A : Account V α T input) (start : Position) : Script V α → Prop where
  | ended {ending : Ending V α} (h : A.Ends start ending) : Obeys A start (.ended ending)
  | exhausted : Obeys A start .exhausted
  | call {p : Recognizer V α} {pos : Position} {next : Ending V α → Script V α}
      (hreaches : A.Reaches start pos)
      (hnext : ∀ ending, A.Ends pos ending → Obeys A start (next ending)) :
      Obeys A start (.call p pos next)
  | note {event : Event V α} {next : Script V α} (hnext : Obeys A start next) :
      Obeys A start (.note event next)
  | probe {label : String} {p : Recognizer V α} : Obeys A start (.probe label p start)

/-- A failure has nothing to account for. -/
theorem obeys_none : A.Obeys start (.done none) := .ended trivial

/-- A match obeys when its tree spans what was read. -/
theorem obeys_some {m : Match V α} (h : A.Spans start m.tree m.stop) :
    A.Obeys start (.done (some m)) := .ended h

/-- An error of a part may be one of the whole. -/
theorem obeys_onOutcome (hreaches : A.Reaches start pos) {p : Recognizer V α}
    {next : Outcome V α → Script V α} (hfailed : A.Obeys start (next none))
    (hmatched : ∀ m : Match V α, A.Spans pos m.tree m.stop → A.Obeys start (next (some m))) :
    A.Obeys start (.onOutcome p pos next) := by
  refine .call hreaches ?_
  intro ending h
  rcases ending with e | _ | m
  · exact .ended (A.raises hreaches h)
  · exact hfailed
  · exact hmatched m h

/-- A part that is attempted last, from the start. -/
theorem obeys_last {p : Recognizer V α} : A.Obeys start (.onOutcome p start .done) :=
  obeys_onOutcome (A.refl start) obeys_none fun _ h => obeys_some h

/-- Parts in order obey when both continuations do, given a list that spans the parts. -/
theorem obeys_inOrder (hreaches : A.Reaches start pos) {ps : List (Recognizer V α)}
    {next : Option (List (Tree V α) × Position) → Script V α} (hfailed : A.Obeys start (next none))
    (hmatched : ∀ trees stop, A.Spans pos (.list trees) stop →
      A.Obeys start (next (some (trees, stop)))) :
    A.Obeys start (.inOrder ps pos next) := by
  induction ps generalizing pos next with
  | nil => exact hmatched [] pos (A.nil pos)
  | cons p ps ih =>
    refine obeys_onOutcome hreaches hfailed ?_
    intro m hm
    refine ih (A.trans hreaches (A.reaches hm)) hfailed ?_
    intro trees stop htrees
    exact hmatched (m.tree :: trees) stop (A.cons hm htrees)

/-- The first of some parts obeys. -/
theorem obeys_firstOf (ps : List (Recognizer V α)) : A.Obeys start (.firstOf ps start) := by
  induction ps with
  | nil => exact obeys_none
  | cons p ps ih => exact obeys_onOutcome (A.refl start) ih fun _ h => obeys_some h

/-- Whether a step of a repetition keeps an account, given that what comes after it does. -/
def KeptBy (A : Account V α T input) (step : Script.Step V α) : Prop :=
  ∀ {start pos : Position} {next : Outcome V α → Script V α}, A.Reaches start pos →
    A.Obeys start (next none) →
    (∀ m : Match V α, A.Spans pos m.tree m.stop → A.Obeys start (next (some m))) →
    A.Obeys start (step pos next)

/-- A single part keeps the account. -/
theorem keptBy_part (p : Recognizer V α) : A.KeptBy (.onOutcome p) :=
  fun hreaches hfailed hmatched => obeys_onOutcome hreaches hfailed hmatched

/-- A delimiter and a main part keep the account where separated lists do. -/
theorem keptBy_after (hseparated : T (.separated () ())) (d p : Recognizer V α) :
    A.KeptBy (Script.after d p) := by
  intro start pos next hreaches hfailed hmatched
  refine obeys_onOutcome hreaches hfailed ?_
  intro delimiter hd
  refine obeys_onOutcome (A.trans hreaches (A.reaches hd)) hfailed ?_
  intro m hm
  exact hmatched m (A.separated hseparated hd hm)

/-- A chain obeys when its steps keep the account and the continuation obeys. -/
theorem obeys_chain {step : Script.Step V α} (hstep : A.KeptBy step) (limit : Nat)
    (hreaches : A.Reaches start pos) {next : List (Tree V α) → Position → Script V α}
    (hmatched : ∀ trees stop, A.Spans pos (.list trees) stop → A.Obeys start (next trees stop)) :
    A.Obeys start (.chain step limit pos next) := by
  induction limit generalizing pos next with
  | zero => exact .exhausted
  | succ limit ih =>
    have hover : A.Obeys start (next [] pos) := hmatched [] pos (A.nil pos)
    refine hstep hreaches hover ?_
    intro m hm
    by_cases hlt : pos < m.stop
    · simp only [hlt, if_true]
      refine ih (A.trans hreaches (A.reaches hm)) ?_
      intro trees stop htrees
      exact hmatched (m.tree :: trees) stop (A.cons hm htrees)
    · simp only [hlt, if_false]
      exact hover

/-- A repetition obeys when its steps keep the account. -/
theorem obeys_repetition {first step : Script.Step V α} (hfirst : A.KeptBy first)
    (hstep : A.KeptBy step) (limit : Nat) :
    A.Obeys start (.repetition limit first step start) := by
  refine hfirst (A.refl start) obeys_none ?_
  intro m hm
  by_cases hlt : start < m.stop
  · simp only [hlt, if_true]
    refine obeys_chain hstep limit (A.reaches hm) ?_
    intro trees stop htrees
    exact obeys_some (A.cons hm htrees)
  · simp only [hlt, if_false]
    exact obeys_none

/-- The script of a shape keeps an account. -/
theorem obeys_script (A : Account V α T input) (limit : Nat) {view : View V}
    (hinput : view.input = input) {shape : Shape V α (Recognizer V α)} (hkind : T shape.outline)
    (start : Position) : A.Obeys start (shape.script limit view start) := by
  subst hinput
  have hstandard := A.standard _ hkind
  cases shape with
  | leaf l =>
    show A.Obeys start (.done (l.outcome view.input view.values start))
    cases houtcome : l.outcome view.input view.values start with
    | none => exact obeys_none
    | some m => exact obeys_some (A.leaf view.values hkind houtcome)
  | mapped transform p =>
    refine obeys_onOutcome (A.refl start) obeys_none ?_
    intro m hm
    exact obeys_some (A.mapped view.values hkind hm)
  | sequence ps =>
    refine obeys_inOrder (A.refl start) obeys_none ?_
    intro trees stop htrees
    exact obeys_some htrees
  | choice ps => exact obeys_firstOf ps
  | optional p =>
    refine obeys_onOutcome (A.refl start) (obeys_some (A.absent start)) ?_
    intro m hm
    exact obeys_some (A.present hm)
  | required p =>
    refine obeys_onOutcome (A.refl start) ?_ fun _ hm => obeys_some hm
    exact .note (.ended (A.missed start view.window))
  | conditional t p q =>
    -- the match of the test is given up, and both ways go on from the start
    exact obeys_onOutcome (A.refl start) obeys_last fun _ _ => obeys_last
  | repeated p => exact obeys_repetition (keptBy_part p) (keptBy_part p) limit
  | separated p d => exact obeys_repetition (keptBy_part p) (keptBy_after hkind d p) limit
  | butNot p q => exact obeys_onOutcome (A.refl start) obeys_last fun _ _ => obeys_none
  | catching p => exact hstandard.elim
  | nested sub p => exact hstandard.elim
  | clearing t p => exact hstandard.elim
  | counted label p => exact .note obeys_last
  | probed label p => exact .probe

/-! ## Snapshots -/

/-- Whether a snapshot fits the account of an attempt that started at a position. -/
def Allows (A : Account V α T input) (start : Position) (snap : Snapshot V α) : Prop :=
  match snap.occasion with
  | .entered _ pos => A.Reaches start pos
  | .working _ pos => A.Reaches start pos
  | .returned _ pos ending => A.Reaches start pos ∧ A.Ends pos ending
  | _ => True

/-- Whether all snapshots of an action and its ending fit the account of an attempt that
started at a position. -/
structure Admits (A : Account V α T input) (start : Position) (l : List (Snapshot V α))
    (result : Option (Ending V α × Run V α)) : Prop where
  allows : ∀ snap ∈ l, A.Allows start snap
  ends : ∀ ending run, result = some (ending, run) → A.Ends start ending

/-- What fits an attempt of a part fits the whole. -/
theorem Allows.of_part {snap : Snapshot V α} (hreaches : A.Reaches start pos)
    (h : A.Allows pos snap) : A.Allows start snap := by
  rcases snap with ⟨occasion, nesting, run⟩
  cases occasion with
  | entered handle p => exact A.trans hreaches h
  | working handle p => exact A.trans hreaches h
  | returned handle p ending => exact ⟨A.trans hreaches h.1, h.2⟩
  | worked ordinal ending => trivial
  | settling store ordinal outcome => trivial
  | finished session => trivial

section Level

variable {attempt : Attempt V α} {watch : Watch V α} {nesting : Nesting V α} {ctx : Context V α}

/-- A script that is played keeps an account when the attempts in it do.  They are made in
states that go with the rest of the script. -/
theorem admits_play (Good : Script V α → Run V α → Prop)
    (hcall : ∀ {p pos next run}, Good (.call p pos next) run →
      A.Admits pos (watch nesting ctx p pos run) (attempt ctx p pos run) ∧
        ∀ ending mid, attempt ctx p pos run = some (ending, mid) → Good (next ending) mid)
    (hnote : ∀ {event next run}, Good (.note event next) run → Good next (run.noted event))
    (hprobe : ∀ {label p pos run}, Good (.probe label p pos) run →
      A.Admits pos (watch nesting ctx p pos run) (attempt ctx p pos run))
    {script : Script V α} (h : A.Obeys start script) {run : Run V α} (hgood : Good script run) :
    A.Admits start (script.snapshots attempt watch nesting ctx run)
      (script.play attempt ctx run) := by
  induction h generalizing run with
  | ended h =>
    refine ⟨by simp [Script.snapshots], ?_⟩
    intro ending run' heq
    rw [Script.play, Act.endAs_apply] at heq
    cases heq
    exact h
  | exhausted => exact ⟨by simp [Script.snapshots], fun _ _ heq => by cases heq⟩
  | @call p pos next hreaches hnext ih =>
    have hpart := hcall hgood
    have hold : ∀ snap ∈ watch nesting ctx p pos run, A.Allows start snap :=
      fun snap hsnap => (hpart.1.allows snap hsnap).of_part hreaches
    rw [Script.play_call_apply, Script.snapshots]
    cases hresult : attempt ctx p pos run with
    | none =>
      refine ⟨?_, fun _ _ heq => by cases heq⟩
      simpa [Snapshot.afterwards] using hold
    | some x =>
      have hrest := ih x.1 (hpart.1.ends x.1 x.2 hresult) (hpart.2 x.1 x.2 hresult)
      refine ⟨?_, hrest.ends⟩
      intro snap hsnap
      rcases List.mem_append.1 hsnap with hsnap | hsnap
      · exact hold snap hsnap
      · exact hrest.allows snap hsnap
  | note _ ih => exact ih (hnote hgood)
  | probe =>
    have hpart := hprobe hgood
    refine ⟨hpart.allows, ?_⟩
    intro ending run' heq
    rw [Script.play, Part.probed_eq] at heq
    rcases Option.map_eq_some_iff.1 heq with ⟨x, hx, hend⟩
    cases hend
    exact hpart.ends x.1 x.2 hx

variable {limit : Nat} {r : Recognizer V α} {run : Run V α}

/-- An attempt keeps an account when its work does, and when what it replays fits. -/
theorem admits_attempt
    (hstraight : run.way r.handle.caching = .straight →
      let start := (run.entering r pos).atWork r pos
      A.Admits pos (r.workSnapshots attempt watch limit nesting ctx pos start)
        (r.work attempt limit ctx pos start))
    (hreplays : ∀ ses outcome, run.way r.handle.caching = .replays ses outcome →
      A.Ends pos (.ok outcome))
    (hbuilds : ∀ s ses, run.way r.handle.caching = .builds s ses →
      let start := ((run.entering r pos).building ses).atWork r pos
      A.Admits pos (r.workSnapshots attempt watch limit (nesting.work ses.ordinal) ctx pos start)
        (r.work attempt limit ctx pos start)) :
    A.Admits pos (Recognizer.snapshots attempt watch limit nesting ctx r pos run)
      (r.attempt attempt limit ctx pos run) := by
  have hbetween : (∀ snap ∈ r.callSnapshots attempt watch limit nesting ctx pos run,
      A.Allows pos snap) ∧
        ∀ ending after, r.attempt attempt limit ctx pos run = some (ending, after) →
          A.Ends pos ending := by
    unfold Recognizer.callSnapshots
    cases hway : run.way r.handle.caching with
    | straight =>
      have hwork := hstraight hway
      rw [Recognizer.attempt_eq_of_straight hway]
      refine ⟨List.forall_mem_cons.2 ⟨A.refl pos, hwork.allows⟩, ?_⟩
      intro ending after heq
      rcases Option.map_eq_some_iff.1 heq with ⟨x, hx, hend⟩
      cases hend
      exact hwork.ends x.1 x.2 hx
    | replays ses outcome =>
      rw [Recognizer.attempt_eq_of_replays hway]
      refine ⟨by simp, ?_⟩
      intro ending after heq
      cases heq
      exact hreplays ses outcome hway
    | builds s ses =>
      have hwork := hbuilds s ses hway
      rw [Recognizer.attempt_eq_of_builds hway]
      refine ⟨List.forall_mem_cons.2 ⟨A.refl pos, ?_⟩, ?_⟩
      · intro snap hsnap
        rcases List.mem_append.1 hsnap with hinside | hafter
        · exact hwork.allows snap hinside
        · cases hresult : r.work attempt limit ctx pos
              (((run.entering r pos).building ses).atWork r pos) with
          | none =>
            rw [hresult] at hafter
            cases hafter
          | some x =>
            rw [hresult] at hafter
            exact Snapshot.forall_afterWork trivial (fun _ => trivial) snap hafter
      · intro ending after heq
        rcases Option.map_eq_some_iff.1 heq with ⟨x, hx, hend⟩
        cases hend
        exact hwork.ends x.1 x.2 hx
  refine ⟨List.forall_mem_cons.2 ⟨A.refl pos, ?_⟩, hbetween.2⟩
  intro snap hsnap
  rcases List.mem_append.1 hsnap with hinside | hafter
  · exact hbetween.1 snap hinside
  · cases hresult : r.attempt attempt limit ctx pos run with
    | none =>
      rw [hresult] at hafter
      cases hafter
    | some x =>
      rw [hresult] at hafter
      rw [List.mem_singleton.1 hafter]
      exact ⟨A.refl pos, hbetween.2 x.1 x.2 hresult⟩

end Level

end Account

/-! ## Attempts by themselves -/

/-- What a run that follows a link goes on with sees the same. -/
theorem Act.view_followed {ctx : Context V α} {l : Link} {run run' : Run V α}
    {x : Context V α × Recognizer V α} (h : Act.follow ctx l run = some (.ok (some x), run')) :
    x.1.view = ctx.view := by
  have hsame : ∀ {found : Option (Recognizer V α)} {mid : Run V α},
      (some (.ok (found.map fun r => (ctx, r)), mid) :
        Option (Except ParseError (Option (Context V α × Recognizer V α)) × Run V α)) =
        some (.ok (some x), run') → x.1.view = ctx.view := by
    intro found mid heq
    cases found with
    | none => cases heq
    | some r =>
      cases heq
      rfl
  cases l with
  | definition cell => exact hsame h
  | self cell =>
    change some (Except.ok ((run.grammar.definition? ctx.held cell).map fun r =>
      (ctx.hold r, r)), run) = some (.ok (some x), run') at h
    cases hr : run.grammar.definition? ctx.held cell with
    | none =>
      rw [hr] at h
      cases h
    | some r =>
      rw [hr] at h
      cases h
      show (ctx.hold r).view = ctx.view
      unfold Context.hold
      split <;> rfl
  | deferred cell =>
    change (Act.settled cell >>= fun found => pure (found.map fun r => (ctx, r))) run =
      some (.ok (some x), run') at h
    rw [Act.bind_apply] at h
    rcases Act.settled_cases cell run with ⟨found, hsettled, -⟩ | ⟨label, e, scope, -, hsettled⟩
    · rw [hsettled] at h
      exact hsame h
    · rw [hsettled] at h
      exact hsame h
  | unbound => cases h

namespace Account

variable {T : Shape V α Unit → Prop} {input : Fragments} {A : Account V α T input}

/-- An attempt in which nothing is recorded keeps an account throughout. -/
theorem admits_alone (A : Account V α T input) (limit : Nat) {nesting : Nesting V α}
    {ctx : Context V α} (hinput : ctx.input = input) {r : Recognizer V α} (pos : Position)
    {run : Run V α} (hnone : run.session = none) (hok : run.InOrder T nesting)
    (hr : r.Belongs T run.grammar.stores.size) :
    A.Admits pos (snapshots limit nesting ctx r pos run) (exec limit ctx r pos run) := by
  induction limit generalizing nesting ctx r pos run with
  | zero => exact ⟨by simp [snapshots], fun _ _ heq => by cases heq⟩
  | succ limit ih =>
    refine admits_attempt ?_ ?_ ?_
    · intro hway start
      have hstart : start.InOrder T nesting := ((bookkeeping T).straight pos hok hr hway).1
      cases r with
      | node handle shape =>
        have hkind : T shape.outline := hr.kind handle shape .refl
        show A.Admits pos _ (shape.attempt (exec limit) limit ctx pos start)
        rw [← Script.play_script]
        -- the script goes on in order, and without a session
        refine admits_play
          (fun script run => run.session = none ∧ script.GoesOn T nesting handle shape run)
          ?_ ?_ ?_ (A.obeys_script limit hinput hkind pos)
          ⟨hnone, Script.within_script limit ctx.view shape pos, hstart, hr⟩
        · rintro p pos next run ⟨hnone, hscript⟩
          rcases hscript.call with ⟨hp, hnext⟩
          refine ⟨ih hinput pos hnone hscript.inOrder hp, ?_⟩
          intro ending mid heq
          rcases hnext heq with ⟨hcontinues, hscript'⟩
          have hid := hcontinues.id_eq
          rw [hnone] at hid
          exact ⟨Option.map_eq_none_iff.1 hid, hscript'⟩
        · rintro event next run ⟨hnone, hscript⟩
          exact ⟨hnone, hscript.note⟩
        · rintro label p pos run ⟨hnone, hscript⟩
          exact ih hinput pos hnone hscript.inOrder hscript.probe
      | link handle target =>
        rcases Act.exists_follow ctx target start with ⟨found, mid, hfollow⟩
        have hmid := (bookkeeping T).followed hstart trivial hr hfollow
        cases found with
        | none =>
          rw [Recognizer.work_link_none hfollow, Recognizer.workSnapshots, hfollow]
          refine ⟨by simp, ?_⟩
          intro ending run' heq
          cases heq
          exact A.unresolved pos
        | some x =>
          have hview := Act.view_followed hfollow
          have hsession := (Grammar.Enlarges.followed hfollow).2
          rw [Recognizer.work_link_some hfollow, Recognizer.workSnapshots, hfollow]
          exact ih ((congrArg View.input hview).trans hinput) pos (hsession.trans hnone) hmid.1
            (hmid.2.2 x rfl).2
    · intro ses outcome hway
      rw [Run.way_of_no_session hnone] at hway
      cases hway
    · intro s ses hway
      rw [Run.way_of_no_session hnone] at hway
      cases hway

/-- An attempt by itself in a grammar in use keeps an account throughout. -/
theorem admits_inUse (A : Account V α T input) {g : Grammar V α} {hand : List (Recognizer V α)}
    (h : g.InUse T hand) {root : Recognizer V α} (hroot : root ∈ hand) (limit : Nat)
    (values : List V) (window : ErrorWindow) (pos : Position) :
    let ctx : Context V α := ⟨input, values, { errorWindow := window }, [root]⟩
    A.Admits pos (snapshots limit ⟨{ root, input }, []⟩ ctx root pos { grammar := g })
      (exec limit ctx root pos { grammar := g }) := by
  intro ctx
  have hinput : ctx.input = input := rfl
  exact A.admits_alone limit hinput pos rfl (h.ready.alone root input) (h.ready.belongs root hroot)

end Account

end SlotGrammar
