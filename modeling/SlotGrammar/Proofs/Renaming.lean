import SlotGrammar.Proofs.Making
import SlotGrammar.Proofs.Tracking

/-!
# Other names

A run asks for names only to build what was deferred, and to find out which definitions
are alive.  So a parse from a root that holds every definition of a grammar without
deferrals does the same whatever the names of the grammar are.

Main results:

- Theorem `exec_nameless`: an attempt does the same under all names.
- Theorem `parse?_renamed`: so does a parse.
-/

namespace SlotGrammar

variable {V α : Type}

/-! ## Renaming -/

/-- A grammar under other names. -/
def Grammar.renamed (names : Table String (Recognizer V α)) (g : Grammar V α) : Grammar V α :=
  { g with names }

/-- A run with its grammar under other names. -/
def Run.renamed (names : Table String (Recognizer V α)) (run : Run V α) : Run V α :=
  { run with grammar := run.grammar.renamed names }

/-- The definitions of a grammar, in their cells. -/
abbrev Definitions (V α : Type) := Array (Option (Recognizer V α))

/-- Whether a grammar has some definitions and no deferrals. -/
def Grammar.Defines (defs : Definitions V α) (g : Grammar V α) : Prop :=
  g.definitions = defs ∧ g.deferrals = #[]

/-- Whether every definition is reached from what a run holds. -/
def Context.HoldsAll (defs : Definitions V α) (ctx : Context V α) : Prop :=
  Grammar.Covers { definitions := defs } 0 ctx.held

namespace Context.HoldsAll

variable {defs : Definitions V α} {ctx ctx' : Context V α}

/-- A run that holds more holds every definition as well. -/
theorem mono (h : ctx.HoldsAll defs) (hheld : ∀ r ∈ ctx.held, r ∈ ctx'.held) :
    ctx'.HoldsAll defs :=
  Grammar.Covers.mono h fun r hr _ hl => ⟨r, hheld r hr, hl⟩

/-- An owner that is held further in keeps the recursive owners in place. -/
theorem hold (h : ctx.HoldsAll defs) (r : Recognizer V α) : (ctx.hold r).HoldsAll defs := by
  unfold Context.hold
  split
  · exact h
  · exact h.mono fun _ => List.mem_cons_of_mem _

end Context.HoldsAll

/-- Where every definition is held, all of them are alive. -/
theorem Grammar.Defines.definition?_eq {defs : Definitions V α} {g : Grammar V α}
    (h : g.Defines defs) {ctx : Context V α} (hctx : ctx.HoldsAll defs) (cell : Nat) :
    g.definition? ctx.held cell = (defs[cell]?).join := by
  unfold definition?
  rw [h.1]
  by_cases hcell : cell < defs.size
  · obtain ⟨r, hr, l, hl, hreach⟩ := hctx cell (Nat.zero_le _) hcell
    have hreach : g.Reaches l (.definition cell) := hreach.mono h.2 fun _ _ hr => by rw [h.1, hr]
    have hreached := g.mem_reachedFrom_iff.2 ⟨l, List.mem_flatMap.2
      ⟨r, List.mem_append_right g.names.values hr, hl⟩, hreach⟩
    have halive : g.isAlive ctx.held cell = true :=
      Bool.or_eq_true_iff.2 (.inl (List.contains_iff_mem.2 hreached))
    rw [if_pos halive]
  · rw [Array.getElem?_eq_none (Nat.le_of_not_lt hcell)]
    exact ite_self _

/-! ## Actions that do not look at names -/

/-- Whether an action does the same under all names, from every state of a grammar with
some definitions, and leads to such a state again. -/
def Act.Nameless {β : Type} (defs : Definitions V α) (act : Act V α β) : Prop :=
  ∀ run : Run V α, run.grammar.Defines defs →
    (∀ names, act (run.renamed names) = (act run).map fun x => (x.1, x.2.renamed names)) ∧
      ∀ x ∈ act run, x.2.grammar.Defines defs

namespace Act.Nameless

variable {β γ : Type} {defs : Definitions V α} {act : Act V α β}

/-- An action that only answers names no cell. -/
theorem pure (b : β) : (Pure.pure b : Act V α β).Nameless defs := by
  intro run hrun
  refine ⟨fun _ => rfl, ?_⟩
  intro x hx
  cases hx
  exact hrun

/-- An action that only ends names no cell. -/
theorem endAs (ending : Except ParseError β) : (Act.endAs ending : Act V α β).Nameless defs := by
  intro run hrun
  simp only [Act.endAs_apply]
  refine ⟨fun _ => rfl, ?_⟩
  intro x hx
  cases hx
  exact hrun

/-- Two actions in a row name no cell when neither of them does. -/
theorem bind {next : β → Act V α γ} (h : act.Nameless defs)
    (hnext : ∀ b, (next b).Nameless defs) : (act >>= next).Nameless defs := by
  intro run hrun
  obtain ⟨hsame, hdefines⟩ := h run hrun
  simp only [Act.bind_apply, hsame]
  cases hact : act run with
  | none => exact ⟨fun _ => rfl, by simp⟩
  | some x =>
    have hx := hdefines x hact
    obtain ⟨_ | b, mid⟩ := x
    · refine ⟨fun _ => rfl, ?_⟩
      intro y hy
      cases hy
      exact hx
    · exact hnext b mid hx

/-- An attempt names no cell when what is attempted does not. -/
theorem attempt (h : act.Nameless defs) : act.attempt.Nameless defs := by
  intro run hrun
  obtain ⟨hsame, hdefines⟩ := h run hrun
  simp only [Act.attempt_apply, hsame, Option.map_map]
  refine ⟨fun _ => rfl, ?_⟩
  intro x hx
  obtain ⟨y, hy, rfl⟩ := Option.map_eq_some_iff.1 hx
  exact hdefines y hy

/-- A change of the state that has no part in names and definitions. -/
theorem modify {change : Run V α → Run V α}
    (hnames : ∀ names run, change (run.renamed names) = (change run).renamed names)
    (hkept : ∀ run, (change run).grammar.definitions = run.grammar.definitions ∧
      (change run).grammar.deferrals = run.grammar.deferrals) :
    (Act.modify change).Nameless defs := by
  intro run hrun
  simp only [Act.modify_apply, hnames]
  refine ⟨fun _ => rfl, ?_⟩
  intro x hx
  cases hx
  exact ⟨(hkept run).1.trans hrun.1, (hkept run).2.trans hrun.2⟩

/-- An event that is noted names no cell. -/
theorem note (event : Event V α) : (Act.note event).Nameless defs :=
  modify (fun _ _ => rfl) fun _ => ⟨rfl, rfl⟩

/-- What is done with the state itself may depend on all but the names. -/
theorem get {next : Run V α → Act V α β}
    (hnames : ∀ names run, next (Run.renamed names run) = next run)
    (hnext : ∀ run, (next run).Nameless defs) : (Act.get >>= next).Nameless defs := by
  intro run hrun
  have hstep : ∀ run : Run V α, (Act.get >>= next) run = next run run := fun _ => rfl
  simp only [hstep, hnames]
  exact hnext run run hrun

/-- Clearing a store has no part in names. -/
theorem dropTraces (t : Recognizer V α) :
    (Act.onGrammar fun g => ((), Grammar.dropTraces g t)).Nameless defs := by
  have hmodify : (Act.modify fun run : Run V α =>
      { run with grammar := run.grammar.dropTraces t }).Nameless defs := by
    refine modify ?_ ?_
    · intro names run
      unfold Grammar.dropTraces Run.renamed
      split <;> rfl
    · intro run
      unfold Grammar.dropTraces
      split <;> exact ⟨rfl, rfl⟩
  exact hmodify

/-- A session names no cell when the parse inside it does not. -/
theorem inSession {act : Act V α (Outcome V α)} (h : act.Nameless defs) (ctx : Context V α)
    (root : Recognizer V α) : (Act.inSession ctx root act).Nameless defs := by
  intro run hrun
  have hopened : (run.opened ctx root).grammar.Defines defs := by
    unfold Run.opened
    split <;> exact hrun
  have hnames : ∀ names, (run.renamed names).opened ctx root =
      (run.opened ctx root).renamed names := by
    intro names
    unfold Run.opened
    split <;> rfl
  have hclosed : ∀ names outer ending (mid : Run V α),
      (mid.renamed names).closed outer ending = (mid.closed outer ending).renamed names := by
    rintro names outer ending ⟨g, session, log⟩
    cases session <;> rfl
  obtain ⟨hsame, hdefines⟩ := h _ hopened
  simp only [Act.inSession_eq, hnames, hsame, Option.map_map]
  refine ⟨?_, ?_⟩
  · intro names
    congr 1
    funext x
    simp only [Function.comp_apply, hclosed]
    rfl
  · intro x hx
    obtain ⟨y, hy, rfl⟩ := Option.map_eq_some_iff.1 hx
    have hy := hdefines y hy
    unfold Run.closed
    split <;> exact hy

/-- The session is set without a look at any cell. -/
theorem setSession (session : Option Session) :
    (Act.setSession session : Act V α Unit).Nameless defs :=
  modify (fun _ _ => rfl) fun _ => ⟨rfl, rfl⟩

/-- A call is settled without a look at any cell. -/
theorem settleCall (s : StoreId) (ordinal : Nat) (outcome : Outcome V α) :
    (Act.settleCall s ordinal outcome).Nameless defs := by
  refine modify ?_ ?_
  · rintro names ⟨g, session, log⟩
    cases session <;> rfl
  · rintro ⟨g, session, log⟩
    cases session <;> exact ⟨rfl, rfl⟩

/-- Caching names no cell when the computation behind it does not. -/
theorem through {act : Act V α (Outcome V α)} (h : act.Nameless defs) (caching : Caching) :
    (Act.through caching act).Nameless defs := by
  cases caching with
  | never => exact h
  | paused s => exact h
  | active s =>
    refine get (fun _ _ => rfl) fun run => ?_
    cases run.session with
    | none => exact h
    | some ses =>
      dsimp only
      split
      next outcome _ => exact (setSession _).bind fun _ => pure outcome
      next =>
        refine (setSession _).bind fun _ => h.attempt.bind fun ending => ?_
        refine Nameless.bind (modify (fun _ _ => rfl) fun _ => ⟨rfl, rfl⟩) fun _ => ?_
        cases ending with
        | error e => exact endAs (.error e)
        | ok outcome => exact (settleCall s _ outcome).bind fun _ => pure outcome

/-- A probe names no cell when the part it watches does not. -/
theorem probed {label : String} {part : Part V α} {pos : Position} (h : (part pos).Nameless defs) :
    (Part.probed label part pos).Nameless defs := by
  intro run hrun
  obtain ⟨hsame, hdefines⟩ := h run hrun
  simp only [Part.probed_eq, hsame, Option.map_map]
  refine ⟨fun _ => rfl, ?_⟩
  intro x hx
  obtain ⟨y, hy, rfl⟩ := Option.map_eq_some_iff.1 hx
  exact hdefines y hy

end Act.Nameless

/-! ## Attempts -/

section Attempts

variable {defs : Definitions V α}

/-- What a link leads to, and the context in which that is attempted. -/
def Link.found (defs : Definitions V α) (ctx : Context V α) :
    Link → Option (Context V α × Recognizer V α)
  | .definition cell => ((defs[cell]?).join).map fun r => (ctx, r)
  | .self cell => ((defs[cell]?).join).map fun r => (ctx.hold r, r)
  | .deferred _ => none
  | .unbound => none

/-- Whatever a link leads to has the recursive owners in place. -/
theorem Link.holdsAll_of_found {ctx : Context V α} (hctx : ctx.HoldsAll defs) {l : Link}
    {x : Context V α × Recognizer V α} (h : l.found defs ctx = some x) : x.1.HoldsAll defs := by
  cases l with
  | definition cell =>
    obtain ⟨r, -, rfl⟩ := Option.map_eq_some_iff.1 h
    exact hctx
  | self cell =>
    obtain ⟨r, -, rfl⟩ := Option.map_eq_some_iff.1 h
    exact hctx.hold r
  | deferred cell => cases h
  | unbound => cases h

/-- Following a link changes nothing. -/
theorem Act.follow_of_holdsAll {ctx : Context V α} (hctx : ctx.HoldsAll defs) (l : Link)
    {run : Run V α} (hrun : run.grammar.Defines defs) :
    Act.follow ctx l run = some (.ok (l.found defs ctx), run) := by
  cases l with
  | definition cell =>
    show some (Except.ok (((run.grammar.definitions[cell]?).join).map fun r => (ctx, r)), run) = _
    rw [hrun.1]
    rfl
  | self cell =>
    show some (Except.ok ((run.grammar.definition? ctx.held cell).map fun r => (ctx.hold r, r)),
      run) =
      _
    rw [hrun.definition?_eq hctx]
    rfl
  | deferred cell =>
    have hsettled : Act.settled cell run = some (.ok none, run) := by
      unfold Act.settled
      rw [Act.bind_apply, Act.get_apply, Option.bind_some]
      simp only [hrun.2, Array.getElem?_empty]
      rfl
    show (Act.settled cell >>= fun found => Pure.pure (found.map fun r => (ctx, r))) run = _
    rw [Act.bind_apply, hsettled]
    rfl
  | unbound => rfl

/-- A script names no cell when the attempts it asks for do not. -/
theorem Script.play_nameless {attempt : Attempt V α}
    (hattempt : ∀ ctx r pos, Context.HoldsAll defs ctx → (attempt ctx r pos).Nameless defs)
    {ctx : Context V α} (hctx : ctx.HoldsAll defs) (script : Script V α) :
    (script.play attempt ctx).Nameless defs := by
  induction script with
  | ended ending => exact .endAs ending
  | exhausted => exact fun _ _ => ⟨fun _ => rfl, by simp [Script.play]⟩
  | call p pos next ih => exact (hattempt ctx p pos hctx).attempt.bind ih
  | nest input p next ih =>
    exact ((hattempt _ p .start (hctx.mono fun _ => List.mem_cons_of_mem _)).inSession _
      p).attempt.bind ih
  | clear t next ih => exact (Act.Nameless.dropTraces t).bind fun _ => ih
  | note event next ih => exact (Act.Nameless.note event).bind fun _ => ih
  | probe label p pos => exact .probed (hattempt ctx p pos hctx)

/-- What a recognizer does itself is the same under all names when attempts are. -/
theorem Recognizer.work_nameless {attempt : Attempt V α}
    (hattempt : ∀ ctx r pos, Context.HoldsAll defs ctx → (attempt ctx r pos).Nameless defs)
    (limit : Nat) {ctx : Context V α} (hctx : ctx.HoldsAll defs) (r : Recognizer V α)
    (pos : Position) : (r.work attempt limit ctx pos).Nameless defs := by
  cases r with
  | node handle shape =>
    show (shape.attempt attempt limit ctx pos).Nameless defs
    rw [← Script.play_script]
    exact Script.play_nameless hattempt hctx _
  | link handle l =>
    obtain ⟨act, hact, hstep⟩ : ∃ act : Act V α (Outcome V α), act.Nameless defs ∧
        ∀ run : Run V α, run.grammar.Defines defs →
          (Recognizer.link handle l).work attempt limit ctx pos run = act run := by
      cases hfound : l.found defs ctx with
      | none =>
        refine ⟨_, .endAs (.error .unresolved), ?_⟩
        intro run hrun
        exact work_link_none (hfound ▸ Act.follow_of_holdsAll hctx l hrun) pos
      | some x =>
        refine ⟨_, hattempt x.1 x.2 pos (Link.holdsAll_of_found hctx hfound), ?_⟩
        intro run hrun
        exact work_link_some (hfound ▸ Act.follow_of_holdsAll hctx l hrun) pos
    intro run hrun
    have hrenamed := fun names => hstep (run.renamed names) hrun
    simp only [hstep run hrun, hrenamed]
    exact hact run hrun

/-- An attempt does the same under all names. -/
theorem exec_nameless (limit : Nat) {ctx : Context V α} (hctx : ctx.HoldsAll defs)
    (r : Recognizer V α) (pos : Position) : (exec limit ctx r pos).Nameless defs := by
  induction limit generalizing ctx r pos with
  | zero => exact fun _ _ => ⟨fun _ => rfl, by simp [exec]⟩
  | succ limit ih =>
    have hwork := Recognizer.work_nameless (fun _ r pos hctx => ih hctx r pos) limit hctx r pos
    have hthrough := ((Act.Nameless.note (.worked r.handle pos)).bind fun _ => hwork).through
      r.handle.caching
    intro run hrun
    obtain ⟨hsame, hdefines⟩ := hthrough (run.noted (.called r.handle pos run.ordinal?)) hrun
    rw [exec_succ]
    simp only [Recognizer.attempt_eq]
    refine ⟨?_, ?_⟩
    · intro names
      have hnoted : (run.renamed names).noted (.called r.handle pos (run.renamed names).ordinal?) =
          (run.noted (.called r.handle pos run.ordinal?)).renamed names := rfl
      rw [hnoted, hsame, Option.map_map, Option.map_map]
      rfl
    · intro x hx
      obtain ⟨y, hy, rfl⟩ := Option.map_eq_some_iff.1 hx
      exact hdefines y hy

end Attempts

/-! ## Parses -/

section Parses

variable {g : Grammar V α} {root : Recognizer V α} (hdeferrals : g.deferrals = #[])
  (hroot : g.Covers 0 [root]) (limit : Nat) (input : Fragments) (values : List V)
  (options : ParseOptions)

include hdeferrals hroot

/-- A parse from a root that reaches all definitions does not look at names. -/
theorem Grammar.inSession_nameless :
    (Act.inSession ⟨input, values, options, [root]⟩ root
      (exec limit ⟨input, values, options, [root]⟩ root .start)).Nameless g.definitions := by
  let ctx : Context V α := ⟨input, values, options, [root]⟩
  have hctx : ctx.HoldsAll g.definitions := by
    intro cell hlo hcell
    obtain ⟨r, hr, l, hl, hreach⟩ := hroot cell hlo hcell
    have hsame : ({ definitions := g.definitions } : Grammar V α).deferrals = g.deferrals :=
      hdeferrals.symm
    exact ⟨r, hr, l, hl, hreach.mono hsame fun _ _ h => h⟩
  exact (exec_nameless limit hctx root .start).inSession ctx root

/-- Such a parse does the same under all names. -/
theorem Grammar.parse?_renamed (names : Table String (Recognizer V α)) :
    (g.renamed names).parse? limit root input values options =
      (g.parse? limit root input values options).map fun report =>
        { report with grammar := report.grammar.renamed names } := by
  let ctx : Context V α := ⟨input, values, options, [root]⟩
  obtain ⟨hsame, -⟩ := inSession_nameless hdeferrals hroot limit input values options
    { grammar := g } ⟨rfl, hdeferrals⟩
  let report : Ending V α × Run V α → Report V α := fun x => ⟨x.1, x.2.grammar, x.2.log.reverse⟩
  have hreport : ∀ g : Grammar V α, g.parse? limit root input values options =
      (Act.inSession ctx root (exec limit ctx root .start) { grammar := g }).map report :=
    fun _ => rfl
  have hrenamed : Act.inSession ctx root (exec limit ctx root .start)
      { grammar := g.renamed names } =
      _ := hsame names
  rw [hreport, hreport, hrenamed, Option.map_map, Option.map_map]
  rfl

/-- It leaves the definitions as they are. -/
theorem Grammar.parse?_defines {report : Report V α}
    (h : g.parse? limit root input values options = some report) :
    report.grammar.Defines g.definitions := by
  obtain ⟨-, hdefines⟩ := inSession_nameless hdeferrals hroot limit input values options
    { grammar := g } ⟨rfl, hdeferrals⟩
  obtain ⟨x, hx, rfl⟩ := Option.map_eq_some_iff.1 h
  exact hdefines x hx

end Parses

end SlotGrammar
