import SlotGrammar.Proofs.Endings
import SlotGrammar.Proofs.Symbols

/-!
# What expressions read

An expression attempted where some symbols lie ahead takes a part of them as a tree,
refuses them or raises an error at one of the positions ahead.  Which of these it does
follows from what its parts do, one rule for each way to build it.

Main results:

- Theorems `Reads.find_takes` and `Reads.nextSlot`: patterns take texts and slots are taken.
- Theorems `Reads.sequence`, `Reads.choice`, `Reads.repeated` and `Reads.separated`: the
  rules for lists of parts and for repetitions.
-/

namespace SlotGrammar

variable {V α : Type}

/-! ## Verdicts -/

/-- What becomes of the symbols ahead. -/
inductive Verdict (V α : Type) where
  /-- A part is taken as a tree, and the rest lies ahead afterwards. -/
  | takes (tree : Tree V α) (rest : List Symbol)
  | refuses
  /-- An error is raised about a position where the rest lies ahead. -/
  | raises (rest : List Symbol)

namespace Verdict

/-- Whether an attempt on an input ended as a verdict says. -/
inductive Fits (input : Fragments) : Verdict V α → Ending V α → Prop where
  | takes {tree : Tree V α} {rest : List Symbol} {stop : Position}
      (h : input.ahead? stop = some rest) : Fits input (takes tree rest) (.ok (some ⟨tree, stop⟩))
  | refuses : Fits input refuses (.ok none)
  | raises {rest : List Symbol} {e : ParseError} {pos : Position} (he : e.position? = some pos)
      (h : input.ahead? pos = some rest) : Fits input (raises rest) (.error e)

/-- A raised error is the ending of the attempt. -/
theorem Fits.exists_eq {input : Fragments} {rest : List Symbol} {ending : Ending V α}
    (h : (Verdict.raises rest).Fits input ending) :
    ∃ e, ending = .error e := by
  cases h with
  | @raises _ e => exact ⟨e, rfl⟩

/-- Whether no symbols are taken. -/
def isNoTake : Verdict V α → Bool
  | takes _ _ => false
  | _ => true

/-- A verdict with the tree transformed. -/
def map (f : Tree V α → Tree V α) : Verdict V α → Verdict V α
  | takes tree rest => takes (f tree) rest
  | refuses => refuses
  | raises rest => raises rest

/-- The verdict on an optional part of some symbols. -/
def optional (s : List Symbol) : Verdict V α → Verdict V α
  | takes tree rest => takes (.present tree) rest
  | refuses => takes .absent s
  | raises rest => raises rest

/-- The verdict on a required part of some symbols. -/
def required (s : List Symbol) : Verdict V α → Verdict V α
  | takes tree rest => takes tree rest
  | refuses => raises s
  | raises rest => raises rest

end Verdict

/-! ## Recognizers -/

section Recognizers

variable (ρ : Targets V α) (view : View V)

/-- Whether a recognizer does to some symbols ahead what a verdict says. -/
def Recognizer.Reads (limit : Nat) (r : Recognizer V α) (s : List Symbol) (v : Verdict V α) :
    Prop :=
  ∀ pos, view.input.ahead? pos = some s →
    ∃ ending, v.Fits view.input ending ∧ r.ComesTo ρ view limit pos ending

/-- Whether a step of a script does so. -/
def StepReads (limit : Nat) (step : Script.Step V α) (s : List Symbol) (v : Verdict V α) :
    Prop :=
  ∀ pos, view.input.ahead? pos = some s → ∃ ending, v.Fits view.input ending ∧
    ∀ limit' ≥ limit, ∀ (next : Outcome V α → Script V α) (last : Ending V α),
      (∀ outcome, ending = .ok outcome →
        Script.Ends (course ρ limit') view.plain (next outcome) last) →
      (∀ e, ending = .error e → last = .error e) →
      Script.Ends (course ρ limit') view.plain (step pos next) last

variable {ρ view} {limit : Nat} {p q : Recognizer V α} {s u : List Symbol} {v : Verdict V α}
  {tree : Tree V α}

theorem Recognizer.Reads.mono (h : p.Reads ρ view limit s v) {limit' : Nat} (hle : limit ≤ limit') :
    p.Reads ρ view limit' s v := by
  intro pos hpos
  obtain ⟨ending, hfits, hending⟩ := h pos hpos
  exact ⟨ending, hfits, hending.mono hle⟩

theorem StepReads.onOutcome (h : p.Reads ρ view limit s v) :
    StepReads ρ view limit (.onOutcome p) s v := by
  intro pos hpos
  obtain ⟨ending, hfits, hending⟩ := h pos hpos
  exact ⟨ending, hfits, fun limit' hlimit _ _ => .onOutcome (hending limit' hlimit)⟩

/-- A step after a delimiter that is not there. -/
theorem StepReads.after_refuses (h : q.Reads ρ view limit s .refuses) :
    StepReads ρ view limit (.after q p) s .refuses := by
  intro pos hpos
  obtain ⟨_, ⟨⟩, hending⟩ := h pos hpos
  refine ⟨_, .refuses, fun limit' hlimit next last hnext _ => ?_⟩
  refine .onOutcome (hending limit' hlimit) ?_ (by simp)
  rintro outcome heq
  cases heq
  exact hnext none rfl

/-- A step after a delimiter. -/
theorem StepReads.after (h : q.Reads ρ view limit s (.takes tree u))
    (hp : p.Reads ρ view limit u v) : StepReads ρ view limit (.after q p) s v := by
  intro pos hpos
  obtain ⟨_, ⟨hstop⟩, hfirst⟩ := h pos hpos
  obtain ⟨ending, hfits, hending⟩ := hp _ hstop
  refine ⟨ending, hfits, fun limit' hlimit next last hnext herror => ?_⟩
  refine .onOutcome (hfirst limit' hlimit) ?_ (by simp)
  rintro outcome heq
  cases heq
  exact .onOutcome (hending limit' hlimit) hnext herror

end Recognizers

/-! ## Expressions -/

/-- Where expressions are attempted: what recognizers can see, what links lead to and what
names may stand for. -/
structure Scene (V α : Type) extends View V where
  targets : Targets V α
  names : Meaning V α

/-- The scene inside a recursive expression whose body made a recognizer. -/
def Scene.within (sc : Scene V α) (name : String) (r : Recognizer V α) : Scene V α :=
  { sc with names := sc.names.within sc.targets name r }

/-- Whether a name stands for links to what an expression makes. -/
def Scene.Resolves (sc : Scene V α) (name : String) (body : Expr V α) : Prop :=
  ∀ r, sc.names name r →
    ∃ handle l p, r = .link handle l ∧ sc.targets l = some p ∧ body.Makes sc.targets sc.names p

/-- Inside a recursive expression its name stands for its body. -/
theorem Scene.resolves_within {sc : Scene V α} {name : String} {body : Expr V α}
    {p : Recognizer V α} (hp : body.Makes sc.targets (sc.within name p).names p) :
    (sc.within name p).Resolves name body := by
  intro r hr
  unfold Scene.within Meaning.within at hr
  obtain ⟨handle, l, rfl, hl⟩ := (if_pos rfl).mp hr
  exact ⟨handle, l, p, rfl, hl, hp⟩

/-- Whether every recognizer that an expression makes does to some symbols ahead what a
verdict says. -/
def Expr.Reads (sc : Scene V α) (limit : Nat) (e : Expr V α) (s : List Symbol) (v : Verdict V α) :
    Prop :=
  ∀ r, e.Makes sc.targets sc.names r → r.Reads sc.targets sc.toView limit s v

namespace Expr.Reads

variable {sc : Scene V α} {limit : Nat} {e e' : Expr V α} {s : List Symbol} {v : Verdict V α}

theorem mono (h : e.Reads sc limit s v) {limit' : Nat} (hle : limit ≤ limit') :
    e.Reads sc limit' s v :=
  fun r hr => (h r hr).mono hle

/-- Keeping outcomes or not keeping them makes no difference. -/
theorem cached (h : e.Reads sc limit s v) (on : Bool) :
    (Expr.cached on e).Reads sc limit s v := by
  intro r hr pos hpos
  cases hr with
  | cached hp =>
    obtain ⟨ending, hfits, hending⟩ := h _ hp pos hpos
    exact ⟨ending, hfits, hending.withHandle _⟩

/-- A recursive expression reads what its body reads. -/
theorem recursive {name : String} {body : Expr V α}
    (h : ∀ p, (sc.within name p).Resolves name body → body.Reads (sc.within name p) limit s v) :
    (Expr.recursive name body).Reads sc (limit + 1) s v := by
  intro r hr pos hpos
  cases hr with
  | recursive hl hp =>
    obtain ⟨ending, hfits, hending⟩ := h _ (Scene.resolves_within hp) _ hp pos hpos
    exact ⟨ending, hfits, .link hl hending⟩

/-- A name reads what it stands for reads. -/
theorem ref {name : String} {body : Expr V α} (hname : sc.Resolves name body)
    (h : body.Reads sc limit s v) : (Expr.ref name).Reads sc (limit + 1) s v := by
  intro r hr pos hpos
  cases hr with
  | ref hr =>
    obtain ⟨handle, l, p, rfl, hl, hp⟩ := hname r hr
    obtain ⟨ending, hfits, hending⟩ := h p hp pos hpos
    exact ⟨ending, hfits, .link hl hending⟩

/-! ## Leaves -/

/-- A leaf reads what its outcomes say. -/
theorem leaf {l : Leaf V α} (h : ∀ pos, sc.input.ahead? pos = some s →
    v.Fits sc.input (.ok (l.outcome sc.input sc.values pos))) :
    (Expr.make (.leaf l)).Reads sc (limit + 1) s v := by
  intro r hr pos hpos
  obtain ⟨handle, ps, hps, rfl⟩ := hr.parts
  cases hps
  exact ⟨_, h pos hpos, .node fun _ _ => .done _⟩

variable {w : Text} {c : Char} {i : Nat}

/-- A pattern takes the text that it matches. -/
theorem find_takes {pattern : Pattern} (h : pattern.matched? (w ++ lead s) = some w) :
    (Expr.make (.leaf (.find pattern))).Reads sc (limit + 1) (chars w ++ s)
      (.takes (.text w) s) := by
  refine leaf fun pos hpos => ?_
  rw [Leaf.outcome_find, Fragments.rest?_of_ahead? hpos, lead_chars_append, Option.bind_some, h]
  exact .takes (Fragments.ahead?_advance hpos)

/-- A pattern refuses what it does not match. -/
theorem find_refuses {pattern : Pattern} (h : pattern.matched? (lead s) = none) :
    (Expr.make (.leaf (.find pattern))).Reads sc (limit + 1) s .refuses := by
  refine leaf fun pos hpos => ?_
  rw [Leaf.outcome_find, Fragments.rest?_of_ahead? hpos, Option.bind_some, h]
  exact .refuses

/-- A literal takes itself. -/
theorem literal : (Expr.literal w).Reads sc (limit + 1) (chars w ++ s) (.takes (.text w) s) :=
  find_takes (Pattern.matched?_literal_iff.2 ⟨rfl, _, rfl⟩)

/-- A literal refuses what does not begin with it. -/
theorem literal_refuses (h : ∀ r, s ≠ chars w ++ r) :
    (Expr.literal w).Reads sc (limit + 1) s .refuses := by
  refine find_refuses (Option.eq_none_iff_forall_ne_some.2 fun t ht => ?_)
  obtain ⟨-, rest, hrest⟩ := Pattern.matched?_literal_iff.1 ht
  obtain ⟨r, hr⟩ := exists_eq_of_lead hrest
  exact h r hr

theorem literal_char_refuses (h : Stops (· == c) s) :
    (Expr.literal [c]).Reads sc (limit + 1) s .refuses :=
  literal_refuses fun r heq => by simpa using h c r heq

/-- A slot is taken as its number. -/
theorem nextSlot :
    (Expr.nextSlot : Expr V α).Reads sc (limit + 1) (.slot i :: s) (.takes (.index i) s) := by
  refine leaf fun pos hpos => ?_
  obtain ⟨rfl, hslot, hnext⟩ := Fragments.ahead?_slot hpos
  rw [Leaf.outcome_nextSlot (Fragments.hasRoom_of_ahead? hpos), hslot, if_pos rfl]
  exact .takes hnext

theorem nextSlot_refuses (h : ∀ i r, s ≠ .slot i :: r) :
    (Expr.nextSlot : Expr V α).Reads sc (limit + 1) s .refuses := by
  refine leaf fun pos hpos => ?_
  rw [Leaf.outcome, Fragments.isSlot_eq_false hpos h, if_neg Bool.false_ne_true]
  exact .refuses

/-- The end of the input is taken as the number of the last fragment. -/
theorem inputEnd :
    (Expr.inputEnd : Expr V α).Reads sc (limit + 1) [] (.takes (.index sc.input.slotCount) []) := by
  refine leaf fun pos hpos => ?_
  rw [Leaf.outcome, (Fragments.isEnd_iff hpos).2 rfl, if_pos rfl,
    Fragments.fragment_of_ahead?_nil hpos]
  exact .takes hpos

theorem inputEnd_refuses (h : s ≠ []) :
    (Expr.inputEnd : Expr V α).Reads sc (limit + 1) s .refuses := by
  refine leaf fun pos hpos => ?_
  have hend : ¬ sc.input.isEnd pos = true := fun hend => h ((Fragments.isEnd_iff hpos).1 hend)
  rw [Leaf.outcome, if_neg hend]
  exact .refuses

/-! ## One part -/

/-- A transform changes the tree that is taken. -/
theorem map (h : e.Reads sc limit s v) (transform : Tree V α → List V → Tree V α) :
    (e.map transform).Reads sc (limit + 1) s (v.map fun tree => transform tree sc.values) := by
  intro r hr pos hpos
  obtain ⟨handle, p, hp, rfl⟩ := hr.one rfl
  obtain ⟨ending, hfits, hending⟩ := h p hp pos hpos
  refine ⟨_, ?_, hending.mapped handle transform⟩
  cases hfits with
  | takes hstop => exact .takes hstop
  | refuses => exact .refuses
  | raises he hahead => exact .raises he hahead

/-- The part is there, or nothing is. -/
theorem optional (h : e.Reads sc limit s v) :
    e.optional.Reads sc (limit + 1) s (v.optional s) := by
  intro r hr pos hpos
  obtain ⟨handle, p, hp, rfl⟩ := hr.one rfl
  obtain ⟨ending, hfits, hending⟩ := h p hp pos hpos
  refine ⟨ending.map fun outcome => some ((outcome.map (Match.map .present)).getD ⟨.absent, pos⟩),
    ?_, .node fun limit' hlimit => .onOutcome (hending limit' hlimit) ?_ ?_⟩
  · cases hfits with
    | takes hstop => exact .takes hstop
    | refuses => exact .takes hpos
    | raises he hahead => exact .raises he hahead
  · rintro outcome rfl
    cases outcome <;> exact .done _
  · rintro err rfl
    rfl

/-- The part is there, or an error is raised. -/
theorem required (h : e.Reads sc limit s v) :
    e.required.Reads sc (limit + 1) s (v.required s) := by
  intro r hr pos hpos
  obtain ⟨handle, p, hp, rfl⟩ := hr.one rfl
  obtain ⟨ending, hfits, hending⟩ := h p hp pos hpos
  cases hfits with
  | takes hstop =>
    refine ⟨_, .takes hstop, .node fun limit' hlimit => .onOutcome (hending limit' hlimit) ?_
      (by simp)⟩
    rintro outcome heq
    cases heq
    exact .done _
  | refuses =>
    refine ⟨_, .raises (ParseError.unexpectedAt_position sc.input pos sc.window) hpos,
      .node fun limit' hlimit => .onOutcome (hending limit' hlimit) ?_ (by simp)⟩
    rintro outcome heq
    cases heq
    exact .note (.ended _)
  | raises he hahead =>
    exact ⟨_, .raises he hahead, .node fun limit' hlimit =>
      .onOutcome (hending limit' hlimit) (by simp) fun _ => id⟩

variable {tree : Tree V α} {rest : List Symbol}

/-- What begins with the forbidden part is refused. -/
theorem butNot_refuses (h : e'.Reads sc limit s (.takes tree rest)) :
    (e.butNot e').Reads sc (limit + 1) s .refuses := by
  intro r hr pos hpos
  obtain ⟨handle, p, p', -, hp', rfl⟩ := hr.two rfl
  obtain ⟨_, ⟨-⟩, hending⟩ := h p' hp' pos hpos
  refine ⟨_, .refuses, .node fun limit' hlimit => .onOutcome (hending limit' hlimit) ?_ (by simp)⟩
  rintro outcome heq
  cases heq
  exact .done _

/-- What does not begin with the forbidden part is left to the other one. -/
theorem butNot (h : e'.Reads sc limit s .refuses) (hpart : e.Reads sc limit s v) :
    (e.butNot e').Reads sc (limit + 1) s v := by
  intro r hr pos hpos
  obtain ⟨handle, p, p', hp, hp', rfl⟩ := hr.two rfl
  obtain ⟨_, ⟨⟩, hforbidden⟩ := h p' hp' pos hpos
  obtain ⟨ending, hfits, hending⟩ := hpart p hp pos hpos
  refine ⟨ending, hfits, .node fun limit' hlimit =>
    .onOutcome (hforbidden limit' hlimit) ?_ (by simp)⟩
  rintro outcome heq
  cases heq
  refine .onOutcome (hending limit' hlimit) ?_ fun _ => id
  rintro outcome rfl
  exact .done _

end Expr.Reads

/-! ## Lists of parts -/

/-- What expressions do one after the other, with a list of their trees. -/
inductive Expr.ReadsAll (sc : Scene V α) (limit : Nat) :
    List (Expr V α) → List Symbol → Verdict V α → Prop where
  | nil {s : List Symbol} : ReadsAll sc limit [] s (.takes (.list []) s)
  | cons {e : Expr V α} {es : List (Expr V α)} {s u rest : List Symbol} {tree : Tree V α}
      {trees : List (Tree V α)} (h : e.Reads sc limit s (.takes tree u))
      (hrest : ReadsAll sc limit es u (.takes (.list trees) rest)) :
      ReadsAll sc limit (e :: es) s (.takes (.list (tree :: trees)) rest)
  /-- The first expression takes nothing. -/
  | here {e : Expr V α} {es : List (Expr V α)} {s : List Symbol} {v : Verdict V α}
      (h : e.Reads sc limit s v) (hno : v.isNoTake = true) : ReadsAll sc limit (e :: es) s v
  /-- A later expression takes nothing. -/
  | later {e : Expr V α} {es : List (Expr V α)} {s u : List Symbol} {tree : Tree V α}
      {v : Verdict V α} (h : e.Reads sc limit s (.takes tree u)) (hrest : ReadsAll sc limit es u v)
      (hno : v.isNoTake = true) : ReadsAll sc limit (e :: es) s v

/-- What the first expression does that does not refuse. -/
inductive Expr.ReadsFirst (sc : Scene V α) (limit : Nat) :
    List (Expr V α) → List Symbol → Verdict V α → Prop where
  | nil {s : List Symbol} : ReadsFirst sc limit [] s .refuses
  | here {e : Expr V α} {es : List (Expr V α)} {s : List Symbol} {v : Verdict V α}
      (h : e.Reads sc limit s v) (hv : v ≠ .refuses) : ReadsFirst sc limit (e :: es) s v
  | later {e : Expr V α} {es : List (Expr V α)} {s : List Symbol} {v : Verdict V α}
      (h : e.Reads sc limit s .refuses) (hrest : ReadsFirst sc limit es s v) :
      ReadsFirst sc limit (e :: es) s v

namespace Expr

variable {sc : Scene V α} {limit : Nat} {es : List (Expr V α)} {ps : List (Recognizer V α)}
  {s : List Symbol} {v : Verdict V α} {pos : Position}

/-- How a script goes on after a list of parts. -/
def Goes (guide : Guide V α) (st : Setting V)
    (next : Option (List (Tree V α) × Position) → Script V α) (last : Ending V α) :
    Ending V α → Prop
  | .ok (some ⟨.list trees, stop⟩) => Script.Ends guide st (next (some (trees, stop))) last
  | .ok none => Script.Ends guide st (next none) last
  | .error e => last = .error e
  | .ok (some _) => False

/-- A script with a list of parts goes on with what they do. -/
theorem ReadsAll.goes (h : ReadsAll sc limit es s v)
    (hps : List.Forall₂ (Makes sc.targets sc.names) es ps) (hpos : sc.input.ahead? pos = some s) :
    ∃ ending, v.Fits sc.input ending ∧ ∀ limit' ≥ limit,
      ∀ (next : Option (List (Tree V α) × Position) → Script V α) (last : Ending V α),
        Goes (course sc.targets limit') sc.toView.plain next last ending →
        Script.Ends (course sc.targets limit') sc.toView.plain (.inOrder ps pos next) last := by
  induction h generalizing ps pos with
  | nil =>
    cases hps
    exact ⟨_, .takes hpos, fun _ _ _ _ hnext => hnext⟩
  | cons h _ ih =>
    cases hps with
    | cons hp hps =>
      obtain ⟨_, ⟨hstop⟩, hfirst⟩ := h _ hp pos hpos
      obtain ⟨_, ⟨hend⟩, hgoes⟩ := ih hps hstop
      refine ⟨_, .takes hend, fun limit' hlimit next last hnext => ?_⟩
      refine .onOutcome (hfirst limit' hlimit) ?_ (by simp)
      rintro outcome heq
      cases heq
      exact hgoes limit' hlimit _ _ hnext
  | here h hno =>
    cases hps with
    | cons hp hps =>
      obtain ⟨ending, hfits, hending⟩ := h _ hp pos hpos
      refine ⟨ending, hfits, fun limit' hlimit next last hnext => ?_⟩
      refine .onOutcome (hending limit' hlimit) ?_ ?_
      · rintro outcome rfl
        cases hfits with
        | takes => cases hno
        | refuses => exact hnext
      · rintro err rfl
        exact hnext
  | later h _ hno ih =>
    cases hps with
    | cons hp hps =>
      obtain ⟨_, ⟨hstop⟩, hfirst⟩ := h _ hp pos hpos
      obtain ⟨ending, hfits, hgoes⟩ := ih hps hstop
      refine ⟨ending, hfits, fun limit' hlimit next last hnext => ?_⟩
      refine .onOutcome (hfirst limit' hlimit) ?_ (by simp)
      rintro outcome heq
      cases heq
      refine hgoes limit' hlimit _ _ ?_
      cases hfits with
      | takes => cases hno
      | refuses => exact hnext
      | raises => exact hnext

theorem ReadsFirst.ends (h : ReadsFirst sc limit es s v)
    (hps : List.Forall₂ (Makes sc.targets sc.names) es ps) (hpos : sc.input.ahead? pos = some s) :
    ∃ ending, v.Fits sc.input ending ∧ ∀ limit' ≥ limit,
      Script.Ends (course sc.targets limit') sc.toView.plain (.firstOf ps pos) ending := by
  induction h generalizing ps with
  | nil =>
    cases hps
    exact ⟨_, .refuses, fun _ _ => .done none⟩
  | here h hv =>
    cases hps with
    | cons hp hps =>
      obtain ⟨ending, hfits, hending⟩ := h _ hp pos hpos
      refine ⟨ending, hfits, fun limit' hlimit =>
        .onOutcome (hending limit' hlimit) ?_ fun _ => id⟩
      rintro outcome rfl
      cases hfits with
      | takes => exact .done _
      | refuses => exact absurd rfl hv
  | later h _ ih =>
    cases hps with
    | cons hp hps =>
      obtain ⟨_, ⟨⟩, hfirst⟩ := h _ hp pos hpos
      obtain ⟨ending, hfits, hends⟩ := ih hps hpos
      refine ⟨ending, hfits, fun limit' hlimit => .onOutcome (hfirst limit' hlimit) ?_ (by simp)⟩
      rintro outcome heq
      cases heq
      exact hends limit' hlimit

/-- A sequence does what its parts do one after the other. -/
theorem Reads.sequence (h : ReadsAll sc limit es s v) :
    (Expr.sequence es).Reads sc (limit + 1) s v := by
  intro r hr pos hpos
  obtain ⟨handle, ps, hps, rfl⟩ := hr.parts
  obtain ⟨ending, hfits, hgoes⟩ := h.goes hps hpos
  refine ⟨ending, hfits, .node fun limit' hlimit => hgoes limit' hlimit _ _ ?_⟩
  cases hfits with
  | takes hrest =>
    cases h with
    | nil => exact .done _
    | cons => exact .done _
    | here _ hno => cases hno
    | later _ _ hno => cases hno
  | refuses => exact .done _
  | raises => rfl

/-- A choice does what the first part does that does not refuse. -/
theorem Reads.choice (h : ReadsFirst sc limit es s v) :
    (Expr.choice es).Reads sc (limit + 1) s v := by
  intro r hr pos hpos
  obtain ⟨handle, ps, hps, rfl⟩ := hr.parts
  obtain ⟨ending, hfits, hends⟩ := h.ends hps hpos
  exact ⟨ending, hfits, .node hends⟩

/-! ## Repetitions -/

/-- What the steps of a repetition do, each to what the one before it left. -/
inductive ReadsOn (step : List Symbol → Verdict V α → Prop) :
    List Symbol → Verdict V α → Prop where
  | refuses {s : List Symbol} (h : step s .refuses) : ReadsOn step s (.takes (.list []) s)
  | takes {s u rest : List Symbol} {tree : Tree V α} {trees : List (Tree V α)}
      (h : step s (.takes tree u)) (hlt : u.length < s.length)
      (hrest : ReadsOn step u (.takes (.list trees) rest)) :
      ReadsOn step s (.takes (.list (tree :: trees)) rest)
  | raises {s rest : List Symbol} (h : step s (.raises rest)) : ReadsOn step s (.raises rest)
  | later {s u rest : List Symbol} {tree : Tree V α} (h : step s (.takes tree u))
      (hlt : u.length < s.length) (hrest : ReadsOn step u (.raises rest)) :
      ReadsOn step s (.raises rest)

/-- What a repetition does, given what its first step and its further steps do. -/
inductive Repeats (first step : List Symbol → Verdict V α → Prop) (s : List Symbol) :
    Verdict V α → Prop where
  | refuses (h : first s .refuses) : Repeats first step s .refuses
  | takes {u rest : List Symbol} {tree : Tree V α} {trees : List (Tree V α)}
      (h : first s (.takes tree u)) (hlt : u.length < s.length)
      (hrest : ReadsOn step u (.takes (.list trees) rest)) :
      Repeats first step s (.takes (.list (tree :: trees)) rest)
  | raises {rest : List Symbol} (h : first s (.raises rest)) : Repeats first step s (.raises rest)
  | later {u rest : List Symbol} {tree : Tree V α} (h : first s (.takes tree u))
      (hlt : u.length < s.length) (hrest : ReadsOn step u (.raises rest)) :
      Repeats first step s (.raises rest)

/-- What an expression after a delimiter does. -/
inductive ReadsAfter (sc : Scene V α) (limit : Nat) (d e : Expr V α) :
    List Symbol → Verdict V α → Prop where
  | refuses {s : List Symbol} (h : d.Reads sc limit s .refuses) : ReadsAfter sc limit d e s .refuses
  | takes {s u : List Symbol} {tree : Tree V α} {v : Verdict V α}
      (h : d.Reads sc limit s (.takes tree u)) (he : e.Reads sc limit u v) :
      ReadsAfter sc limit d e s v

section Steps

variable {ρ : Targets V α} {view : View V} {known known' : List Symbol → Verdict V α → Prop}
  {first step : Script.Step V α}

/-- A chain of steps goes on with what they do.  Every step takes a symbol at least. -/
theorem ReadsOn.goes (hstep : ∀ s v, known s v → StepReads ρ view limit step s v)
    (h : ReadsOn known s v) (hpos : view.input.ahead? pos = some s) :
    ∃ ending, v.Fits view.input ending ∧ ∀ limit' ≥ limit, ∀ n > s.length,
      ∀ (next : List (Tree V α) → Position → Script V α) (last : Ending V α),
        (∀ trees stop, ending = .ok (some ⟨.list trees, stop⟩) →
          Script.Ends (course ρ limit') view.plain (next trees stop) last) →
        (∀ e, ending = .error e → last = .error e) →
        Script.Ends (course ρ limit') view.plain (.chain step n pos next) last := by
  induction h generalizing pos with
  | refuses h =>
    obtain ⟨_, ⟨⟩, hends⟩ := hstep _ _ h pos hpos
    refine ⟨_, .takes hpos, fun limit' hlimit n hn next last hnext _ => ?_⟩
    obtain ⟨k, rfl⟩ : ∃ k, n = k + 1 := ⟨n - 1, by omega⟩
    refine hends limit' hlimit _ _ ?_ (by simp)
    rintro outcome heq
    cases heq
    exact hnext _ _ rfl
  | takes h hlt _ ih =>
    obtain ⟨_, ⟨hstop⟩, hends⟩ := hstep _ _ h pos hpos
    obtain ⟨_, ⟨hrest⟩, hgoes⟩ := ih hstop
    refine ⟨_, .takes hrest, fun limit' hlimit n hn next last hnext _ => ?_⟩
    obtain ⟨k, rfl⟩ : ∃ k, n = k + 1 := ⟨n - 1, by omega⟩
    refine hends limit' hlimit _ _ ?_ (by simp)
    rintro outcome heq
    cases heq
    simp only [Fragments.lt_of_length_lt hpos hstop hlt, if_true]
    refine hgoes limit' hlimit k (by omega) _ _ ?_ (by simp)
    rintro trees stop heq
    cases heq
    exact hnext _ _ rfl
  | raises h =>
    obtain ⟨_, hfits, hends⟩ := hstep _ _ h pos hpos
    obtain ⟨err, rfl⟩ := hfits.exists_eq
    refine ⟨_, hfits, fun limit' hlimit n hn next last _ herror => ?_⟩
    obtain ⟨k, rfl⟩ : ∃ k, n = k + 1 := ⟨n - 1, by omega⟩
    exact hends limit' hlimit _ _ (by simp) herror
  | later h hlt _ ih =>
    obtain ⟨_, ⟨hstop⟩, hends⟩ := hstep _ _ h pos hpos
    obtain ⟨_, hfits, hgoes⟩ := ih hstop
    obtain ⟨err, rfl⟩ := hfits.exists_eq
    refine ⟨_, hfits, fun limit' hlimit n hn next last _ herror => ?_⟩
    obtain ⟨k, rfl⟩ : ∃ k, n = k + 1 := ⟨n - 1, by omega⟩
    refine hends limit' hlimit _ _ ?_ (by simp)
    rintro outcome heq
    cases heq
    simp only [Fragments.lt_of_length_lt hpos hstop hlt, if_true]
    exact hgoes limit' hlimit k (by omega) _ _ (by simp) herror

/-- A repetition of steps ends as they do. -/
theorem Repeats.ends (hfirst : ∀ s v, known s v → StepReads ρ view limit first s v)
    (hstep : ∀ s v, known' s v → StepReads ρ view limit step s v) (h : Repeats known known' s v)
    (hn : s.length ≤ limit) (hpos : view.input.ahead? pos = some s) :
    ∃ ending, v.Fits view.input ending ∧ ∀ limit' ≥ limit,
      Script.Ends (course ρ limit') view.plain (.repetition limit' first step pos) ending := by
  cases h with
  | refuses h =>
    obtain ⟨_, ⟨⟩, hends⟩ := hfirst _ _ h pos hpos
    refine ⟨_, .refuses, fun limit' hlimit => hends limit' hlimit _ _ ?_ (by simp)⟩
    rintro outcome heq
    cases heq
    exact .done _
  | takes h hlt hrest =>
    obtain ⟨_, ⟨hstop⟩, hends⟩ := hfirst _ _ h pos hpos
    obtain ⟨_, ⟨hend⟩, hgoes⟩ := hrest.goes hstep hstop
    refine ⟨_, .takes hend, fun limit' hlimit => hends limit' hlimit _ _ ?_ (by simp)⟩
    rintro outcome heq
    cases heq
    simp only [Fragments.lt_of_length_lt hpos hstop hlt, if_true]
    refine hgoes limit' hlimit limit' (by omega) _ _ ?_ (by simp)
    rintro trees stop heq
    cases heq
    exact .done _
  | raises h =>
    obtain ⟨_, hfits, hends⟩ := hfirst _ _ h pos hpos
    obtain ⟨err, rfl⟩ := hfits.exists_eq
    exact ⟨_, hfits, fun limit' hlimit => hends limit' hlimit _ _ (by simp) fun _ => id⟩
  | later h hlt hrest =>
    obtain ⟨_, ⟨hstop⟩, hends⟩ := hfirst _ _ h pos hpos
    obtain ⟨_, hfits, hgoes⟩ := hrest.goes hstep hstop
    obtain ⟨err, rfl⟩ := hfits.exists_eq
    refine ⟨_, hfits, fun limit' hlimit => hends limit' hlimit _ _ ?_ (by simp)⟩
    rintro outcome heq
    cases heq
    simp only [Fragments.lt_of_length_lt hpos hstop hlt, if_true]
    exact hgoes limit' hlimit limit' (by omega) _ _ (by simp) fun _ => id

end Steps

variable {e d : Expr V α}

/-- A repetition does what its steps do, each to what the one before it left. -/
theorem Reads.repeated (h : Repeats (e.Reads sc limit) (e.Reads sc limit) s v)
    (hn : s.length ≤ limit) : e.repeated.Reads sc (limit + 1) s v := by
  intro r hr pos hpos
  obtain ⟨handle, p, hp, rfl⟩ := hr.one rfl
  have hstep : ∀ s v, e.Reads sc limit s v →
      StepReads sc.targets sc.toView limit (.onOutcome p) s v :=
    fun s v h => .onOutcome (h p hp)
  obtain ⟨ending, hfits, hends⟩ := h.ends hstep hstep hn hpos
  exact ⟨ending, hfits, .node hends⟩

/-- What an optional repetition takes holds what its steps take. -/
theorem Reads.optional_repeated {trees : List (Tree V α)} {rest : List Symbol}
    (h : ReadsOn (e.Reads sc limit) s (.takes (.list trees) rest)) (hn : s.length ≤ limit) :
    ∃ tree, tree.items = trees ∧
      e.repeated.optional.Reads sc (limit + 2) s (.takes tree rest) := by
  cases h with
  | refuses h => exact ⟨.absent, rfl, (Reads.repeated (.refuses h) hn).optional⟩
  | takes h hlt hrest => exact ⟨_, rfl, (Reads.repeated (.takes h hlt hrest) hn).optional⟩

/-- An error of its steps is an error of an optional repetition. -/
theorem Reads.optional_repeated_raises {rest : List Symbol}
    (h : ReadsOn (e.Reads sc limit) s (.raises rest)) (hn : s.length ≤ limit) :
    e.repeated.optional.Reads sc (limit + 2) s (.raises rest) := by
  cases h with
  | raises h => exact (Reads.repeated (.raises h) hn).optional
  | later h hlt hrest => exact (Reads.repeated (.later h hlt hrest) hn).optional

/-- A repetition with delimiters between its steps does what they do after the
delimiters. -/
theorem Reads.separated (h : Repeats (e.Reads sc limit) (ReadsAfter sc limit d e) s v)
    (hn : s.length ≤ limit) : (e.separated d).Reads sc (limit + 1) s v := by
  intro r hr pos hpos
  obtain ⟨handle, p, q, hp, hq, rfl⟩ := hr.two rfl
  have hstep : ∀ s v, ReadsAfter sc limit d e s v →
      StepReads sc.targets sc.toView limit (.after q p) s v := by
    intro s v h
    cases h with
    | refuses h => exact .after_refuses (h q hq)
    | takes h he => exact .after (h q hq) (he p hp)
  obtain ⟨ending, hfits, hends⟩ := h.ends (fun s v h => .onOutcome (h p hp)) hstep hn hpos
  exact ⟨ending, hfits, .node hends⟩

end Expr

end SlotGrammar
