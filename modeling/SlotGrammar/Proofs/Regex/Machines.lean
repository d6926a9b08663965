import Mathlib.Data.Finset.Card
import SlotGrammar.Regex.Machine

/-!
# Machines with further states

Every state of the machine of a term leads to states of the same machine, so a machine goes
through the same states when others are put in front of it.  How deep it may go at one place
does not matter either, as long as that is no less than the number of states it has not entered
there: each step enters one of them.

Main results:

- Theorem `closed_machine`: the machine of a term leads nowhere else.
- Theorem `Entered.Agrees.enter`: what a state leads to, in a machine with further states.
- Theorem `run_eq_of_agrees`: a machine with further states matches the same.
- Theorem `matchAt?_push_textStart`: a machine that first checks that the text starts there.
-/

namespace SlotGrammar.Regex

/-! ## Closed machines -/

/-- The states that a state leads to. -/
def State.targets : State → List Nat
  | .accept => []
  | .read _ next => [next]
  | .check _ next => [next]
  | .choose preferred other => [preferred, other]

/-- Whether some states lead to states with smaller numbers than a bound only. -/
def LeadsBelow (n : Nat) (states : Array State) : Prop :=
  ∀ (i : Nat) (state : State), states[i]? = some state → ∀ j ∈ state.targets, j < n

section LeadsBelow

variable {n n' : Nat} {states : Array State} {state : State}

/-- States that lead below a bound lead below every greater one. -/
theorem LeadsBelow.mono (h : LeadsBelow n states) (hle : n ≤ n') : LeadsBelow n' states :=
  fun i state hstate j hj => Nat.lt_of_lt_of_le (h i state hstate j hj) hle

/-- One more state that leads below a bound leaves all of them so. -/
theorem LeadsBelow.push (h : LeadsBelow n states) (hstate : ∀ j ∈ state.targets, j < n) :
    LeadsBelow n (states.push state) := by
  intro i state' hstate'
  rw [Array.getElem?_push] at hstate'
  by_cases hi : i = states.size
  · rw [if_pos hi] at hstate'
    cases hstate'
    exact hstate
  · rw [if_neg hi] at hstate'
    exact h i state' hstate'

/-- A state may be replaced by another one that leads below the bound. -/
theorem LeadsBelow.set (h : LeadsBelow n states) (hstate : ∀ j ∈ state.targets, j < n) (k : Nat) :
    LeadsBelow n (states.setIfInBounds k state) := by
  intro i state' hstate'
  rw [Array.getElem?_setIfInBounds] at hstate'
  by_cases hk : k = i
  · rw [if_pos hk] at hstate'
    split at hstate'
    · cases hstate'
      exact hstate
    · cases hstate'
  · rw [if_neg hk] at hstate'
    exact h i state' hstate'

end LeadsBelow

namespace Machine

/-- Whether a machine begins in a state of its own, and its states lead nowhere else. -/
structure Closed (m : Machine) : Prop where
  entry_lt : m.entry < m.states.size
  leads : LeadsBelow m.states.size m.states

/-- Whether something puts states in front of closed machines such that they stay closed. -/
def Builds (body : Machine → Machine) : Prop :=
  ∀ m : Machine, m.Closed → (body m).Closed ∧ m.states.size ≤ (body m).states.size

section Closed

variable {m : Machine} {state : State} {body : Machine → Machine}

/-- The machine that accepts at once is closed. -/
theorem closed_done : done.Closed := by
  have hnone : LeadsBelow 1 #[] := fun i state hstate => by simp at hstate
  exact ⟨by decide, hnone.push nofun⟩

/-- One more state that leads into the machine leaves it closed, and larger. -/
theorem Closed.push (h : m.Closed) (hstate : ∀ j ∈ state.targets, j < m.states.size) :
    (m.push state).Closed ∧ m.states.size < (m.push state).states.size := by
  have hsize : (m.push state).states.size = m.states.size + 1 := Array.size_push state
  refine ⟨⟨?_, ?_⟩, by omega⟩
  · rw [hsize]
    exact Nat.lt_succ_self _
  · rw [hsize]
    exact (h.leads.push hstate).mono (Nat.le_succ _)

/-- A choice leads to its two branches. -/
theorem targets_fork {greedy : Bool} {round onward n : Nat} (hround : round < n)
    (honward : onward < n) : ∀ j ∈ (fork greedy round onward).targets, j < n := by
  cases greedy <;> simp [fork, State.targets, hround, honward]

/-- The state that chooses leads to a round or behind the loop. -/
theorem Builds.loop (hbody : Builds body) (greedy : Bool) (h : m.Closed) :
    (m.loop greedy body).Closed ∧ m.states.size < (m.loop greedy body).states.size := by
  have haccept : ∀ j ∈ State.accept.targets, j < m.states.size := nofun
  rcases h.push haccept with ⟨hpush, hlt⟩
  rcases hbody _ hpush with ⟨hround, hle⟩
  have hsize : (m.loop greedy body).states.size = (body (m.push .accept)).states.size :=
    Array.size_setIfInBounds
  have hentry := h.entry_lt
  refine ⟨⟨?_, ?_⟩, by omega⟩ <;> rw [hsize]
  · exact hround.entry_lt
  · exact hround.leads.set (targets_fork hround.entry_lt (by omega)) _

/-- A body that may be skipped builds a closed machine. -/
theorem Builds.skippable (hbody : Builds body) (greedy : Bool) {onward : Nat} (h : m.Closed)
    (honward : onward < m.states.size) :
    (m.skippable greedy body onward).Closed ∧
      m.states.size ≤ (m.skippable greedy body onward).states.size := by
  rcases hbody m h with ⟨hround, hle⟩
  rcases hround.push (targets_fork hround.entry_lt (Nat.lt_of_lt_of_le honward hle)) with
    ⟨hpush, hlt⟩
  exact ⟨hpush, Nat.le_of_lt (Nat.lt_of_le_of_lt hle hlt)⟩

/-- Any number of rounds builds a closed machine. -/
theorem Builds.anyRounds (hbody : Builds body) (greedy reads : Bool) :
    Builds (Machine.anyRounds greedy reads body) := by
  intro m h
  rcases hbody.loop greedy h with ⟨hround, hlt⟩
  cases reads with
  | true => exact ⟨⟨hlt, hround.leads⟩, Nat.le_of_lt hlt⟩
  | false =>
    have honward := Nat.lt_trans h.entry_lt hlt
    rcases hround.push (targets_fork hround.entry_lt honward) with ⟨hpush, hlt'⟩
    exact ⟨hpush, Nat.le_of_lt (Nat.lt_trans hlt hlt')⟩

/-- What leaves machines closed does so when it is repeated. -/
theorem closed_repeat {step : Machine → Machine} (h : m.Closed)
    (hstep : ∀ m' : Machine, m'.Closed → m.states.size ≤ m'.states.size →
      (step m').Closed ∧ m'.states.size ≤ (step m').states.size) (n : Nat) :
    (Nat.repeat step n m).Closed ∧ m.states.size ≤ (Nat.repeat step n m).states.size := by
  induction n with
  | zero => exact ⟨h, Nat.le_refl _⟩
  | succ n ih =>
    rcases hstep _ ih.1 ih.2 with ⟨hclosed, hle⟩
    exact ⟨hclosed, Nat.le_trans ih.2 hle⟩

/-- A bounded number of rounds builds a closed machine. -/
theorem Builds.rounds (hbody : Builds body) (greedy reads : Bool) (least : Nat)
    (greatest : Option Nat) : Builds (Machine.rounds greedy reads least greatest body) := by
  intro m h
  cases greatest with
  | none =>
    cases least with
    | zero => exact hbody.anyRounds greedy reads m h
    | succ n =>
      rcases hbody.loop greedy h with ⟨hloop, hlt⟩
      rcases closed_repeat hloop (fun m' h' _ => hbody m' h') n with ⟨hclosed, hle⟩
      exact ⟨hclosed, Nat.le_trans (Nat.le_of_lt hlt) hle⟩
  | some most =>
    have hskips : ∀ m' : Machine, m'.Closed → m.states.size ≤ m'.states.size →
        (m'.skippable greedy body m.entry).Closed ∧
          m'.states.size ≤ (m'.skippable greedy body m.entry).states.size :=
      fun m' h' hle => hbody.skippable greedy h' (Nat.lt_of_lt_of_le h.entry_lt hle)
    rcases closed_repeat h hskips (most - least) with ⟨hinner, hle⟩
    rcases closed_repeat hinner (fun m' h' _ => hbody m' h') least with ⟨hclosed, hle'⟩
    exact ⟨hclosed, Nat.le_trans hle hle'⟩

end Closed

end Machine

open Machine in
/-- A term put in front of a closed machine leaves it closed. -/
theorem Term.builds_before (t : Term) : Builds t.before := by
  induction t with
  | empty => exact fun m h => ⟨h, Nat.le_refl _⟩
  | char cls =>
    intro m h
    have hread : ∀ j ∈ (State.read cls m.entry).targets, j < m.states.size := by
      simp [State.targets, h.entry_lt]
    exact ⟨(h.push hread).1, Nat.le_of_lt (h.push hread).2⟩
  | assertion condition =>
    intro m h
    have hcheck : ∀ j ∈ (State.check condition m.entry).targets, j < m.states.size := by
      simp [State.targets, h.entry_lt]
    exact ⟨(h.push hcheck).1, Nat.le_of_lt (h.push hcheck).2⟩
  | group number body ih => exact ih
  | concat first second ih ih' =>
    intro m h
    rcases ih' m h with ⟨hsecond, hle⟩
    rcases ih _ hsecond with ⟨hfirst, hle'⟩
    exact ⟨hfirst, Nat.le_trans hle hle'⟩
  | either first second ih ih' =>
    intro m h
    rcases ih m h with ⟨hfirst, hle⟩
    -- the second alternative is put in front of the states of the first one
    rcases ih' ⟨(first.before m).states, m.entry⟩
      ⟨Nat.lt_of_lt_of_le h.entry_lt hle, hfirst.leads⟩ with ⟨hsecond, hle'⟩
    have hchoose : ∀ j ∈ (State.choose (first.before m).entry
        (second.before ⟨(first.before m).states, m.entry⟩).entry).targets,
        j < (second.before ⟨(first.before m).states, m.entry⟩).states.size := by
      simp [State.targets, hsecond.entry_lt, Nat.lt_of_lt_of_le hfirst.entry_lt hle']
    rcases hsecond.push hchoose with ⟨hpush, hlt⟩
    exact ⟨hpush, Nat.le_trans hle (Nat.le_trans hle' (Nat.le_of_lt hlt))⟩
  | repeated greedy least greatest body ih =>
    exact Builds.rounds ih greedy body.alwaysReads least greatest

/-- The machine of a term leads nowhere else. -/
theorem Term.closed_machine (t : Term) : t.machine.Closed :=
  (t.builds_before _ Machine.closed_done).1

namespace Machine

/-! ## States that have not been entered -/

namespace Entered

/-- The states below a bound that have not been entered. -/
def unseen (known : Entered) (n : Nat) : Finset Nat :=
  {i ∈ Finset.range n | known.seen[i]?.getD true = false}

variable {known : Entered} {i j n : Nat}

theorem mem_unseen : i ∈ known.unseen n ↔ i < n ∧ known.seen[i]?.getD true = false := by
  simp [unseen]

/-- A state that has been marked has been seen, and no other one by that. -/
theorem getD_mark (known : Entered) (i j : Nat) :
    (known.mark i).seen[j]?.getD true = (decide (i = j) || known.seen[j]?.getD true) := by
  rw [mark, Array.getElem?_setIfInBounds]
  by_cases h : i = j
  · by_cases hj : i < known.seen.size
    · simp [h, h ▸ hj]
    · simp [h, h ▸ hj]
  · simp [h]

/-- A mark leaves fewer states unseen. -/
theorem unseen_mark_subset (known : Entered) (i n : Nat) :
    (known.mark i).unseen n ⊆ known.unseen n := by
  intro j hj
  rw [mem_unseen, getD_mark, Bool.or_eq_false_iff] at hj
  exact mem_unseen.2 ⟨hj.1, hj.2.2⟩

/-- A state that may be entered has not been seen. -/
theorem mem_unseen_of_admits (hi : i < n) (h : known.admits i = true) : i ∈ known.unseen n := by
  rw [admits, Bool.not_eq_true', Bool.or_eq_false_iff] at h
  exact mem_unseen.2 ⟨hi, h.2⟩

/-- A state that is entered is one less to enter. -/
theorem card_unseen_mark (hi : i < n) (h : known.admits i = true) :
    ((known.mark i).unseen n).card < (known.unseen n).card := by
  refine Finset.card_lt_card ((Finset.ssubset_iff_of_subset (unseen_mark_subset known i n)).2 ?_)
  refine ⟨i, mem_unseen_of_admits hi h, ?_⟩
  rw [mem_unseen, getD_mark]
  simp

/-- Where every state has been entered none may be. -/
theorem admits_eq_false (hi : i < n) (h : (known.unseen n).card = 0) : known.admits i = false := by
  by_contra hadmits
  rw [Bool.not_eq_false] at hadmits
  rw [Finset.card_eq_zero] at h
  have hmem := mem_unseen_of_admits hi hadmits
  rw [h] at hmem
  cases hmem

end Entered

/-- Entering a state only takes states away from those that have not been entered. -/
theorem unseen_enter_subset (m : Machine) (here : Place) (depth i n : Nat) (known : Entered) :
    (m.enter here depth i known).unseen n ⊆ known.unseen n := by
  induction depth generalizing i known with
  | zero => exact subset_rfl
  | succ depth ih =>
    rw [enter]
    split
    · split
      · exact subset_rfl
      · exact known.unseen_mark_subset i n
      · exact known.unseen_mark_subset i n
      · split
        · exact (ih _ _).trans (known.unseen_mark_subset i n)
        · exact known.unseen_mark_subset i n
      · exact (ih _ _).trans ((ih _ _).trans (known.unseen_mark_subset i n))
    · exact subset_rfl

/-! ## Further states -/

/-- Whether a machine has the states of another one, wherever that has any. -/
def Extends (m' m : Machine) : Prop := ∀ i < m.states.size, m'.states[i]? = m.states[i]?

/-- Whether two machines, of which one has further states, know the same of the states below a
bound, and will go on from such states only. -/
structure Entered.Agrees (n : Nat) (known known' : Entered) : Prop where
  seen : ∀ i < n, known'.seen[i]?.getD true = known.seen[i]?.getD true
  readers : known'.readers = known.readers
  accepts : known'.accepts = known.accepts
  readers_lt : ∀ x ∈ known.readers, x.2 < n

section Agrees

variable {n i : Nat} {known known' : Entered}

/-- The same states of the smaller machine may be entered. -/
theorem Entered.Agrees.admits_eq (h : known.Agrees n known') (hi : i < n) :
    known'.admits i = known.admits i := by
  rw [admits, admits, h.accepts, h.seen i hi]

/-- A mark on both sides leaves them in agreement. -/
theorem Entered.Agrees.mark (h : known.Agrees n known') (i : Nat) :
    (known.mark i).Agrees n (known'.mark i) := by
  refine ⟨?_, h.readers, h.accepts, h.readers_lt⟩
  intro j hj
  rw [getD_mark, getD_mark, h.seen j hj]

variable {m m' : Machine}

/-- A state that may not be entered changes nothing, at any depth. -/
theorem enter_of_not_admits (m : Machine) (here : Place) (depth : Nat)
    (h : known.admits i = false) : m.enter here depth i known = known := by
  cases depth with
  | zero => rfl
  | succ depth => rw [enter, h, if_neg Bool.false_ne_true]

/-- What a state leads to is the same in a machine with further states, at any depth that is
enough for the states that have not been entered. -/
theorem Entered.Agrees.enter (hext : m'.Extends m) (hclosed : m.Closed) (here : Place)
    {depth depth' : Nat} (hi : i < m.states.size) (h : known.Agrees m.states.size known')
    (hdepth : (known.unseen m.states.size).card ≤ depth)
    (hdepth' : (known.unseen m.states.size).card ≤ depth') :
    (m.enter here depth i known).Agrees m.states.size (m'.enter here depth' i known') := by
  induction depth generalizing i known known' depth' with
  | zero =>
    have hadmits := Entered.admits_eq_false hi (Nat.le_zero.1 hdepth)
    rw [enter_of_not_admits _ _ _ hadmits,
      enter_of_not_admits _ _ _ ((h.admits_eq hi).trans hadmits)]
    exact h
  | succ depth ih =>
    cases hadmits : known.admits i with
    | false =>
      rw [enter_of_not_admits _ _ _ hadmits,
        enter_of_not_admits _ _ _ ((h.admits_eq hi).trans hadmits)]
      exact h
    | true =>
      have hadmits' : known'.admits i = true := (h.admits_eq hi).trans hadmits
      have hless := Entered.card_unseen_mark hi hadmits
      have hmark := h.mark i
      cases depth' with
      | zero => omega
      | succ depth' =>
        have hstate : m.states[i]? = some m.states[i] := Array.getElem?_eq_getElem hi
        have hleads := hclosed.leads i _ hstate
        have hstate' := (hext i hi).trans hstate
        rw [Machine.enter, Machine.enter, hadmits, hadmits', hstate, hstate', if_pos rfl,
          if_pos rfl]
        cases hcase : m.states[i] with
        | accept => exact ⟨hmark.seen, hmark.readers, rfl, hmark.readers_lt⟩
        | read cls next =>
          rw [hcase] at hleads
          refine ⟨hmark.seen, ?_, hmark.accepts, ?_⟩
          · show known'.readers.push _ = known.readers.push _
            rw [h.readers]
          · intro x hx
            rcases Array.mem_push.1 hx with hold | rfl
            · exact h.readers_lt x hold
            · exact hleads next List.mem_cons_self
        | check condition next =>
          rw [hcase] at hleads
          dsimp only
          split
          · exact ih (hleads next List.mem_cons_self) hmark (by omega) (by omega)
          · exact hmark
        | choose preferred other =>
          rw [hcase] at hleads
          have hpreferred : (m.enter here depth preferred (known.mark i)).Agrees m.states.size
              (m'.enter here depth' preferred (known'.mark i)) :=
            ih (hleads preferred List.mem_cons_self) hmark (by omega) (by omega)
          have hle := Finset.card_le_card
            (m.unseen_enter_subset here depth preferred m.states.size (known.mark i))
          exact ih (hleads other (List.mem_cons_of_mem _ List.mem_cons_self)) hpreferred (by omega)
            (by omega)

/-! ## Running with further states -/

/-- No machine of so many states needs to go any deeper. -/
theorem Entered.card_unseen_le (known : Entered) (n : Nat) : (known.unseen n).card ≤ n := by
  have hle := Finset.card_filter_le (Finset.range n) fun i => known.seen[i]?.getD true = false
  rwa [Finset.card_range] at hle

/-- A machine with further states is larger. -/
theorem Extends.size_le (hext : m'.Extends m) : m.states.size ≤ m'.states.size := by
  by_contra hlt
  have hget := hext m'.states.size (by omega)
  rw [Array.getElem?_eq_none (Nat.le_refl _), Array.getElem?_eq_getElem (by omega)] at hget
  cases hget

/-- Before anything is entered, two machines agree. -/
theorem agrees_start (hle : m.states.size ≤ m'.states.size) :
    Entered.Agrees m.states.size ⟨Array.replicate m.states.size false, #[], false⟩
      ⟨Array.replicate m'.states.size false, #[], false⟩ := by
  refine ⟨?_, rfl, rfl, by simp⟩
  intro i hi
  simp [hi, Nat.lt_of_lt_of_le hi hle]

/-- Some states lead to the same ones in a machine with further states. -/
theorem agrees_enterAll (hext : m'.Extends m) (hclosed : m.Closed) (here : Place)
    {entries : List Nat} (hentries : ∀ i ∈ entries, i < m.states.size) :
    (m.enterAll here entries).Agrees m.states.size (m'.enterAll here entries) := by
  have hfold : ∀ {known known' : Entered}, known.Agrees m.states.size known' →
      (entries.foldl (fun known i => m.enter here m.states.size i known) known).Agrees
        m.states.size
        (entries.foldl (fun known i => m'.enter here m'.states.size i known) known') := by
    intro known known' h
    induction entries generalizing known known' with
    | nil => exact h
    | cons i entries ih =>
      have hdepth := known.card_unseen_le m.states.size
      refine ih (fun j hj => hentries j (List.mem_cons_of_mem _ hj)) ?_
      exact h.enter hext hclosed here (hentries i List.mem_cons_self) hdepth
        (Nat.le_trans hdepth hext.size_le)
  exact hfold (agrees_start hext.size_le)

/-- Machines that agree go on from the same states behind a code point. -/
theorem Entered.Agrees.after_eq (h : known.Agrees n known') (c : Char) :
    known'.after c = known.after c := by
  rw [after, after, h.readers]

/-- What is gone on from is a state of the smaller machine. -/
theorem Entered.Agrees.after_lt (h : known.Agrees n known') {c : Char} :
    ∀ i ∈ known.after c, i < n := by
  intro i hi
  rcases List.mem_filterMap.1 hi with ⟨⟨cls, next⟩, hx, hread⟩
  have hlt := h.readers_lt _ (Array.mem_toList_iff.1 hx)
  cases hc : cls.contains c with
  | true =>
    simp only [hc, if_true, Option.some.injEq] at hread
    exact hread ▸ hlt
  | false => simp [hc] at hread

/-- A machine with further states matches the same, from states that lead to the same. -/
theorem run_eq_of_agrees (hext : m'.Extends m) (hclosed : m.Closed) {before : Option Char}
    {text : Text} {i i' : Nat} {others others' : List Nat}
    (h : (m.enterAll ⟨before, text⟩ (i :: others)).Agrees m.states.size
      (m'.enterAll ⟨before, text⟩ (i' :: others'))) :
    m'.run before (i' :: others') text = m.run before (i :: others) text := by
  induction text generalizing before i i' others others' with
  | nil => simp only [run, h.accepts]
  | cons c rest ih =>
    have hrest : m'.run (some c) ((m'.enterAll ⟨before, c :: rest⟩ (i' :: others')).after c) rest =
        m.run (some c) ((m.enterAll ⟨before, c :: rest⟩ (i :: others)).after c) rest := by
      rw [h.after_eq]
      have hlt := h.after_lt (c := c)
      cases hafter : (m.enterAll ⟨before, c :: rest⟩ (i :: others)).after c with
      | nil => rw [run_nil, run_nil]
      | cons j after =>
        rw [hafter] at hlt
        exact ih (agrees_enterAll hext hclosed ⟨some c, rest⟩ hlt)
    simp only [run, hrest, h.accepts]

/-! ## Checks in front of a machine -/

/-- One more state leaves the others as they are. -/
theorem extends_push (m : Machine) (state : State) : (m.push state).Extends m := by
  intro i hi
  exact (Array.getElem?_push ..).trans (if_neg (Nat.ne_of_lt hi))

/-- A machine with a check in front passes that first, and then goes on where it begins
without. -/
theorem enterAll_push_check (m : Machine) (condition : Assertion) (here : Place) :
    (m.push (.check condition m.entry)).enterAll here [m.states.size] =
      let start : Entered := ⟨Array.replicate (m.states.size + 1) false, #[], false⟩
      if condition.holds here then
        (m.push (.check condition m.entry)).enter here m.states.size m.entry
          (start.mark m.states.size)
      else start.mark m.states.size := by
  have hsize : (m.push (.check condition m.entry)).states.size = m.states.size + 1 :=
    Array.size_push _
  have hstate : (m.push (.check condition m.entry)).states[m.states.size]? =
      some (.check condition m.entry) :=
    Array.getElem?_push_size
  have hadmits : Entered.admits ⟨Array.replicate (m.states.size + 1) false, #[], false⟩
      m.states.size = true := by
    simp [Entered.admits]
  rw [enterAll_single, hsize, enter, if_pos hadmits, hstate]

/-- Where the text starts, a machine that first checks this matches what it matches without. -/
theorem matchAt?_push_textStart (hclosed : m.Closed) (text : Text) :
    (m.push (.check .textStart m.entry)).matchAt? ⟨none, text⟩ = m.matchAt? ⟨none, text⟩ := by
  let pinned := m.push (.check .textStart m.entry)
  let start : Entered := ⟨Array.replicate (m.states.size + 1) false, #[], false⟩
  have hmark : Entered.Agrees m.states.size ⟨Array.replicate m.states.size false, #[], false⟩
      (start.mark m.states.size) := by
    refine ⟨?_, rfl, rfl, by simp⟩
    intro i hi
    rw [Entered.getD_mark, decide_eq_false (Nat.ne_of_gt hi)]
    simp [start, hi, Nat.lt_succ_of_lt hi]
  have hdepth := Entered.card_unseen_le ⟨Array.replicate m.states.size false, #[], false⟩
    m.states.size
  have hagrees : (m.enterAll ⟨none, text⟩ [m.entry]).Agrees m.states.size
      (pinned.enterAll ⟨none, text⟩ [m.states.size]) := by
    rw [enterAll_push_check, enterAll_single]
    exact hmark.enter (m.extends_push _) hclosed _ hclosed.entry_lt hdepth hdepth
  have hrun : pinned.run none [m.states.size] text = m.run none [m.entry] text :=
    run_eq_of_agrees (m.extends_push _) hclosed hagrees
  exact congrArg (Option.map text.take) hrun

/-- Behind the start of the text a machine that first checks this matches nothing. -/
theorem matchAt?_push_textStart_behind (m : Machine) (c : Char) (text : Text) :
    (m.push (.check .textStart m.entry)).matchAt? ⟨some c, text⟩ = none := by
  have hrun : (m.push (.check .textStart m.entry)).run (some c) [m.states.size] text = none := by
    cases text <;> simp [run, enterAll_push_check, Assertion.holds, Entered.mark, Entered.after]
  exact congrArg (Option.map text.take) hrun

end Agrees

end Machine

end SlotGrammar.Regex
