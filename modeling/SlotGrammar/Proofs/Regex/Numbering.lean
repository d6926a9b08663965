import Mathlib.Data.List.Basic
import SlotGrammar.Regex.Machine

/-!
# Numbers of groups

The number of a group tells it apart from the other ones, and nothing else depends on it.
Terms with other numbers are put together in the same way, as long as different groups get
different numbers, and have the same machine.

Main results:

- Definition `Term.renumber`: a term with other numbers for its groups.
- Theorem `before_renumber`: it is put in front of machines alike.
- Theorem `alternatives_map_renumber`: alternatives with other numbers share as much.
-/

namespace SlotGrammar.Regex.Term

/-- A term with other numbers for its groups. -/
def renumber (f : Nat → Nat) : Term → Term
  | empty => empty
  | char cls => char cls
  | assertion condition => assertion condition
  | group number body => group (f number) (body.renumber f)
  | concat first second => concat (first.renumber f) (second.renumber f)
  | either first second => either (first.renumber f) (second.renumber f)
  | repeated greedy least greatest body => repeated greedy least greatest (body.renumber f)

variable {f : Nat → Nat}

/-! ## Machines -/

/-- Whether a term always reads something does not depend on its numbers. -/
theorem alwaysReads_renumber (f : Nat → Nat) (t : Term) :
    (t.renumber f).alwaysReads = t.alwaysReads := by
  induction t with
  | empty => rfl
  | char => rfl
  | assertion => rfl
  | group number body ih => exact ih
  | concat first second ih ih' => simp [renumber, alwaysReads, ih, ih']
  | either first second ih ih' => simp [renumber, alwaysReads, ih, ih']
  | repeated greedy least greatest body ih => simp [renumber, alwaysReads, ih]

/-- The numbers of groups do not show in machines. -/
theorem before_renumber (f : Nat → Nat) (t : Term) : (t.renumber f).before = t.before := by
  induction t with
  | empty => rfl
  | char => rfl
  | assertion => rfl
  | group number body ih =>
    funext m
    exact congrFun ih m
  | concat first second ih ih' =>
    funext m
    simp only [renumber, before, ih, ih']
  | either first second ih ih' =>
    funext m
    simp only [renumber, before, ih, ih']
  | repeated greedy least greatest body ih =>
    funext m
    simp only [renumber, before, ih, alwaysReads_renumber]

/-- The parts of a sequence are put in front one after the other. -/
theorem before_eq_foldr (t : Term) (m : Machine) : t.before m = t.parts.foldr before m := by
  induction t generalizing m with
  | concat first second ih ih' => rw [parts, List.foldr_append, ← ih', ← ih, before]
  | _ => rfl

/-! ## Putting terms together -/

/-- A counted repetition is renumbered in its body. -/
theorem renumber_between (f : Nat → Nat) (greedy : Bool) (least : Nat) (greatest : Option Nat)
    (body : Term) :
    (between greedy least greatest body).renumber f =
      between greedy least greatest (body.renumber f) := by
  unfold between
  split
  · rfl
  · split <;> rfl

/-- The parts of a renumbered term are its renumbered parts. -/
theorem parts_renumber (f : Nat → Nat) (t : Term) :
    (t.renumber f).parts = t.parts.map (renumber f) := by
  induction t with
  | concat first second ih ih' => simp [renumber, parts, ih, ih']
  | _ => rfl

/-- The branches of a renumbered term are its renumbered branches. -/
theorem branches_renumber (f : Nat → Nat) (t : Term) :
    (t.renumber f).branches = t.branches.map (renumber f) := by
  induction t with
  | either first second ih ih' => simp [renumber, branches, ih, ih']
  | _ => rfl

/-- A sequence of renumbered terms is the renumbered sequence. -/
theorem sequence_map_renumber (f : Nat → Nat) (ts : List Term) :
    sequence (ts.map (renumber f)) = (sequence ts).renumber f := by
  fun_induction sequence ts with
  | case1 => rfl
  | case2 part => rfl
  | case3 part others hne ih =>
    cases others with
    | nil => exact absurd rfl hne
    | cons next others =>
      simp only [List.map_cons] at ih ⊢
      rw [sequence, ih, renumber]
      exact nofun

/-- A choice of renumbered terms is the renumbered choice. -/
theorem oneOf_map_renumber (f : Nat → Nat) (ts : List Term) :
    oneOf (ts.map (renumber f)) = (oneOf ts).renumber f := by
  fun_induction oneOf ts with
  | case1 => rfl
  | case2 branch => rfl
  | case3 branch others hne ih =>
    cases others with
    | nil => exact absurd rfl hne
    | cons next others =>
      simp only [List.map_cons] at ih ⊢
      rw [oneOf, ih, renumber]
      exact nofun

/-- Different terms stay different when different groups get different numbers. -/
theorem renumber_injective (hf : Function.Injective f) : Function.Injective (renumber f) := by
  intro t t' heq
  induction t generalizing t' with
  | empty => cases t' <;> simp_all [renumber]
  | char => cases t' <;> simp_all [renumber]
  | assertion => cases t' <;> simp_all [renumber]
  | group number body ih =>
    cases t' <;> simp [renumber] at heq
    rw [hf heq.1, ih heq.2]
  | concat first second ih ih' =>
    cases t' <;> simp [renumber] at heq
    rw [ih heq.1, ih' heq.2]
  | either first second ih ih' =>
    cases t' <;> simp [renumber] at heq
    rw [ih heq.1, ih' heq.2]
  | repeated greedy least greatest body ih =>
    cases t' <;> simp [renumber] at heq
    rw [heq.1, heq.2.1, heq.2.2.1, ih heq.2.2.2]

section Sharing

variable (hf : Function.Injective f)

include hf in
/-- A common beginning that was found is there after renumbering. -/
theorem common_map_renumber (as bs : List Term) :
    common (as.map (renumber f)) (bs.map (renumber f)) = (common as bs).map (renumber f) := by
  fun_induction common as bs with
  | case1 a as bs ih => simp [common, ih]
  | case2 a as b bs hne =>
    have hne' : a.renumber f ≠ b.renumber f := fun heq => hne (renumber_injective hf heq)
    simp [common, hne']
  | case3 as bs hempty =>
    cases as with
    | nil => simp [common]
    | cons a as =>
      cases bs with
      | nil => simp [common]
      | cons b bs => exact absurd rfl (hempty a as b bs rfl)

/-- What a branch may share is renumbered with it. -/
theorem sharable_renumber (f : Nat → Nat) (t : Term) :
    (t.renumber f).sharable = t.sharable.map (renumber f) := by
  unfold sharable
  rw [parts_renumber, List.length_map]
  split <;> rfl

include hf in
/-- The common beginning of many lists is renumbered with them. -/
theorem foldl_common_map_renumber (lead : List Term) (others : List (List Term)) :
    (others.map (List.map (renumber f))).foldl common (lead.map (renumber f)) =
      (others.foldl common lead).map (renumber f) := by
  induction others generalizing lead with
  | nil => rfl
  | cons ps others ih =>
    rw [List.map_cons, List.foldl_cons, common_map_renumber hf, ih, List.foldl_cons]

include hf in
/-- The common beginning of branches is renumbered with them. -/
theorem commonLead_map_renumber (ts : List Term) :
    commonLead (ts.map (renumber f)) = (commonLead ts).map (renumber f) := by
  cases ts with
  | nil => rfl
  | cons first others =>
    rw [List.map_cons, commonLead, commonLead, sharable_renumber, ← foldl_common_map_renumber hf]
    simp [List.map_map, Function.comp_def, sharable_renumber]

/-- Two alternatives and more are matched behind what they share. -/
theorem alternatives_eq {ts : List Term} (h : ∀ only, ts ≠ [only]) :
    alternatives ts = if commonLead ts = [] then oneOf ts else
      sequence (commonLead ts ++
        [oneOf (ts.map fun t => sequence (t.parts.drop (commonLead ts).length))]) := by
  unfold alternatives
  split
  · exact absurd rfl (h _)
  · split
    next hlead => rw [hlead, if_pos rfl]
    next hlead => rw [if_neg hlead]

include hf in
/-- Alternatives with other numbers share what those with the old ones do. -/
theorem alternatives_map_renumber (ts : List Term) :
    alternatives (ts.map (renumber f)) = (alternatives ts).renumber f := by
  by_cases hone : ∃ only, ts = [only]
  · rcases hone with ⟨only, rfl⟩
    rfl
  · have hts : ∀ only, ts ≠ [only] := fun only heq => hone ⟨only, heq⟩
    have hmap : ∀ only, ts.map (renumber f) ≠ [only] := by
      intro only heq
      rcases List.map_eq_singleton_iff.1 heq with ⟨t, rfl, -⟩
      exact hts t rfl
    have hrest : ∀ n, (ts.map (renumber f)).map (fun t => sequence (t.parts.drop n)) =
        (ts.map fun t => sequence (t.parts.drop n)).map (renumber f) := by
      intro n
      simp only [List.map_map]
      refine List.map_congr_left fun t _ => ?_
      simp only [Function.comp_apply, parts_renumber, ← List.map_drop, sequence_map_renumber]
    rw [alternatives_eq hts, alternatives_eq hmap, commonLead_map_renumber hf]
    by_cases hlead : commonLead ts = []
    · simp [hlead, oneOf_map_renumber]
    · have hlead' : (commonLead ts).map (renumber f) ≠ [] := by simpa using hlead
      rw [if_neg hlead, if_neg hlead', List.length_map, hrest, oneOf_map_renumber,
        ← sequence_map_renumber, List.map_append, List.map_singleton]

end Sharing

end SlotGrammar.Regex.Term
