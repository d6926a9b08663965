import SlotGrammar.Regex.CharClass
import SlotGrammar.Regex.Place

/-!
# Regular expression terms

A term is a regular expression with its flags worked out.  Sequences and
alternatives are kept flat: a sequence inside a sequence is part of it, and so is
a choice inside a choice.  A group keeps its inside apart, and it is unlike every
other group.

Alternatives that all begin with the same parts share them: what they have in
common is matched first, and the choice is among the remainders.

Main results:

- Theorem `parts_sequence`: a sequence has the parts that it is made of.
- Theorem `commonLead_isPrefix`: every alternative begins with what all of them share.
-/

namespace SlotGrammar.Regex

/-- A regular expression.  A repetition has a least number of rounds and maybe a
greatest one; a greedy one prefers more rounds and a lazy one fewer. -/
inductive Term where
  | empty
  | char (cls : CharClass)
  | assertion (condition : Assertion)
  | group (number : Nat) (body : Term)
  | concat (first second : Term)
  | either (first second : Term)
  | repeated (greedy : Bool) (least : Nat) (greatest : Option Nat) (body : Term)
deriving DecidableEq

namespace Term

/-! ## Repetitions -/

/-- Any number of rounds. -/
def star (greedy : Bool) (body : Term) : Term := repeated greedy 0 none body

/-- One round or more. -/
def plus (greedy : Bool) (body : Term) : Term := repeated greedy 1 none body

/-- At most one round. -/
def optional (greedy : Bool) (body : Term) : Term := repeated greedy 0 (some 1) body

/-- A term repeated between so many times.  No round is the empty term, and a
single round is the term itself. -/
def between (greedy : Bool) (least : Nat) (greatest : Option Nat) (body : Term) : Term :=
  if greatest = some 0 then empty
  else if least = 1 ∧ greatest = some 1 then body
  else repeated greedy least greatest body

/-- Whether every match of a term reads a code point, as far as its form shows. -/
def alwaysReads : Term → Bool
  | empty => false
  | char _ => true
  | assertion _ => false
  | group _ body => body.alwaysReads
  | concat first second => first.alwaysReads || second.alwaysReads
  | either first second => first.alwaysReads && second.alwaysReads
  | repeated _ least _ body => least != 0 && body.alwaysReads

/-! ## Sequences -/

/-- The parts that are matched one after the other. -/
def parts : Term → List Term
  | empty => []
  | concat first second => first.parts ++ second.parts
  | t => [t]

/-- The term that matches some parts one after the other. -/
def sequence : List Term → Term
  | [] => empty
  | [part] => part
  | part :: others => concat part (sequence others)

/-- A sequence has the parts that it is made of. -/
theorem parts_sequence (ts : List Term) : (sequence ts).parts = ts.flatMap parts := by
  fun_induction sequence ts with
  | case1 => rfl
  | case2 part => simp
  | case3 part others _ ih => simp [parts, ih]

/-- A term that matches at the start of the text alone. -/
def atStart (t : Term) : Term := concat (assertion .textStart) t

/-! ## Alternatives -/

/-- The alternatives of a term, the preferred one first. -/
def branches : Term → List Term
  | either first second => first.branches ++ second.branches
  | t => [t]

/-- The term that prefers each of some terms to those after it. -/
def oneOf : List Term → Term
  | [] => empty
  | [branch] => branch
  | branch :: others => either branch (oneOf others)

/-- The parts with which two sequences both begin. -/
def common : List Term → List Term → List Term
  | a :: as, b :: bs => if a = b then a :: common as bs else []
  | _, _ => []

theorem common_isPrefix (as bs : List Term) : common as bs <+: as ∧ common as bs <+: bs := by
  fun_induction common as bs with
  | case1 a as bs ih => simp [ih.1, ih.2]
  | case2 => simp
  | case3 => simp

theorem foldl_common_isPrefix (lead : List Term) (others : List (List Term)) :
    others.foldl common lead <+: lead ∧ ∀ ps ∈ others, others.foldl common lead <+: ps := by
  induction others generalizing lead with
  | nil => simp
  | cons ps others ih =>
    have hstep := common_isPrefix lead ps
    obtain ⟨hlead, hothers⟩ := ih (common lead ps)
    refine ⟨hlead.trans hstep.1, ?_⟩
    rintro qs (_ | ⟨_, hqs⟩)
    · exact hlead.trans hstep.2
    · exact hothers qs hqs

/-- The parts that an alternative may share with others.  A single part is not shared. -/
def sharable (t : Term) : List Term := if t.parts.length < 2 then [] else t.parts

theorem sharable_isPrefix (t : Term) : t.sharable <+: t.parts := by
  unfold sharable
  split <;> simp

/-- The parts with which all of some alternatives begin. -/
def commonLead : List Term → List Term
  | [] => []
  | first :: others => (others.map sharable).foldl common first.sharable

/-- Every alternative begins with what all of them share. -/
theorem commonLead_isPrefix {ts : List Term} {t : Term} (h : t ∈ ts) :
    commonLead ts <+: t.parts := by
  match ts, h with
  | first :: others, h =>
    obtain ⟨hfirst, hothers⟩ := foldl_common_isPrefix first.sharable (others.map sharable)
    rcases List.mem_cons.1 h with rfl | h
    · exact hfirst.trans t.sharable_isPrefix
    · exact (hothers _ (List.mem_map_of_mem h)).trans t.sharable_isPrefix

/-- The term with the given alternatives.  What they all begin with is matched
first. -/
def alternatives : List Term → Term
  | [only] => only
  | ts =>
    match commonLead ts with
    | [] => oneOf ts
    | lead =>
      sequence (lead ++ [oneOf (ts.map fun t => sequence (t.parts.drop lead.length))])

end Term

end SlotGrammar.Regex
