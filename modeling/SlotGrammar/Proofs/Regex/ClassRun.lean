import SlotGrammar.Regex.Machine

/-!
# Runs of a class

What the commonest terms match at the start of a text: as many code points of a
class as there are, at least one of them, or one of another class and then as many
as there are.

Main results:

- Theorem `matchAt?_of_waits`: a machine that reads one code point and then runs through a class
  matches that one and the run.
- Theorem `matchAt?_star`: any number of code points of a class match as many as there are.
- Theorem `matchAt?_plus`: one code point or more match likewise, if there is one.
- Theorem `matchAt?_char_star`: one code point of a class comes in front of the run.
-/

namespace SlotGrammar.Regex

namespace Machine

/-! ## Machines that run through a class -/

/-- The states that read the code points of a class again and again, in front of
the accepting state.  State 1 chooses, and state 2 reads. -/
def runStates (cls : CharClass) : Array State := #[.accept, .choose 2 0, .read cls 1]

/-- A machine that begins its table with the states of a run waits in the state
that chooses. -/
theorem waits_runStates (cls : CharClass) (front : Array State) (entry : Nat) :
    (⟨runStates cls ++ front, entry⟩ : Machine).Waits cls 1 1 := by
  intro here
  have hsize : (runStates cls ++ front).size = front.size + 3 := by
    simp [runStates]
    omega
  rw [enterAll_single, hsize, enter_choose 1 2 0, enter_read 2 cls 1, enter_accept 0]
  · simp [Entered.mark]
  all_goals simp [runStates, Array.getElem?_append, Entered.admits, Entered.mark]

/-- A machine that begins with one code point of a class and then waits for those
of another matches that one and as many of the others as there are. -/
theorem run_cons_of_waits {m : Machine} {lead cls : CharClass} {entry onward : Nat}
    {before : Option Char} {c : Char} {rest : Text}
    (hreads : (m.enterAll ⟨before, c :: rest⟩ [entry]).readers = #[(lead, onward)])
    (hwaits : m.Waits cls onward onward) (hlead : lead.contains c = true) :
    m.run before [entry] (c :: rest) = some ((rest.takeWhile cls.contains).length + 1) := by
  simp [run, Entered.after, hreads, hlead, run_eq_takeWhile hwaits hwaits]

/-- A machine that begins with one code point of a class matches nothing more than
it accepts at once where there is none. -/
theorem run_cons_of_not_contains {m : Machine} {lead : CharClass} {entry onward : Nat}
    {before : Option Char} {c : Char} {rest : Text}
    (hreads : (m.enterAll ⟨before, c :: rest⟩ [entry]).readers = #[(lead, onward)])
    (hlead : lead.contains c = false) :
    m.run before [entry] (c :: rest) =
      if (m.enterAll ⟨before, c :: rest⟩ [entry]).accepts then some 0 else none := by
  simp [run, Entered.after, hreads, hlead]

/-- What a machine matches at the start of a text that begins with one code point of a class and
then waits for those of another: that one and as many of the others as there are, and else
nothing, if it accepts that. -/
theorem matchAt?_of_waits {m : Machine} {lead cls : CharClass} {onward : Nat}
    {seen : Array Bool} {accepts : Bool} (hwaits : m.Waits cls onward onward)
    (hentry : ∀ text, m.enterAll ⟨none, text⟩ [m.entry] = ⟨seen, #[(lead, onward)], accepts⟩)
    (text : Text) :
    m.matchAt? ⟨none, text⟩ =
      (Text.leadAndRun? lead.contains cls.contains text).or
        (if accepts then some [] else none) := by
  have hreaders (text : Text) := congrArg Entered.readers (hentry text)
  cases text with
  | nil => cases accepts <;> simp [matchAt?, run, hentry, Text.leadAndRun?]
  | cons c rest =>
    have htake := List.prefix_iff_eq_take.1 (List.takeWhile_prefix cls.contains (l := rest))
    cases hc : lead.contains c with
    | true =>
      simp [matchAt?, run_cons_of_waits (hreaders _) hwaits hc, Text.leadAndRun?, hc, ← htake]
    | false =>
      cases accepts <;>
        simp [matchAt?, run_cons_of_not_contains (hreaders _) hc, hentry, Text.leadAndRun?, hc]

end Machine

namespace Term

open Machine

/-! ## Terms that run through a class -/

/-- Any number of code points of a class match as many as there are. -/
theorem matchAt?_star (cls : CharClass) (text : Text) :
    (star true (char cls)).atStart.machine.matchAt? ⟨none, text⟩ =
      some (text.takeWhile cls.contains) := by
  generalize hm : (star true (char cls)).atStart.machine = m
  replace hm : m = ⟨runStates cls ++ #[.check .textStart 1], 3⟩ := hm.symm
  have hwaits : m.Waits cls 1 1 := hm ▸ waits_runStates cls _ _
  have hentry (text : Text) : m.enterAll ⟨none, text⟩ [m.entry] =
      ⟨#[true, true, true, true], #[(cls, 1)], true⟩ := by
    rw [enterAll_single, show m.states.size = 4 by rw [hm]; rfl, show m.entry = 3 by rw [hm],
      enter_check 3 .textStart 1, enter_choose 1 2 0, enter_read 2 cls 1, enter_accept 0]
    · rfl
    all_goals simp [hm, runStates, Entered.admits, Entered.mark, Assertion.holds]
  rw [matchAt?_of_waits hwaits hentry, Text.leadAndRun?_self]
  by_cases h : text.takeWhile cls.contains = [] <;> simp [h]

/-- One code point of a class or more match as many as there are, if there is one. -/
theorem matchAt?_plus (cls : CharClass) (text : Text) :
    (plus true (char cls)).atStart.machine.matchAt? ⟨none, text⟩ =
      if text.takeWhile cls.contains = [] then none else some (text.takeWhile cls.contains) := by
  generalize hm : (plus true (char cls)).atStart.machine = m
  replace hm : m = ⟨runStates cls ++ #[.check .textStart 2], 3⟩ := hm.symm
  have hwaits : m.Waits cls 1 1 := hm ▸ waits_runStates cls _ _
  have hentry (text : Text) : m.enterAll ⟨none, text⟩ [m.entry] =
      ⟨#[false, false, true, true], #[(cls, 1)], false⟩ := by
    rw [enterAll_single, show m.states.size = 4 by rw [hm]; rfl, show m.entry = 3 by rw [hm],
      enter_check 3 .textStart 2, enter_read 2 cls 1]
    · rfl
    all_goals simp [hm, runStates, Entered.admits, Entered.mark, Assertion.holds]
  rw [matchAt?_of_waits hwaits hentry, Text.leadAndRun?_self]
  exact Option.or_none

/-- One code point of a class in front, and then any number of another class. -/
theorem matchAt?_char_star (lead cls : CharClass) (text : Text) :
    (concat (char lead) (star true (char cls))).atStart.machine.matchAt? ⟨none, text⟩ =
      Text.leadAndRun? lead.contains cls.contains text := by
  generalize hm : (concat (char lead) (star true (char cls))).atStart.machine = m
  replace hm : m = ⟨runStates cls ++ #[.read lead 1, .check .textStart 3], 4⟩ := hm.symm
  have hwaits : m.Waits cls 1 1 := hm ▸ waits_runStates cls _ _
  have hentry (text : Text) : m.enterAll ⟨none, text⟩ [m.entry] =
      ⟨#[false, false, false, true, true], #[(lead, 1)], false⟩ := by
    rw [enterAll_single, show m.states.size = 5 by rw [hm]; rfl, show m.entry = 4 by rw [hm],
      enter_check 4 .textStart 3, enter_read 3 lead 1]
    · rfl
    all_goals simp [hm, runStates, Entered.admits, Entered.mark, Assertion.holds]
  rw [matchAt?_of_waits hwaits hentry]
  exact Option.or_none

end Term

end SlotGrammar.Regex
