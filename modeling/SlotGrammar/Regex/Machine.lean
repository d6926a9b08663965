import SlotGrammar.Regex.Term

/-!
# Matching machines

A machine is a table of states.  A term is matched by the machine that has the
states of the term in front of an accepting state; where a term leaves a choice,
the state that chooses prefers one way to the other.

All ways through a machine are followed side by side, one code point at a time,
in order of preference.  At any one place in the text a state is entered once: a
way that comes to a state which a preferred way has entered there goes no
further.  So a repetition ends when a round leads back to where it began, and the
work is bounded by the number of states at each place.

Main results:

- Theorem `run_nil`: with no state to go on from nothing is matched.
- Theorem `run_eq_takeWhile`: a machine that waits for the code points of a class again
  and again matches as many of them as there are.
- Theorem `matchAt?_append`: a match is what the text ahead begins with.
-/

namespace SlotGrammar.Regex

/-- What a machine does in a state, and the number of the state after it. -/
inductive State where
  | accept
  | read (cls : CharClass) (next : Nat)
  | check (condition : Assertion) (next : Nat)
  | choose (preferred other : Nat)
deriving DecidableEq

/-- A table of states, and the number of the state to begin in. -/
structure Machine where
  states : Array State
  entry : Nat
deriving DecidableEq

namespace Machine

/-! ## Machines of terms -/

/-- The machine that accepts where it begins. -/
def done : Machine := ⟨#[.accept], 0⟩

/-- The choice between one more round and going on. -/
def fork (greedy : Bool) (round onward : Nat) : State :=
  if greedy then .choose round onward else .choose onward round

/-- Puts a state in front of a machine. -/
def push (m : Machine) (state : State) : Machine := ⟨m.states.push state, m.states.size⟩

/-- Puts one or more rounds of a term, given by how it is put in front of
machines, in front of a machine.  The state that chooses comes after each round. -/
def loop (greedy : Bool) (body : Machine → Machine) (m : Machine) : Machine :=
  let hub := m.states.size
  let round := body (m.push .accept)
  ⟨round.states.setIfInBounds hub (fork greedy round.entry m.entry), round.entry⟩

/-- Puts a round that may be left out in front of a machine.  Without it the
machine goes on from the state `onward`. -/
def skippable (greedy : Bool) (body : Machine → Machine) (onward : Nat) (m : Machine) : Machine :=
  let round := body m
  round.push (fork greedy round.entry onward)

/-- Puts any number of rounds in front of a machine.  Rounds that always read
something begin at the state that chooses after each of them.  Others have a
choice of their own in front, so that a first round can end the repetition
without having read anything. -/
def anyRounds (greedy reads : Bool) (body : Machine → Machine) (m : Machine) : Machine :=
  let round := m.loop greedy body
  if reads then ⟨round.states, m.states.size⟩ else round.push (fork greedy round.entry m.entry)

/-- Puts a repetition in front of a machine. -/
def rounds (greedy reads : Bool) (least : Nat) (greatest : Option Nat)
    (body : Machine → Machine) (m : Machine) : Machine :=
  match greatest, least with
  | none, 0 => m.anyRounds greedy reads body
  | none, n + 1 => Nat.repeat body n (m.loop greedy body)
  | some most, least =>
    Nat.repeat body least (Nat.repeat (skippable greedy body m.entry) (most - least) m)

end Machine

namespace Term

/-- Puts the states of a term in front of a machine. -/
def before : Term → Machine → Machine
  | empty, m => m
  | char cls, m => m.push (.read cls m.entry)
  | assertion condition, m => m.push (.check condition m.entry)
  | group _ body, m => body.before m
  | concat first second, m => first.before (second.before m)
  | either first second, m =>
    let preferred := first.before m
    let other := second.before ⟨preferred.states, m.entry⟩
    other.push (.choose preferred.entry other.entry)
  | repeated greedy least greatest body, m =>
    m.rounds greedy body.alwaysReads least greatest fun m => body.before m

/-- The machine that matches a term. -/
def machine (t : Term) : Machine := t.before .done

end Term

namespace Machine

/-! ## Running -/

/-- What is known at one place in the text: the states that have been entered,
those among them that read, in order of preference, and whether the accepting
state has been entered. -/
structure Entered where
  seen : Array Bool
  readers : Array (CharClass × Nat)
  accepts : Bool

namespace Entered

/-- Whether a state may still be entered.  Once the accepting state has been
entered none is, for whatever comes later is preferred less than accepting. -/
def admits (known : Entered) (i : Nat) : Bool := !(known.accepts || known.seen[i]?.getD true)

/-- Notes that a state has been entered. -/
def mark (known : Entered) (i : Nat) : Entered :=
  { known with seen := known.seen.setIfInBounds i true }

/-- The states to go on from after a code point, the preferred one first. -/
def after (known : Entered) (c : Char) : List Nat :=
  known.readers.toList.filterMap fun (cls, next) => if cls.contains c then some next else none

end Entered

/-- Enters a state at a place, and then the states that it leads to without
reading.  Every state is entered once, so that the number of states bounds the
depth. -/
def enter (m : Machine) (here : Place) : Nat → Nat → Entered → Entered
  | 0, _, known => known
  | depth + 1, i, known =>
    if known.admits i then
      match m.states[i]? with
      | none => known
      | some .accept => { known.mark i with accepts := true }
      | some (.read cls next) =>
        { known.mark i with readers := known.readers.push (cls, next) }
      | some (.check condition next) =>
        if condition.holds here then m.enter here depth next (known.mark i) else known.mark i
      | some (.choose preferred other) =>
        m.enter here depth other (m.enter here depth preferred (known.mark i))
    else known

section Enter

variable {m : Machine} {here : Place} {depth : Nat} {known : Entered}

theorem enter_accept (i : Nat) (hstate : m.states[i]? = some .accept)
    (hadmits : known.admits i = true) :
    m.enter here (depth + 1) i known = { known.mark i with accepts := true } := by
  simp [enter, hstate, hadmits]

theorem enter_read (i : Nat) (cls : CharClass) (next : Nat)
    (hstate : m.states[i]? = some (.read cls next)) (hadmits : known.admits i = true) :
    m.enter here (depth + 1) i known =
      { known.mark i with readers := known.readers.push (cls, next) } := by
  simp [enter, hstate, hadmits]

theorem enter_check (i : Nat) (condition : Assertion) (next : Nat)
    (hstate : m.states[i]? = some (.check condition next)) (hadmits : known.admits i = true)
    (hholds : condition.holds here = true) :
    m.enter here (depth + 1) i known = m.enter here depth next (known.mark i) := by
  simp [enter, hstate, hadmits, hholds]

theorem enter_choose (i preferred other : Nat)
    (hstate : m.states[i]? = some (.choose preferred other)) (hadmits : known.admits i = true) :
    m.enter here (depth + 1) i known =
      m.enter here depth other (m.enter here depth preferred (known.mark i)) := by
  simp [enter, hstate, hadmits]

end Enter

/-- Enters some states at a place, the preferred one first. -/
def enterAll (m : Machine) (here : Place) (entries : List Nat) : Entered :=
  entries.foldl (fun known i => m.enter here m.states.size i known)
    ⟨Array.replicate m.states.size false, #[], false⟩

/-- The number of code points in the match that is preferred among those from
some states, if any accepts. -/
def run (m : Machine) : Option Char → List Nat → Text → Option Nat
  | _, [], _ => none
  | before, entries, [] => if (m.enterAll ⟨before, []⟩ entries).accepts then some 0 else none
  | before, entries, c :: rest =>
    let known := m.enterAll ⟨before, c :: rest⟩ entries
    match m.run (some c) (known.after c) rest with
    | some n => some (n + 1)
    | none => if known.accepts then some 0 else none

/-- With no state to go on from nothing is matched. -/
@[simp]
theorem run_nil (m : Machine) (before : Option Char) (text : Text) :
    m.run before [] text = none := by
  cases text <;> rfl

/-- What a machine comes to that begins in one state. -/
theorem enterAll_single (m : Machine) (here : Place) (i : Nat) :
    m.enterAll here [i] =
      m.enter here m.states.size i ⟨Array.replicate m.states.size false, #[], false⟩ := rfl

/-- Whether a machine, begun in a state, may stop there at any place, and otherwise
waits for a code point of a class to go on from a state. -/
def Waits (m : Machine) (cls : CharClass) (onward entry : Nat) : Prop :=
  ∀ here, (m.enterAll here [entry]).accepts = true ∧
    (m.enterAll here [entry]).readers = #[(cls, onward)]

/-- A machine that waits for the code points of a class again and again matches as
many of them as there are. -/
theorem run_eq_takeWhile {m : Machine} {cls : CharClass} {onward entry : Nat}
    (hentry : m.Waits cls onward entry) (honward : m.Waits cls onward onward)
    (before : Option Char) (text : Text) :
    m.run before [entry] text = some (text.takeWhile cls.contains).length := by
  induction text generalizing before entry with
  | nil => simp [run, (hentry _).1]
  | cons c rest ih =>
    simp only [run, Entered.after, (hentry _).2]
    by_cases hc : cls.contains c = true
    · simp [hc, ih honward]
    · simp [hc, (hentry _).1]

/-! ## Matching -/

/-- The text that the machine prefers to match at a place. -/
def matchAt? (m : Machine) (here : Place) : Option Text :=
  (m.run here.before [m.entry] here.rest).map here.rest.take

/-- A match is what the text ahead begins with. -/
theorem matchAt?_append {m : Machine} {here : Place} {matched : Text}
    (h : m.matchAt? here = some matched) : ∃ rest, here.rest = matched ++ rest := by
  obtain ⟨n, -, rfl⟩ := Option.map_eq_some_iff.1 h
  exact ⟨here.rest.drop n, (List.take_append_drop n here.rest).symm⟩

end Machine

end SlotGrammar.Regex
