import SlotGrammar.Proofs.Confinement
import SlotGrammar.Proofs.Repetition

/-!
# The rounds of a repetition

A repetition of the library makes at most as many turns that advance as there are bytes and
slots ahead of it, so it comes to an end whenever its turns do.  The order of positions alone
does not give this, because there are infinitely many positions before the next fragment.  The
turns stay in the input, though, and there each step forward leaves less room.

Main results:

- Theorem `Fragments.room_lt`: inside the input a step forward leaves less room.
- Theorem `Advance.confined`: turns that advance use up the room ahead.
- Theorem `Grammar.InUse.bounds_repetitions`: repetitions are bounded by the input, in all
  states of all runs.
-/

namespace SlotGrammar

variable {V α : Type}

/-! ## Room -/

theorem Text.byteLength_flatten_drop_le (texts : List Text) (k : Nat) :
    Text.byteLength (texts.drop k).flatten ≤ Text.byteLength texts.flatten := by
  rw [← List.take_append_drop k texts, List.flatten_append, Text.byteLength_append,
    List.take_append_drop]
  exact Nat.le_add_left _ _

namespace Fragments

variable {input : Fragments} {pos stop : Position}

/-- The number of bytes from a position to the end of the input. -/
def bytesFrom (input : Fragments) (pos : Position) : Nat :=
  Text.byteLength (input.texts.drop pos.fragment).flatten - pos.offset

/-- The number of slots from a position to the end of the input. -/
def slotsFrom (input : Fragments) (pos : Position) : Nat := input.slotCount - pos.fragment

/-- The number of bytes and slots from a position to the end of the input. -/
def room (input : Fragments) (pos : Position) : Nat := input.bytesFrom pos + input.slotsFrom pos

/-- A valid position lies in a fragment. -/
theorem Valid.exists_text (h : input.Valid pos) (hne : input.texts ≠ []) :
    ∃ text, input.texts[pos.fragment]? = some text ∧ pos.offset ≤ text.byteLength := by
  rcases h with hrest | ⟨-, hempty⟩
  · rcases Option.isSome_iff_exists.1 hrest with ⟨t, ht⟩
    rcases Option.bind_eq_some_iff.1 ht with ⟨text, htext, hdrop⟩
    rcases Text.dropBytes?_eq_some_iff.1 hdrop with ⟨before, rfl, hoffset⟩
    refine ⟨before ++ t, htext, ?_⟩
    rw [Text.byteLength_append, hoffset]
    exact Nat.le_add_right _ _
  · exact absurd hempty hne

/-- Inside the input a step forward leaves less room. -/
theorem room_lt (h : input.Valid pos) (h' : input.Valid stop) (hlt : pos < stop) :
    input.room stop < input.room pos := by
  by_cases hempty : input.texts = []
  · -- without a fragment the start is the only valid position
    have hstart : ∀ {p : Position}, input.Valid p → p = .start := by
      intro p hp
      rcases hp with hrest | ⟨hp, -⟩
      · simp [rest?, get?, hempty] at hrest
      · exact hp
    rw [hstart h, hstart h'] at hlt
    exact absurd hlt (Position.lt_irrefl _)
  · rcases h.exists_text hempty with ⟨text, htext, hoffset⟩
    rcases h'.exists_text hempty with ⟨text', htext', hoffset'⟩
    have hbytes : ∀ {i : Nat} {t : Text}, input.texts[i]? = some t →
        Text.byteLength (input.texts.drop i).flatten =
          t.byteLength + Text.byteLength (input.texts.drop (i + 1)).flatten := by
      intro i t ht
      rcases List.getElem?_eq_some_iff.1 ht with ⟨hi, rfl⟩
      rw [List.drop_eq_getElem_cons hi, List.flatten_cons, Text.byteLength_append]
    have hlast : stop.fragment < input.length := (List.getElem?_eq_some_iff.1 htext').1
    unfold room bytesFrom slotsFrom slotCount
    rcases Position.lt_iff.1 hlt with hfragment | ⟨hsame, hless⟩
    · -- a later fragment leaves a slot less, and no more bytes than there are past this one
      have hrest := Text.byteLength_flatten_drop_le (input.texts.drop (pos.fragment + 1))
        (stop.fragment - (pos.fragment + 1))
      rw [List.drop_drop, show pos.fragment + 1 + (stop.fragment - (pos.fragment + 1)) =
        stop.fragment by omega] at hrest
      rw [hbytes htext]
      omega
    · rw [← hsame, hbytes htext]
      rw [hsame] at htext
      cases htext.symm.trans htext'
      omega

end Fragments

/-! ## Turns -/

section Turns

variable {input : Fragments} {nesting : Nesting V α} {ctx : Context V α} {p : Recognizer V α}
  {delimiter : Option (Recognizer V α)} {n : Nat} {pos stop : Position} {run after : Run V α}
  {ending : Ending V α} {trees : List (Tree V α)}

/-- An attempt that starts inside the input is confined to it. -/
theorem Recognizer.Attempted.confined {r : Recognizer V α}
    (h : r.Attempted ctx pos run ending after) (hrun : run.Confined input nesting)
    (hinput : ctx.input = input)
    (hr : r.Belongs Shape.Standard run.grammar.stores.size) (hpos : input.Valid pos) :
    after.Confined input nesting ∧ ending.Within input ∧ run.Continues after := by
  rcases h with ⟨limit, h⟩
  rcases (Run.Confined.exec input limit hrun hinput hr hpos).ends ending after h with
    ⟨hafter, hending⟩
  exact ⟨hafter, hending, (hrun.inOrder.attempted hr h).2⟩

/-- Whether the parts of a repetition are recognizers of the library that keep their outcomes in
the first stores. -/
def Recognizer.TurnsBelong (stores : Nat) (p : Recognizer V α)
    (delimiter : Option (Recognizer V α)) : Prop :=
  p.Belongs Shape.Standard stores ∧ ∀ d ∈ delimiter, d.Belongs Shape.Standard stores

theorem Recognizer.TurnsBelong.mono {stores stores' : Nat} (h : p.TurnsBelong stores delimiter)
    (hle : stores ≤ stores') : p.TurnsBelong stores' delimiter :=
  ⟨h.1.mono hle, fun d hd => (h.2 d hd).mono hle⟩

theorem Recognizer.Belongs.turns {handle : Handle} {stores : Nat}
    (h : (Recognizer.node handle (.repetition p delimiter)).Belongs Shape.Standard stores) :
    p.TurnsBelong stores delimiter := by
  cases delimiter with
  | none => exact ⟨h.part List.mem_cons_self, by simp⟩
  | some d =>
    refine ⟨h.part List.mem_cons_self, ?_⟩
    intro d' hd
    cases hd
    exact h.part (List.mem_cons_of_mem _ List.mem_cons_self)

/-- A turn that starts inside the input is confined to it. -/
theorem Recognizer.turn_confined (h : p.turn ctx delimiter n pos run ending after)
    (hrun : run.Confined input nesting) (hinput : ctx.input = input)
    (hparts : p.TurnsBelong run.grammar.stores.size delimiter) (hpos : input.Valid pos) :
    after.Confined input nesting ∧ ending.Within input ∧ run.Continues after := by
  rcases n with _ | n
  · exact h.confined hrun hinput hparts.1 hpos
  · rcases delimiter with _ | d
    · exact h.confined hrun hinput hparts.1 hpos
    · have hd := hparts.2 d rfl
      rcases h with hfirst | hfirst | ⟨hfirst, hsecond⟩
      · exact hfirst.confined hrun hinput hd hpos
      · exact hfirst.confined hrun hinput hd hpos
      · rcases hfirst.confined hrun hinput hd hpos with ⟨hmid, hwithin, hcontinues⟩
        rcases hsecond.confined hmid hinput (hparts.1.mono hcontinues.size_le)
          (hwithin _ rfl) with ⟨hafter, hending, hcontinues'⟩
        exact ⟨hafter, hending, hcontinues.trans hcontinues'⟩

/-- Turns that advance use up the room ahead. -/
theorem Advance.confined (h : Advance (p.turn ctx delimiter) n pos run trees stop after)
    (hrun : run.Confined input nesting) (hinput : ctx.input = input)
    (hparts : p.TurnsBelong run.grammar.stores.size delimiter) (hpos : input.Valid pos) :
    input.Valid stop ∧ trees.length + input.room stop ≤ input.room pos := by
  induction h with
  | nil n pos run => exact ⟨hpos, by simp⟩
  | @cons n pos stop run mid after m trees hturn hlt _ ih =>
    rcases Recognizer.turn_confined hturn hrun hinput hparts hpos with
      ⟨hmid, hwithin, hcontinues⟩
    have hstop : input.Valid m.stop := hwithin m rfl
    rcases ih hmid (hparts.mono hcontinues.size_le) hstop with ⟨hvalid, hroom⟩
    have hless := Fragments.room_lt hpos hstop hlt
    refine ⟨hvalid, ?_⟩
    rw [List.length_cons]
    omega

end Turns

/-! ## Repetitions -/

/-- Whether every repetition of the library that starts to work in the state of a snapshot makes
no more turns that advance than there is room ahead, matches no more often, and comes to an end
when each turn does that it comes to. -/
def Snapshot.BoundsRepetitions (input : Fragments) (snap : Snapshot V α) : Prop :=
  ∀ (started : Handle) (pos : Position), snap.occasion = .working started pos →
  ∀ (ctx : Context V α) (handle : Handle) (p : Recognizer V α)
    (delimiter : Option (Recognizer V α)), ctx.input = input →
    let r := Recognizer.node handle (.repetition p delimiter)
    let turn := p.turn ctx delimiter
    r.Belongs Shape.Standard snap.run.grammar.stores.size →
    (∀ trees stop mid, Advance turn 0 pos snap.run trees stop mid →
      trees.length ≤ input.room pos) ∧
    (∀ m after, r.Works ctx pos snap.run (.ok (some m)) after →
      ∃ trees, m.tree = .list trees ∧ trees.length ≤ input.room pos) ∧
    ((∀ trees stop mid, Advance turn 0 pos snap.run trees stop mid →
        ∃ last after, turn trees.length stop mid last after) →
      ∃ ending after, r.Works ctx pos snap.run ending after)

/-- Repetitions are bounded in a confined state. -/
theorem Snapshot.Confined.bounds {input : Fragments} {snap : Snapshot V α}
    (h : snap.Confined input) : snap.BoundsRepetitions input := by
  intro started pos hoccasion ctx handle p delimiter hinput r turn hr
  have hpos : input.Valid pos := h.valid pos (by rw [hoccasion]; rfl)
  have hbound : ∀ trees stop mid, Advance turn 0 pos snap.run trees stop mid →
      trees.length ≤ input.room pos := by
    intro trees stop mid hadvance
    exact Nat.le_of_add_right_le (hadvance.confined h.run hinput hr.turns hpos).2
  refine ⟨hbound, ?_, ?_⟩
  · intro m after hworks
    rcases Recognizer.works_repetition_iff.1 hworks with
      ⟨trees, stop, mid, last, hadvance, -, hconcludes⟩
    cases hconcludes with
    | found => exact ⟨_, rfl, hbound _ _ _ hadvance⟩
  · intro hends
    rcases Advance.exists_last hbound hends with
      ⟨trees, stop, mid, last, after, hadvance, hlast, hover⟩
    rcases exists_concludes hover trees with ⟨ending, hconcludes⟩
    exact ⟨ending, after, Recognizer.works_repetition_iff.2
      ⟨trees, stop, mid, last, hadvance, hlast, hconcludes⟩⟩

namespace Grammar

/-- Repetitions are bounded by the input.  However a grammar of the library has been used, this
holds in every state of an attempt by itself, from any valid position of any input, and in every
state of a parse, with caching or without, also of those that never come to an end. -/
theorem InUse.bounds_repetitions {g : Grammar V α} {hand : List (Recognizer V α)}
    (h : g.InUse Shape.Standard hand) {root : Recognizer V α} (hroot : root ∈ hand)
    (input : Fragments) (values : List V) (limit : Nat) :
    (∀ (window : ErrorWindow) (pos : Position), input.Valid pos →
      ∀ snap ∈ snapshots limit ⟨{ root, input }, []⟩
        ⟨input, values, { errorWindow := window }, [root]⟩ root pos { grammar := g },
        snap.BoundsRepetitions input) ∧
    ∀ options : ParseOptions, ∀ snap ∈ Query.snapshots ⟨root, input, values, options⟩ g limit,
      snap.BoundsRepetitions input := by
  have hconfined := h.confined
  constructor
  · intro window pos hpos snap hsnap
    have hstart := h.ready.confined_alone hconfined root input
    exact ((Run.Confined.exec input limit hstart rfl (h.ready.belongs root hroot) hpos).snapshots
      snap hsnap).bounds
  · intro options snap hsnap
    let q : Query V α := ⟨root, input, values, options⟩
    have hstart := h.ready.confined_opened hconfined q
    have hvalid := Fragments.valid_start input
    exact ((Run.Confined.exec input limit hstart rfl (h.ready.belongs_opened (q := q) hroot)
      hvalid).snapshots snap hsnap).bounds

/-! ## An example -/

/-- Values and letters that may be missing, through a store, with commas between. -/
def valueList : Recognizer Nat Nat × Grammar Nat Nat :=
  Grammar.build [] (.separated (.optional (.cached true (.choice [.nextSlot, .literal ['a']])))
    (.literal [','])) {}

/-- A letter, a comma and a value. -/
def letterAndValueListed : Query Nat Nat := ⟨valueList.1, ⟨[['a', ','], []]⟩, [], .standard⟩

theorem valueList_inUse : valueList.2.InUse Shape.Standard [valueList.1] := by
  apply InUse.empty.build
  simp [Expr.separated, Expr.literal, Expr.optional, Expr.choice, Expr.nextSlot, Shape.outline,
    Shape.parts, Shape.withParts, Shape.Standard]

/-- The list has room for three values.  In a parse with a letter to replay, and in an attempt
from the comma on, all repetitions keep to what there is room for. -/
theorem valueList_bounded :
    letterAndValueListed.input.room .start = 3 ∧
    ∃ first, letterAndValueListed.parse? valueList.2 10 = some first ∧
      first.ending = .ok (some ⟨.list [.present (.text ['a']), .present (.index 0)], ⟨1, 0⟩⟩) ∧
      (∃ snap ∈ letterAndValueListed.snapshots first.grammar 10,
        snap.occasion = .working valueList.1.handle .start ∧
        (snap.run.grammar.stores.committed 0 letterAndValueListed.key 0).isSome = true ∧
        snap.BoundsRepetitions letterAndValueListed.input) ∧
      ∃ snap ∈ snapshots 10 ⟨{ root := valueList.1, input := letterAndValueListed.input }, []⟩
        ⟨letterAndValueListed.input, [], {}, [valueList.1]⟩ valueList.1 ⟨0, 1⟩
          { grammar := first.grammar },
        snap.occasion = .working valueList.1.handle ⟨0, 1⟩ ∧
        snap.BoundsRepetitions letterAndValueListed.input := by
  have hruns : (letterAndValueListed.parse? valueList.2 10).any (fun first =>
      first.ending = .ok (some ⟨.list [.present (.text ['a']), .present (.index 0)], ⟨1, 0⟩⟩) ∧
      ((letterAndValueListed.snapshots first.grammar 10).any fun snap =>
        match snap.occasion with
        | .working handle pos => handle = valueList.1.handle ∧ pos = .start ∧
            (snap.run.grammar.stores.committed 0 letterAndValueListed.key 0).isSome = true
        | _ => false) = true ∧
      ((snapshots 10 ⟨{ root := valueList.1, input := letterAndValueListed.input }, []⟩
        ⟨letterAndValueListed.input, [], {}, [valueList.1]⟩ valueList.1 ⟨0, 1⟩
          { grammar := first.grammar }).any fun snap =>
        match snap.occasion with
        | .working handle pos => handle = valueList.1.handle ∧ pos = ⟨0, 1⟩
        | _ => false) = true) = true := by decide +kernel
  rcases (Option.any_eq_true _ _).1 hruns with ⟨first, hfirst, hruns⟩
  rcases of_decide_eq_true hruns with ⟨hending, hparse, halone⟩
  rcases List.any_eq_true.1 hparse with ⟨snap, hsnap, hworking⟩
  rcases List.any_eq_true.1 halone with ⟨snap', hsnap', hworking'⟩
  have hroot : valueList.1 ∈ [valueList.1] := List.mem_cons_self
  have hused := valueList_inUse.parse (q := letterAndValueListed) hroot hfirst
  have hall := hused.bounds_repetitions hroot letterAndValueListed.input [] 10
  have hvalid : letterAndValueListed.input.Valid ⟨0, 1⟩ := .inl rfl
  refine ⟨rfl, first, hfirst, hending, ⟨snap, hsnap, ?_⟩, snap', hsnap', ?_⟩
  · split at hworking
    next handle pos hoccasion =>
      rcases of_decide_eq_true hworking with ⟨rfl, rfl, hcommitted⟩
      exact ⟨hoccasion, hcommitted, hall.2 .standard snap hsnap⟩
    next => cases hworking
  · split at hworking'
    next handle pos hoccasion =>
      rcases of_decide_eq_true hworking' with ⟨rfl, rfl⟩
      exact ⟨hoccasion, hall.1 {} ⟨0, 1⟩ hvalid snap' hsnap'⟩
    next => cases hworking'

end Grammar

end SlotGrammar
