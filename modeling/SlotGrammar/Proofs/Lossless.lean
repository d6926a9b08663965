import SlotGrammar.Proofs.Accounts
import SlotGrammar.Proofs.Symbols

/-!
# Lossless matches

Where nothing transforms its tree, a match keeps all that it read: the texts and slots in
the tree, from left to right, are the input between the two ends of the match.  What was
tried and given up on the way has left nothing behind.

Main results:

- Theorem `ahead?_eq_across`: between two positions lies what is ahead of the first one and
  not of the second.
- Theorem `Leaf.outcome_takes`: a leaf takes from the input what it yields.
- Theorem `InUse.exec?_lossless`: a match spells the input between its ends.
-/

namespace SlotGrammar

variable {V α : Type}

/-! ## Parts of an input -/

/-- Splitting behind a leading text gives that text. -/
theorem Text.splitAtBytes_byteLength_append (t u : Text) :
    splitAtBytes t.byteLength (t ++ u) = (t, u) := by
  induction t with
  | nil =>
    cases u with
    | nil => rfl
    | cons c u =>
      have hc := c.utf8Size_pos
      rw [byteLength_nil, List.nil_append, splitAtBytes, if_neg (by omega)]
  | cons c t ih =>
    rw [byteLength_cons, List.cons_append, splitAtBytes, if_pos (Nat.le_add_right _ _),
      Nat.add_sub_cancel_left, ih]

namespace Fragments

variable (input : Fragments)

/-- The symbols from a position on that lie before an offset, a number of fragments later:
what is left of each fragment and the slot behind it, and of the last fragment what lies
before the offset. -/
def across : Nat → Position → Nat → List Symbol
  | 0, pos, offset =>
    chars (Text.splitAtBytes (offset - pos.offset) ((input.rest? pos).getD [])).1
  | n + 1, pos, offset =>
    chars ((input.rest? pos).getD []) ++ .slot pos.fragment :: across n pos.nextFragment offset

/-- The symbols between two positions. -/
def between (pos stop : Position) : List Symbol :=
  input.across (stop.fragment - pos.fragment) pos stop.offset

variable {input} {pos stop : Position} {s s' : List Symbol}

theorem isSome_ahead? : (input.ahead? pos).isSome = (input.rest? pos).isSome := by
  simp [ahead?]

/-- Between two positions lies what is ahead of the first one and not of the second. -/
theorem ahead?_eq_across {n : Nat} (hn : stop.fragment = pos.fragment + n) (hle : pos ≤ stop)
    (hpos : input.ahead? pos = some s) (hstop : input.ahead? stop = some s') :
    s = input.across n pos stop.offset ++ s' := by
  have hrest : input.rest? pos = some (lead s) := rest?_of_ahead? hpos
  rcases ahead?_eq_some_iff.1 hpos with ⟨before, after, htext, hoffset, hs⟩
  induction n generalizing pos s before after with
  | zero =>
    rcases ahead?_eq_some_iff.1 hstop with ⟨before', after', htext', hoffset', hs'⟩
    simp only [Nat.add_zero] at hn
    rw [hn] at htext' hs'
    have hoffsets : pos.offset ≤ stop.offset := by
      rw [Position.le_iff, hn] at hle
      omega
    rcases Text.exists_between (Option.some.inj (htext.symm.trans htext')) (by omega) with
      ⟨t, rfl, rfl⟩
    have ht : stop.offset - pos.offset = t.byteLength := by
      rw [Text.byteLength_append] at hoffset'
      omega
    have hlead : lead s = t ++ after' := by
      rw [hs, lead_chars_append, lead_behind, List.append_nil]
    rw [across, hrest, hlead, ht]
    simp [Text.splitAtBytes_byteLength_append, hs, hs']
  | succ n ih =>
    -- past what is left of the fragment lies the slot, and then the next fragment
    have hend : input.ahead? (pos.advance after.byteLength) =
        some (behind pos.fragment (input.texts.drop (pos.fragment + 1))) := by
      apply ahead?_advance
      rw [hpos, hs]
    have hlt : pos.fragment + 1 < input.texts.length := by
      rcases ahead?_eq_some_iff.1 hstop with ⟨before', after', htext', -⟩
      have hlt : stop.fragment < input.texts.length := (List.getElem?_eq_some_iff.1 htext').1
      omega
    rw [List.drop_eq_getElem_cons hlt, behind] at hend
    have hnext := (ahead?_slot hend).2.2
    change input.ahead? pos.nextFragment = _ at hnext
    have hle : pos.nextFragment ≤ stop := by
      rw [Position.le_iff, Position.nextFragment_fragment, Position.nextFragment_offset]
      omega
    have hn : stop.fragment = pos.nextFragment.fragment + n := by
      rw [hn, Position.nextFragment_fragment]
      omega
    rcases ahead?_eq_some_iff.1 hnext with ⟨before₁, after₁, htext₁, hoffset₁, hs₁⟩
    have hlater := ih hn hle hnext (rest?_of_ahead? hnext) before₁ after₁ htext₁ hoffset₁ hs₁
    have hlead : lead s = after := by
      rw [hs, lead_chars_append, lead_behind, List.append_nil]
    rw [across, hrest, hlead, hs, List.drop_eq_getElem_cons hlt, behind, hlater]
    simp

/-- The slots on the way are those of the fragments that are left behind. -/
theorem slotIndices_across (input : Fragments) (n : Nat) (pos : Position) (offset : Nat) :
    slotIndices (input.across n pos offset) = List.range' pos.fragment n := by
  induction n generalizing pos with
  | zero => simp [across]
  | succ n ih => simp [across, ih, List.range'_succ]

/-- Between two slots on the way lies the whole fragment that is between them. -/
theorem cut_across {n k : Nat} (hk : 0 < k) (hlt : k < n) {pos : Position} {t : Text}
    (ht : input.get? (pos.fragment + k) = some t) (offset : Nat) :
    (cut (input.across n pos offset))[k]? = some t := by
  induction n generalizing pos k with
  | zero => omega
  | succ n ih =>
    cases k with
    | zero => omega
    | succ k =>
      rw [across, cut_chars_slot, List.getElem?_cons_succ]
      have hnext : pos.fragment + (k + 1) = pos.nextFragment.fragment + k := by
        rw [Position.nextFragment_fragment]
        omega
      rw [hnext] at ht
      cases k with
      | zero =>
        have hrest : input.rest? pos.nextFragment = some t := by
          simpa [rest?] using ht
        cases n with
        | zero => omega
        | succ n => rw [across, cut_chars_slot, hrest, List.getElem?_cons_zero, Option.getD_some]
      | succ k => exact ih (by omega) (by omega) ht

end Fragments

/-! ## Tokens of a tree -/

namespace Tree

variable (input : Fragments)

mutual

/-- The texts and slots in a tree, from left to right.  The number of the last fragment
stands for the end of the input, and other trees hold no token. -/
def tokens : Tree V α → List Symbol
  | text t => chars t
  | index i => if i < input.slotCount then [.slot i] else []
  | list items => tokensOf items
  | present inner => inner.tokens
  | _ => []

/-- The texts and slots in some trees. -/
def tokensOf : List (Tree V α) → List Symbol
  | [] => []
  | t :: ts => t.tokens ++ tokensOf ts

end

end Tree

/-! ## What matches take from the input -/

/-- Whether the tokens of a match from a position of the input spell what it takes from there, in
order and without a gap. -/
def Spells (input : Fragments) (pos : Position) (tree : Tree V α) (stop : Position) : Prop :=
  ∀ s, input.ahead? pos = some s →
    pos ≤ stop ∧ ∃ s', input.ahead? stop = some s' ∧ s = tree.tokens input ++ s'

section Spells

variable {input : Fragments} {pos mid stop : Position} {tree : Tree V α}

theorem Spells.nothing (h : tree.tokens input = []) : Spells input pos tree pos :=
  fun s hs => ⟨Position.le_refl pos, s, hs, by simp [h]⟩

/-- What two matches take one after the other. -/
theorem Spells.cons {trees : List (Tree V α)} (h : Spells input pos tree mid)
    (h' : Spells input mid (.list trees) stop) : Spells input pos (.list (tree :: trees)) stop := by
  intro s hs
  rcases h s hs with ⟨hle, u, hu, rfl⟩
  rcases h' u hu with ⟨hle', u', hu', rfl⟩
  exact ⟨Position.le_trans hle hle', u', hu', by simp [Tree.tokens, Tree.tokensOf]⟩

/-- A leaf of the library takes from the input what it yields. -/
theorem Leaf.outcome_takes {l : Leaf V α} (hl : (Shape.leaf l : Shape V α Unit).Standard)
    {values : List V} {m : Match V α} (h : l.outcome input values pos = some m) :
    Spells input pos m.tree m.stop := by
  intro s hs
  have hroom := Fragments.hasRoom_of_ahead? hs
  cases l with
  | find pattern =>
    rw [outcome_find] at h
    rcases Option.map_eq_some_iff.1 h with ⟨t, ht, rfl⟩
    rw [Fragments.rest?_of_ahead? hs] at ht
    rcases pattern.matched?_append ht with ⟨rest, hrest⟩
    rcases exists_eq_of_lead hrest with ⟨s', rfl⟩
    exact ⟨pos.le_advance _, s', Fragments.ahead?_advance hs, rfl⟩
  | nextSlot =>
    rw [outcome_nextSlot hroom] at h
    by_cases hslot : input.isSlot pos = true
    · simp only [hslot, if_true, Option.some.injEq] at h
      subst h
      refine ⟨Position.le_of_lt pos.lt_nextFragment, ?_⟩
      rcases slot_or_not s with ⟨i, s', rfl⟩ | hnot
      · rcases Fragments.ahead?_slot hs with ⟨rfl, -, hnext⟩
        have hlt : pos.fragment < input.slotCount := by
          simp only [Fragments.isSlot_eq hroom, Bool.and_eq_true, decide_eq_true_eq] at hslot
          unfold Fragments.slotCount
          omega
        exact ⟨s', hnext, by simp [Tree.tokens, hlt]⟩
      · rw [Fragments.isSlot_eq_false hs hnot] at hslot
        cases hslot
    · simp [hslot] at h
  | inputEnd =>
    by_cases hend : input.isEnd pos = true
    · simp only [outcome, hend, if_true, Option.some.injEq] at h
      subst h
      have hnil := (Fragments.isEnd_iff hs).1 hend
      subst hnil
      exact ⟨Position.le_refl pos, [], hs, by
        simp [Tree.tokens, Fragments.fragment_of_ahead?_nil hs]⟩
    · simp [outcome, hend] at h
  | fail => cases h
  | empty =>
    cases h
    exact Spells.nothing rfl s hs
  | inspect decide => exact hl.elim

end Spells

/-- Whether the tree of a shape is that of what was matched: nothing transforms it, and no
part of it is left out. -/
def Shape.Verbatim {ρ : Type} : Shape V α ρ → Prop
  | .leaf (.inspect _) => False
  | .mapped _ _ => False
  | .separated _ _ => False
  | .catching _ => False
  | .nested _ _ => False
  | .clearing _ _ => False
  | _ => True

/-- Matches take their tokens from the input. -/
def Account.taking (input : Fragments) : Account V α Shape.Verbatim input where
  Spans := Spells input
  Raises _ _ := True
  Reaches _ _ := True
  standard shape h := by
    cases shape with
    | leaf l => cases l <;> first | exact h.elim | trivial
    | _ => first | exact h.elim | trivial
  leaf {l} _ _ _ hl h := Leaf.outcome_takes (by cases l <;> first | exact hl.elim | trivial) h
  mapped _ h := h.elim
  separated h := h.elim
  nil _ := .nothing rfl
  cons := .cons
  absent _ := .nothing rfl
  present h := h
  missed _ _ := trivial
  unresolved _ := trivial
  refl _ := trivial
  trans _ _ := trivial
  reaches _ := trivial
  raises _ _ := trivial

/-- Where nothing transforms its tree, a match spells the input between its ends: the text
that was left of its first fragment, the slot behind it, the fragments and slots that
follow, and the last fragment up to where the match stops.  Every slot on the way is there
once and in order, and between two of them is the text of a whole fragment. -/
theorem Grammar.InUse.exec?_lossless {g : Grammar V α} {hand : List (Recognizer V α)}
    (h : g.InUse Shape.Verbatim hand) {root : Recognizer V α} (hroot : root ∈ hand) {limit : Nat}
    {input : Fragments} {values : List V} {window : ErrorWindow} {pos : Position}
    (hpos : (input.rest? pos).isSome = true) {report : Report V α}
    (hreport : g.exec? limit root input values window pos = some report) {m : Match V α}
    (hmatch : report.ending = .ok (some m)) :
    pos ≤ m.stop ∧ (input.rest? m.stop).isSome = true ∧
    m.tree.tokens input = input.between pos m.stop ∧
    slotIndices (m.tree.tokens input) =
      List.range' pos.fragment (m.stop.fragment - pos.fragment) ∧
    ∀ k t, 0 < k → pos.fragment + k < m.stop.fragment → input.get? (pos.fragment + k) = some t →
      (cut (m.tree.tokens input))[k]? = some t := by
  rcases Option.map_eq_some_iff.1 hreport with ⟨⟨ending, mid⟩, hmid, rfl⟩
  have hadmits := (Account.taking input).admits_inUse h hroot limit values window pos
  have hends := hadmits.ends ending mid hmid
  rw [show ending = .ok (some m) from hmatch] at hends
  have hspells : Spells input pos m.tree m.stop := hends
  rw [← Fragments.isSome_ahead?] at hpos
  rcases Option.isSome_iff_exists.1 hpos with ⟨s, hs⟩
  rcases hspells s hs with ⟨hle, s', hs', hspell⟩
  have hspan : m.stop.fragment = pos.fragment + (m.stop.fragment - pos.fragment) := by
    have hle := Position.le_iff.1 hle
    omega
  have hbetween : m.tree.tokens input = input.between pos m.stop := by
    have hacross := Fragments.ahead?_eq_across hspan hle hs hs'
    rw [hspell] at hacross
    exact List.append_cancel_right hacross
  refine ⟨hle, ?_, hbetween, ?_, ?_⟩
  · rw [← Fragments.isSome_ahead?, hs']
    rfl
  · rw [hbetween]
    exact input.slotIndices_across _ pos _
  · intro k t hk hlt ht
    rw [hbetween]
    exact input.cut_across hk (by omega) ht _

/-! ## An example -/

/-- A letter of two bytes, something that is given up behind a slot, and then slots and other
letters as long as they come. -/
def lettersAndSlots : Recognizer Nat Nat × Grammar Nat Nat :=
  Grammar.build [] (.sequence [.literal ['é'], .optional (.sequence [.nextSlot, .literal ['c']]),
    .repeated (.choice [.nextSlot, .literal ['b']])]) {}

theorem lettersAndSlots_inUse : lettersAndSlots.2.InUse Shape.Verbatim [lettersAndSlots.1] := by
  apply Grammar.InUse.empty.build
  simp [Expr.sequence, Expr.literal, Expr.optional, Expr.nextSlot, Expr.repeated, Expr.choice,
    Shape.outline, Shape.parts, Shape.withParts, Shape.Verbatim]

/-- Three fragments, with slots between. -/
def threeFragments : Fragments := ⟨[['a', 'é'], ['b'], ['b', 'c']]⟩

/-- What is matched from behind the first byte goes over two slots and into the last
fragment. -/
theorem lettersAndSlots_lossless : ∃ report,
    lettersAndSlots.2.exec? 10 lettersAndSlots.1 threeFragments [] {} ⟨0, 1⟩ = some report ∧
    ∃ m : Match Nat Nat, report.ending = .ok (some m) ∧ m.stop = ⟨2, 1⟩ ∧
      m.tree.tokens threeFragments = [.char 'é', .slot 0, .char 'b', .slot 1, .char 'b'] := by
  have hrun : (lettersAndSlots.2.exec? 10 lettersAndSlots.1 threeFragments [] {} ⟨0, 1⟩).any
      (fun report => report.ending = .ok (some ⟨.list [.text ['é'], .absent,
        .list [.index 0, .text ['b'], .index 1, .text ['b']]], ⟨2, 1⟩⟩)) = true := by
    decide +kernel
  rcases (Option.any_eq_true _ _).1 hrun with ⟨report, hreport, hmatch⟩
  have hmatch := of_decide_eq_true hmatch
  have hlossless := lettersAndSlots_inUse.exec?_lossless List.mem_cons_self rfl hreport hmatch
  refine ⟨report, hreport, _, hmatch, rfl, ?_⟩
  rw [hlossless.2.2.1]
  decide

end SlotGrammar
