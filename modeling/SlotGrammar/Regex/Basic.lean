import SlotGrammar.Text.Basic

/-!
# Regular expressions

Regular expressions come from a library of their own.  Of a regular expression there is the
text it was built from, and the match that it prefers at each place of a searched text; of the
library there is what it builds from a text, and what its documentation says of groups and of
the start of the text.  Nothing else is known of either.

Main results:

- Theorem `matchLead?_eq`: the match at the start of a text is the leftmost match, if
  that one starts there.
- Theorem `Engine.Lawful.matchLead?_pinned`: what is built from a pinned text matches at the
  start of a text what is built from the text itself.
- Theorem `Engine.Lawful.upTo`: a library may take no longer texts than it likes.
-/

namespace SlotGrammar

/-- A regular expression: the text it was built from, and the match that it prefers among
those at a place, which may depend on the text before the place and on the text ahead. -/
structure Regex where
  source : Text
  matchAt? : Text → Text → Option Text
  /-- A match is what the text ahead begins with. -/
  matchAt?_append : ∀ {before ahead matched : Text},
    matchAt? before ahead = some matched → ∃ rest, ahead = matched ++ rest

namespace Regex

/-! ## Searching -/

/-- Where a search succeeded: the number of code points before the match, and
the matched text. -/
structure Found where
  start : Nat
  matched : Text
deriving DecidableEq

/-- The leftmost match at or behind a place. -/
def findFrom? (r : Regex) (before : Text) : Text → Option Found
  | [] => (r.matchAt? before []).map fun matched => ⟨before.length, matched⟩
  | c :: rest =>
    match r.matchAt? before (c :: rest) with
    | some matched => some ⟨before.length, matched⟩
    | none => r.findFrom? (before ++ [c]) rest

/-- The leftmost match in a text. -/
def find? (r : Regex) (text : Text) : Option Found := r.findFrom? [] text

/-- The match at the start of a text. -/
def matchLead? (r : Regex) (text : Text) : Option Text := r.matchAt? [] text

/-- What is found from a place does not start before it. -/
theorem findFrom?_start_le {r : Regex} {before text : Text} {found : Found}
    (h : r.findFrom? before text = some found) : before.length ≤ found.start := by
  induction text generalizing before with
  | nil =>
    obtain ⟨matched, -, rfl⟩ := Option.map_eq_some_iff.1 h
    exact Nat.le_refl _
  | cons c rest ih =>
    rw [findFrom?] at h
    split at h
    · cases h
      exact Nat.le_refl _
    · have hle := ih h
      rw [List.length_append] at hle
      exact Nat.le_trans (Nat.le_add_right _ _) hle

/-- The match at the start of a text is the leftmost match, if that one starts there. -/
theorem matchLead?_eq (r : Regex) (text : Text) :
    r.matchLead? text =
      (r.find? text).bind fun found => if found.start = 0 then some found.matched else none := by
  unfold matchLead? find?
  cases text with
  | nil => cases h : r.matchAt? [] [] <;> simp [findFrom?, h]
  | cons c rest =>
    cases h : r.matchAt? [] (c :: rest) with
    | some matched => simp [findFrom?, h]
    | none =>
      cases hrest : r.findFrom? [c] rest with
      | none => simp [findFrom?, h, hrest]
      | some found =>
        have hstart : found.start ≠ 0 := Nat.ne_of_gt (findFrom?_start_le hrest)
        simp [findFrom?, h, hrest, hstart]

/-- What is matched at the start of a text is what the text begins with. -/
theorem matchLead?_append {r : Regex} {text matched : Text} (h : r.matchLead? text = some matched) :
    ∃ rest, text = matched ++ rest :=
  r.matchAt?_append h

/-! ## Building -/

/-- The text for a group around a regular expression, one that captures nothing. -/
def groupSource (source : Text) : Text := ['(', '?', ':'] ++ source ++ [')']

/-- The text for a regular expression that matches only at the start of the searched text. -/
def pinnedSource (source : Text) : Text := ['\\', 'A'] ++ groupSource source

/-- A library of regular expressions: what it builds from a text under no options.  A text that
is not well formed gives nothing, and neither need one that is too long or too deep. -/
structure Engine where
  build? : Text → Option Regex

namespace Engine

/-- The regular expression pinned to the start of the searched text, if that can be built.  It
is built anew from the text alone, whatever options the given one was built under. -/
def pinned? (engine : Engine) (r : Regex) : Option Regex := engine.build? (pinnedSource r.source)

/-- What a library says of the regular expressions that it builds. -/
structure Lawful (engine : Engine) : Prop where
  /-- A regular expression tells the text it was built from. -/
  source_eq : ∀ {source : Text} {r : Regex}, engine.build? source = some r → r.source = source
  /-- A group matches what its inside matches. -/
  group_eq : ∀ {source : Text} {r group : Regex}, engine.build? source = some r →
    engine.build? (groupSource source) = some group → group.matchAt? = r.matchAt?
  /-- The assertion in front of a group holds at the start of the searched text and nowhere
  else, and reads nothing. -/
  pinned_eq : ∀ {source : Text} {r group pinned : Regex}, engine.build? source = some r →
    engine.build? (groupSource source) = some group →
    engine.build? (pinnedSource source) = some pinned → ∀ before ahead,
      pinned.matchAt? before ahead = if before = [] then group.matchAt? before ahead else none
  /-- Where a group can be built behind an assertion, it can be built by itself. -/
  exists_group : ∀ {source : Text} {r pinned : Regex}, engine.build? source = some r →
    engine.build? (pinnedSource source) = some pinned →
    ∃ group, engine.build? (groupSource source) = some group

/-- What is built from a pinned text matches at the start of a text what is built from the text
itself. -/
theorem Lawful.matchLead?_pinned {engine : Engine} (h : engine.Lawful) {r plain pinned : Regex}
    (hplain : engine.build? r.source = some plain) (hpinned : engine.pinned? r = some pinned) :
    pinned.matchLead? = plain.matchLead? := by
  obtain ⟨group, hgroup⟩ := h.exists_group hplain hpinned
  funext text
  calc pinned.matchAt? [] text
      = group.matchAt? [] text := by rw [h.pinned_eq hplain hgroup hpinned, if_pos rfl]
    _ = plain.matchAt? [] text := by rw [h.group_eq hplain hgroup]

/-- The library that takes no longer texts than so many code points. -/
def upTo (engine : Engine) (length : Nat) : Engine :=
  ⟨fun source => if source.length ≤ length then engine.build? source else none⟩

theorem upTo_build?_eq_some_iff {engine : Engine} {length : Nat} {source : Text} {r : Regex} :
    (engine.upTo length).build? source = some r ↔
      source.length ≤ length ∧ engine.build? source = some r := by
  simp [upTo]

/-- What a library says does not change when it takes no longer texts. -/
theorem Lawful.upTo {engine : Engine} (h : engine.Lawful) (length : Nat) :
    (engine.upTo length).Lawful where
  source_eq hr := h.source_eq (upTo_build?_eq_some_iff.1 hr).2
  group_eq hr hgroup :=
    h.group_eq (upTo_build?_eq_some_iff.1 hr).2 (upTo_build?_eq_some_iff.1 hgroup).2
  pinned_eq hr hgroup hpinned :=
    h.pinned_eq (upTo_build?_eq_some_iff.1 hr).2 (upTo_build?_eq_some_iff.1 hgroup).2
      (upTo_build?_eq_some_iff.1 hpinned).2
  exists_group := by
    intro source r pinned hr hpinned
    obtain ⟨hlength, hpinned⟩ := upTo_build?_eq_some_iff.1 hpinned
    obtain ⟨group, hgroup⟩ := h.exists_group (upTo_build?_eq_some_iff.1 hr).2 hpinned
    refine ⟨group, upTo_build?_eq_some_iff.2 ⟨Nat.le_trans ?_ hlength, hgroup⟩⟩
    rw [pinnedSource, List.length_append]
    exact Nat.le_add_left _ _

end Engine

end Regex

end SlotGrammar
