import Mathlib.Order.Bounds.Defs
import SlotGrammar.ParseError

/-!
# The text that errors quote

A fatal error quotes the text around its position.  The position may be any at all: inside a code
point, beyond the end of its fragment, or in a fragment that does not exist.  The text is cut at
the greatest boundary between code points that is not beyond the position, and there always is one.

Main results:

- Theorem `isGreatest_splitAtBytes`: the split below a byte offset is at the greatest boundary.
- Definition `Excerpt`: how the texts that an error quotes lie around a byte offset.
- Theorem `unexpectedAt_excerpt`: what an error about a position quotes.
-/

namespace SlotGrammar

namespace Text

/-! ## Boundaries -/

/-- Whether a text can be cut at a byte offset: no code point lies across it, and it is not beyond
the end. -/
def IsBoundary (t : Text) (o : Nat) : Prop := (dropBytes? o t).isSome = true

theorem isBoundary_iff {t : Text} {o : Nat} :
    t.IsBoundary o ↔ ∃ s r, t = s ++ r ∧ byteLength s = o := by
  rw [IsBoundary, Option.isSome_iff_exists]
  constructor
  · rintro ⟨r, h⟩
    rcases dropBytes?_eq_some_iff.1 h with ⟨s, ht, hs⟩
    exact ⟨s, r, ht, hs⟩
  · rintro ⟨s, r, ht, hs⟩
    exact ⟨r, dropBytes?_eq_some_iff.2 ⟨s, ht, hs⟩⟩

theorem IsBoundary.le {t : Text} {o : Nat} (h : t.IsBoundary o) : o ≤ t.byteLength := by
  rcases isBoundary_iff.1 h with ⟨s, r, rfl, rfl⟩
  rw [byteLength_append]
  exact Nat.le_add_right _ _

/-- A beginning of a text that fits into a number of bytes is no longer than the one that is
split off. -/
theorem byteLength_le_splitAtBytes {n : Nat} {s r : Text} (h : byteLength s ≤ n) :
    byteLength s ≤ byteLength (splitAtBytes n (s ++ r)).1 := by
  induction s generalizing n with
  | nil => exact Nat.zero_le _
  | cons c s ih =>
    rw [byteLength_cons] at h
    have hc : c.utf8Size ≤ n := by omega
    have hs : byteLength s ≤ n - c.utf8Size := by omega
    rw [List.cons_append, splitAtBytes, if_pos hc]
    exact Nat.add_le_add_left (ih hs) _

/-- The split below a byte offset is at the greatest boundary that is not above the offset, nor
above the end of the text. -/
theorem isGreatest_splitAtBytes (n : Nat) (t : Text) :
    IsGreatest {o | t.IsBoundary o ∧ o ≤ min n t.byteLength} (byteLength (splitAtBytes n t).1) := by
  constructor
  · have hboundary : t.IsBoundary (byteLength (splitAtBytes n t).1) :=
      isBoundary_iff.2 ⟨_, _, (splitAtBytes_append n t).symm, rfl⟩
    exact ⟨hboundary, Nat.le_min.2 ⟨byteLength_splitAtBytes_le n t, hboundary.le⟩⟩
  · rintro o ⟨hboundary, ho⟩
    rcases isBoundary_iff.1 hboundary with ⟨s, r, rfl, rfl⟩
    exact byteLength_le_splitAtBytes (Nat.le_trans ho (Nat.min_le_left _ _))

end Text

/-! ## Excerpts -/

/-- The text of the fragment with the given number, which is empty when there is none. -/
def Fragments.textOf (input : Fragments) (index : Nat) : Text := (input.get? index).getD []

/-- How three texts are cut from a text around a byte offset.  The first one ends there and the
second one is the code point there; the first and the third are as long as the window says, or as
there is text. -/
structure Excerpt (text : Text) (o : Nat) (window : ErrorWindow) (before found after : Text)
    (front back : Text) : Prop where
  text_eq : text = front ++ before ++ found ++ after ++ back
  offset_eq : (front ++ before).byteLength = o
  before_length : before.length = min window.before (front ++ before).length
  found_length : found.length ≤ 1
  found_eq_nil_iff : found = [] ↔ o = text.byteLength
  after_length : after.length = min window.after (after ++ back).length

namespace ParseError

/-- The last members of a list come behind the others. -/
theorem take_append_lastOf {α : Type} (n : Nat) (items : List α) :
    items.take (items.length - n) ++ lastOf n items = items :=
  List.take_append_drop _ items

theorem length_lastOf {α : Type} (n : Nat) (items : List α) :
    (lastOf n items).length = min n items.length := by
  rw [lastOf, List.length_drop]
  omega

/-- The texts around a place between two texts. -/
theorem excerpt_append (head tail : Text) (window : ErrorWindow) :
    Excerpt (head ++ tail) head.byteLength window (lastOf window.before head) (tail.take 1)
      ((tail.drop 1).take window.after) (head.take (head.length - window.before))
      ((tail.drop 1).drop window.after) := by
  have hhead := take_append_lastOf window.before head
  have hafter := List.take_append_drop window.after (tail.drop 1)
  constructor
  · rw [hhead, List.append_assoc, List.append_assoc, hafter, List.take_append_drop]
  · rw [hhead]
  · rw [hhead, length_lastOf]
  · exact List.length_take_le 1 tail
  · rw [Text.byteLength_append, List.take_eq_nil_iff]
    constructor
    · rintro (hone | rfl)
      · cases hone
      · rfl
    · intro hlength
      exact .inr ((Text.byteLength_eq_zero_iff tail).1 (by omega))
  · rw [hafter, List.length_take]

/-- An error about a position quotes the text of its fragment around the greatest boundary that is
not beyond the position.  Whatever the position is, there is such a boundary, and the text can be
cut there; the error reports the position as given. -/
theorem unexpectedAt_excerpt (input : Fragments) (pos : Position) (window : ErrorWindow) :
    ∃ o before found after front back,
      IsGreatest {b | (input.textOf pos.fragment).IsBoundary b ∧
        b ≤ min pos.offset (input.textOf pos.fragment).byteLength} o ∧
      Excerpt (input.textOf pos.fragment) o window before found after front back ∧
      unexpectedAt input pos window = .unexpectedSymbol pos before found after ∧
      (unexpectedAt input pos window).position? = some pos := by
  let text := input.textOf pos.fragment
  let cut := Text.splitAtBytes pos.offset text
  have hgreatest := Text.isGreatest_splitAtBytes pos.offset text
  have hexcerpt := excerpt_append cut.1 cut.2 window
  rw [Text.splitAtBytes_append] at hexcerpt
  exact ⟨_, _, _, _, _, _, hgreatest, hexcerpt, rfl, unexpectedAt_position input pos window⟩

/-- Inside a code point of two bytes the text is cut in front of it. -/
example : unexpectedAt ⟨[['a', 'b', 'é', 'c', 'd']]⟩ ⟨0, 3⟩ ⟨1, 1⟩ =
    .unexpectedSymbol ⟨0, 3⟩ ['b'] ['é'] ['c'] := by decide

end ParseError

end SlotGrammar
