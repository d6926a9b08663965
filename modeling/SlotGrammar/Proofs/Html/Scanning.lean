import Mathlib.Data.List.TakeWhile
import SlotGrammar.Html.Rules
import SlotGrammar.Proofs.Readings

/-!
# Scanning tokens

A token of elements begins with one code point of a class and goes on as long as there are
code points of another class.  Only the text between quotes may be empty.

Main results:

- Theorems `Scans.takes`, `Scans.refuses` and `Scans.split`: what a token takes and what
  it refuses, and that it does one or the other.
- Theorem `quotedText_takes`: the text between quotes is taken up to the next quote.
-/

namespace SlotGrammar.Html

/-! ## Whole tokens -/

/-- Whether a text is a token as a whole. -/
def IsToken (t : Token) (w : Text) : Prop := t.run? w = some w

/-- Whether a token begins with one code point of a class and goes on with those of
another. -/
def Scans (t : Token) (first run : Char → Bool) : Prop :=
  ∀ text, t.run? text = Text.leadAndRun? first run text

theorem scans_whiteSpace : Scans Token.whiteSpace Text.isBlank Text.isBlank := fun _ => rfl

theorem scans_textRun : Scans Token.textRun (· != '<') (· != '<') := fun _ => rfl

theorem scans_tagName : Scans Token.tagName Char.isAlpha Char.isAlphanum := fun _ => rfl

theorem scans_attrName : Scans Token.attrName startsAttr Char.isAlphanum := fun _ => rfl

namespace Scans

variable {r : Token} {first run : Char → Bool} {w : Text} {s : List Symbol}

/-- A token is one code point that may come first and any that may follow. -/
theorem isToken_iff (h : Scans r first run) :
    IsToken r w ↔ ∃ c t, w = c :: t ∧ first c = true ∧ ∀ d ∈ t, run d = true := by
  unfold IsToken
  rw [h]
  cases w with
  | nil => simp [Text.leadAndRun?]
  | cons c t => simp [Text.leadAndRun?, List.takeWhile_eq_self_iff]

/-- One code point that a token begins with is a token. -/
theorem isToken_singleton {c : Char} (h : Scans r first run) (hc : first c = true) :
    IsToken r [c] :=
  h.isToken_iff.2 ⟨c, [], rfl, hc, by simp⟩

/-- Such a token is not empty. -/
theorem ne_nil (h : Scans r first run) (hw : IsToken r w) : w ≠ [] := by
  obtain ⟨c, t, rfl, -⟩ := h.isToken_iff.1 hw
  exact List.cons_ne_nil c t

/-- Such a token leaves less to read. -/
theorem length_lt (h : Scans r first run) (hw : IsToken r w) (s : List Symbol) :
    s.length < (chars w ++ s).length := by
  have := List.length_pos_iff.2 (h.ne_nil hw)
  rw [List.length_append, length_chars]
  omega

/-- A token is taken up to where its run stops. -/
theorem takes [SoundLexicon] {V : Type} {sc : Scene V (Piece V)} {limit : Nat}
    (h : Scans r first run) (hw : IsToken r w) (hs : Stops run s) :
    (Rules.token r).Reads sc (limit + 1) (chars w ++ s) (.takes (.text w) s) := by
  refine .find_takes ?_
  obtain ⟨c, t, rfl, hc, ht⟩ := h.isToken_iff.1 hw
  rw [SoundLexicon.matched?_ofRegex, h, List.cons_append, Text.leadAndRun?, if_pos hc,
    takeWhile_lead ht hs]

/-- A token refuses what it does not begin with. -/
theorem refuses [SoundLexicon] {V : Type} {sc : Scene V (Piece V)} {limit : Nat}
    (h : Scans r first run) (hs : Stops first s) :
    (Rules.token r).Reads sc (limit + 1) s .refuses := by
  refine .find_refuses ?_
  rw [SoundLexicon.matched?_ofRegex, h]
  cases s with
  | nil => rfl
  | cons x s =>
    cases x with
    | slot i => rfl
    | char c =>
      rw [lead, Text.leadAndRun?, if_neg]
      rw [hs c s rfl]
      exact Bool.false_ne_true

/-- What is ahead begins with a token or with nothing that a token begins with. -/
theorem split (h : Scans r first run) (s : List Symbol) :
    (∃ w u, s = chars w ++ u ∧ IsToken r w ∧ Stops run u) ∨ Stops first s := by
  cases s with
  | nil => exact .inr (stops_nil first)
  | cons x s =>
    cases x with
    | slot i => exact .inr (stops_slot first i s)
    | char c =>
      cases hc : first c with
      | false => exact .inr (stops_char hc s)
      | true =>
        obtain ⟨t, u, rfl, ht, hu⟩ := exists_run run s
        exact .inl ⟨c :: t, u, rfl, h.isToken_iff.2 ⟨c, t, rfl, hc, ht⟩, hu⟩

/-- A token is no slot. -/
theorem ne_slot (h : Scans r first run) (hw : IsToken r w) (s : List Symbol) (i : Nat)
    (u : List Symbol) : chars w ++ s ≠ .slot i :: u := by
  obtain ⟨c, t, rfl, -⟩ := h.isToken_iff.1 hw
  intro heq
  cases heq

/-- What begins with a token stops every class that the token cannot begin with. -/
theorem stops_append {p : Char → Bool} (h : Scans r first run) (hw : IsToken r w)
    (hp : ∀ c, first c = true → p c = false) (s : List Symbol) : Stops p (chars w ++ s) := by
  obtain ⟨c, t, rfl, hc, -⟩ := h.isToken_iff.1 hw
  exact stops_char (hp c hc) _

end Scans

/-! ## Particular tokens -/

/-- White space is one blank code point or more. -/
theorem isToken_whiteSpace_iff {w : Text} :
    IsToken Token.whiteSpace w ↔ w ≠ [] ∧ ∀ c ∈ w, Text.isBlank c = true := by
  rw [scans_whiteSpace.isToken_iff]
  cases w <;> simp

/-- A space is white space. -/
theorem isToken_space : IsToken Token.whiteSpace [' '] :=
  isToken_whiteSpace_iff.2 ⟨List.cons_ne_nil _ _, List.forall_mem_singleton.2 rfl⟩

/-- A run of text is one code point or more without a bracket. -/
theorem isToken_textRun_iff {w : Text} : IsToken Token.textRun w ↔ w ≠ [] ∧ '<' ∉ w := by
  rw [scans_textRun.isToken_iff]
  cases w with
  | nil => simp
  | cons c t =>
    simp only [List.cons.injEq, bne_iff_ne, ne_eq, List.mem_cons, not_or, reduceCtorEq,
      not_false_eq_true, true_and]
    constructor
    · rintro ⟨_, _, ⟨rfl, rfl⟩, hc, ht⟩
      exact ⟨fun h => hc h.symm, fun h => ht _ h rfl⟩
    · rintro ⟨hc, ht⟩
      exact ⟨c, t, ⟨rfl, rfl⟩, fun h => hc h.symm, fun d hd hlt => ht (hlt ▸ hd)⟩

/-- White space has no opening bracket. -/
theorem not_mem_of_isToken_whiteSpace {b : Text} (hb : IsToken Token.whiteSpace b) : '<' ∉ b := by
  intro hmem
  have hblank := (isToken_whiteSpace_iff.1 hb).2 _ hmem
  cases hblank

/-- Quoted text is any without a quote. -/
theorem isToken_quotedText_iff {w : Text} : IsToken Token.quotedText w ↔ '"' ∉ w := by
  rw [IsToken, Token.run?, Option.some.injEq, List.takeWhile_eq_self_iff]
  constructor
  · intro h hmem
    simpa using h _ hmem
  · intro h c hc
    rw [bne_iff_ne]
    rintro rfl
    exact h hc

/-- The text between quotes is taken up to the next quote. -/
theorem quotedText_takes [SoundLexicon] {V : Type} {sc : Scene V (Piece V)} {limit : Nat} {w : Text}
    {s : List Symbol} (hw : IsToken Token.quotedText w) (hs : Stops (· != '"') s) :
    (Rules.token .quotedText).Reads sc (limit + 1) (chars w ++ s) (.takes (.text w) s) := by
  refine .find_takes ?_
  rw [SoundLexicon.matched?_ofRegex, Token.run?, takeWhile_lead ?_ hs]
  intro c hc
  rw [bne_iff_ne]
  rintro rfl
  exact isToken_quotedText_iff.1 hw hc

/-- What is ahead begins with a text between quotes, which may be empty. -/
theorem exists_quotedText (s : List Symbol) :
    ∃ w u, s = chars w ++ u ∧ IsToken Token.quotedText w ∧ Stops (· != '"') u := by
  obtain ⟨w, u, rfl, hw, hu⟩ := exists_run (· != '"') s
  refine ⟨w, u, rfl, isToken_quotedText_iff.2 fun hmem => ?_, hu⟩
  simpa using hw _ hmem

/-! ## Classes -/

/-- Blank code points lie outside of the visible ones of ASCII. -/
theorem toNat_of_isBlank {c : Char} (h : Text.isBlank c = true) : c.toNat ≤ 32 ∨ 133 ≤ c.toNat := by
  obtain ⟨r, hr, hlo, hhi⟩ := Text.Ranges.contains_iff.1 h
  have hranges : ∀ r ∈ Text.blankRanges, r.2 ≤ 32 ∨ 133 ≤ r.1 := by decide
  have := hranges r hr
  omega

/-- Letters and digits lie between the digit zero and the letter z. -/
theorem toNat_of_isAlphanum {c : Char} (h : c.isAlphanum = true) :
    48 ≤ c.toNat ∧ c.toNat ≤ 122 := by
  have hclass : c.isAlphanum = (c.isAlpha || c.isDigit) := rfl
  rw [hclass, Bool.or_eq_true, Text.isAlpha_iff, Text.isDigit_iff] at h
  omega

/-- What begins a name lies between the digit zero and the letter z. -/
theorem toNat_of_startsAttr {c : Char} (h : startsAttr c = true) :
    48 ≤ c.toNat ∧ c.toNat ≤ 122 := by
  rw [startsAttr, Bool.or_eq_true, beq_iff_eq] at h
  rcases h with h | rfl
  · exact toNat_of_isAlphanum (by rw [Char.isAlphanum, h, Bool.true_or])
  · decide

/-- What begins a name is not blank. -/
theorem isBlank_of_startsAttr {c : Char} (h : startsAttr c = true) : Text.isBlank c = false := by
  rw [Bool.eq_false_iff]
  intro hblank
  have := toNat_of_isBlank hblank
  have := toNat_of_startsAttr h
  omega

/-- What is blank is no letter or digit. -/
theorem isAlphanum_of_isBlank {c : Char} (h : Text.isBlank c = true) : c.isAlphanum = false := by
  rw [Bool.eq_false_iff]
  intro halnum
  have := toNat_of_isBlank h
  have := toNat_of_isAlphanum halnum
  omega

end SlotGrammar.Html
