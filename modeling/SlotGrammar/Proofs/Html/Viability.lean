import SlotGrammar.Proofs.Html.Dialect
import SlotGrammar.Proofs.Html.Language

/-!
# What can still become a template

Where reading stalls, nothing in front is wrong yet: a text completes it to a word of the
grammar.  The text closes whatever is open, from the inside out, so an error is raised as soon
as no template can come about any more.

Main results:

- Definition `Words.begun`: the sequences that a text completes to words of a language.
- Theorem `Stalls.mem_begun`: what is read of an element before reading stalls is begun.
- Theorem `Parser.template?_viable`: what lies in front of an error can become a template.
-/

namespace SlotGrammar.Html

open Computability
open Template (Tag Attr Node)

namespace Words

/-! ## Words that are begun -/

/-- The sequences that a text completes to words of a language. -/
def begun (l : Language Symbol) : Language Symbol := {x | ∃ y, x ++ chars y ∈ l}

variable {l m : Language Symbol} {w x : List Symbol}

/-- A larger language is begun by more. -/
theorem begun_mono (h : l ≤ m) : begun l ≤ begun m := fun _ ⟨y, hy⟩ => ⟨y, h hy⟩

/-- A word in front of one that is begun. -/
theorem append_mem_begun (hw : w ∈ l) (hx : x ∈ begun m) : w ++ x ∈ begun (l * m) := by
  obtain ⟨y, hy⟩ := hx
  exact ⟨y, List.append_assoc w x _ ▸ Language.append_mem_mul hw hy⟩

/-- One that is begun is completed on the way to a longer one. -/
theorem mem_begun_mul {t : Text} (hx : x ∈ begun l) (ht : chars t ∈ m) : x ∈ begun (l * m) := by
  obtain ⟨y, hy⟩ := hx
  refine ⟨y ++ t, ?_⟩
  rw [chars_append, ← List.append_assoc]
  exact Language.append_mem_mul hy ht

/-- What begins with a word goes on with another. -/
theorem mem_begun_of_mem {t : Text} (hw : w ∈ l) (ht : chars t ∈ m) : w ∈ begun (l * m) :=
  ⟨t, Language.append_mem_mul hw ht⟩

/-- An alternative that is begun. -/
theorem mem_begun_add (hx : x ∈ begun m) : x ∈ begun (l + m) := by
  obtain ⟨y, hy⟩ := hx
  exact ⟨y, .inr hy⟩

/-- What begins a word begins a repetition of words. -/
theorem mem_begun_kstar (hx : x ∈ begun l) : x ∈ begun l∗ := begun_mono le_kstar hx

/-- A word, and what begins a repetition, begin a repetition. -/
theorem append_mem_begun_kstar (hw : w ∈ l) (hx : x ∈ begun l∗) : w ++ x ∈ begun l∗ := by
  obtain ⟨y, hy⟩ := hx
  exact ⟨y, List.append_assoc w x _ ▸ append_mem_kstar hw hy⟩

/-! ## Words that complete -/

theorem nil_mem_optional (l : Language Symbol) : [] ∈ optional l := .inl rfl

theorem mem_tag_a : chars ['a'] ∈ tag :=
  .inl ⟨['a'], rfl, scans_tagName.isToken_singleton rfl⟩

theorem mem_closing_a : chars ['<', '/', 'a', '>'] ∈ closing := by
  have hopen : chars ['<', '/'] ∈ literal ['<', '/'] := rfl
  have hclose : chars ['>'] ∈ literal ['>'] := rfl
  have hword := Language.append_mem_mul (Language.append_mem_mul
    (Language.append_mem_mul hopen mem_tag_a) (nil_mem_optional ws)) hclose
  exact hword

end Words

/-! ## What is read before reading stalls -/

open Words

section Attributes

variable {s r : List Symbol}

/-- What is read as an attribute to its end is a word. -/
theorem AttrReads.mem_attr {a : Attr} (h : AttrReads a s []) : s ∈ attr := by
  obtain ⟨w, hw, rfl⟩ := h.exists_word
  rw [List.append_nil]
  exact hw

/-- An attribute in which reading stalls is completed by quotes. -/
theorem AttrStalls.mem_begun (h : AttrStalls s r) : ∃ x ∈ begun attr, s = x ++ r := by
  cases h with
  | @value w _ hw =>
    have hempty : IsToken Token.quotedText [] := isToken_quotedText_iff.2 (by simp)
    have hword := (AttrReads.static hw hempty).mem_attr
    refine ⟨chars w ++ [.char '='], ⟨['"', '"'], ?_⟩, by simp⟩
    simpa using hword
  | @quotedSlot w i _ hw =>
    have hword := (AttrReads.quotedSlot (i := i) hw).mem_attr
    refine ⟨chars w ++ [.char '=', .char '"', .slot i], ⟨['"'], ?_⟩, by simp⟩
    simpa using hword
  | @static w t _ hw ht =>
    have hword := (AttrReads.static hw ht).mem_attr
    refine ⟨chars w ++ .char '=' :: .char '"' :: chars t, ⟨['"'], ?_⟩, by simp⟩
    simpa using hword

/-- Attributes that stall have begun some that could go on. -/
theorem AttrsStall.mem_begun (h : AttrsStall s r) :
    ∃ x ∈ begun (optional (ws * attrs)), s = x ++ r := by
  rw [optional_attrs]
  induction h with
  | @here b _ _ hb h =>
    obtain ⟨x, hx, rfl⟩ := h.mem_begun
    have hspace : chars b ∈ ws := ⟨b, rfl, hb⟩
    exact ⟨_, mem_begun_kstar (append_mem_begun hspace hx), by simp⟩
  | @later _ b _ _ _ hb ha _ ih =>
    obtain ⟨w, hw, rfl⟩ := ha.exists_word
    obtain ⟨x, hx, rfl⟩ := ih
    have hspace : chars b ∈ ws := ⟨b, rfl, hb⟩
    exact ⟨_, append_mem_begun_kstar (Language.append_mem_mul hspace hw) hx, by simp⟩

end Attributes

section Elements

variable {s r : List Symbol}

/-- An opening tag in which reading stalls. -/
theorem OpeningStalls.mem_begun (h : OpeningStalls s r) :
    ∃ x ∈ begun (literal ['<'] * Words.tag * Words.optional (ws * Words.attrs) *
      Words.optional ws), s = x ++ r := by
  have hbracket : chars ['<'] ∈ literal ['<'] := rfl
  cases h with
  | tag =>
    have hword := Language.append_mem_mul (Language.append_mem_mul
      (Language.append_mem_mul hbracket mem_tag_a) (nil_mem_optional (ws * Words.attrs)))
      (nil_mem_optional ws)
    exact ⟨chars ['<'], ⟨['a'], hword⟩, rfl⟩
  | attrs htag h =>
    obtain ⟨name, hname, rfl⟩ := htag.exists_word
    obtain ⟨x, hx, rfl⟩ := h.mem_begun
    have hbegun := append_mem_begun (Language.append_mem_mul hbracket hname) hx
    exact ⟨_, mem_begun_mul (t := []) hbegun (nil_mem_optional ws), by simp⟩

/-- The words that are to be read. -/
def Goal.words : Goal → Language Symbol
  | .element => Words.element
  | .children => (child Words.element)∗

/-- What is read of an element before reading stalls is begun, and likewise for children. -/
theorem Stalls.mem_begun {goal : Goal} (h : Stalls goal s r) :
    ∃ x ∈ begun goal.words, s = x ++ r := by
  have helement : elementOver Words.element ≤ Words.element := fun _ => mem_element_iff.2
  have hself : chars ['/', '>'] ∈
      literal ['/', '>'] + literal ['>'] * (child Words.element)∗ * closing := .inl rfl
  have hbracket : chars ['>'] ∈ literal ['>'] := rfl
  induction h with
  | opening h =>
    obtain ⟨x, hx, rfl⟩ := h.mem_begun
    exact ⟨x, begun_mono helement (mem_begun_mul hx hself), rfl⟩
  | unended h =>
    obtain ⟨w, hw, rfl⟩ := h.exists_word
    exact ⟨w, begun_mono helement (mem_begun_of_mem hw hself), rfl⟩
  | inside h _ ih =>
    obtain ⟨w, hw, rfl⟩ := h.exists_word
    obtain ⟨x, hx, rfl⟩ := ih
    have hbody := mem_begun_mul (append_mem_begun hbracket hx) mem_closing_a
    exact ⟨_, begun_mono helement (append_mem_begun hw (mem_begun_add hbody)), by simp⟩
  | unclosed h hns _ =>
    obtain ⟨w, hw, rfl⟩ := h.exists_word
    obtain ⟨content, hcontent, rfl⟩ := hns.exists_word
    have hbody := mem_begun_of_mem (Language.append_mem_mul hbracket hcontent) mem_closing_a
    exact ⟨_, begun_mono helement (append_mem_begun hw (mem_begun_add hbody)), by simp⟩
  | blank hb _ _ ih =>
    obtain ⟨x, hx, rfl⟩ := ih
    exact ⟨_, append_mem_begun_kstar (blank_mem_child hb) hx, by simp⟩
  | text ht _ _ _ ih =>
    obtain ⟨x, hx, rfl⟩ := ih
    exact ⟨_, append_mem_begun_kstar (text_mem_child ht) hx, by simp⟩
  | @slot i _ _ _ ih =>
    obtain ⟨x, hx, rfl⟩ := ih
    exact ⟨_, append_mem_begun_kstar (slot_mem_child i) hx, rfl⟩
  | here _ ih =>
    obtain ⟨x, hx, rfl⟩ := ih
    exact ⟨x, mem_begun_kstar (mem_begun_add hx), rfl⟩
  | later ht _ ih =>
    obtain ⟨w, hw, rfl⟩ := ht.exists_word
    obtain ⟨x, hx, rfl⟩ := ih
    exact ⟨_, append_mem_begun_kstar (element_mem_child hw) hx, by simp⟩

/-- A whole input is begun where reading it stalls. -/
theorem StallsDocument.mem_begun (h : StallsDocument s r) : ∃ x ∈ begun root, s = x ++ r := by
  cases h with
  | @mk b _ _ hb h =>
    obtain ⟨x, hx, rfl⟩ := h.mem_begun
    have hspace : chars b ∈ optional ws := mem_optional_ws.2 ⟨b, rfl, hb⟩
    have hbegun := append_mem_begun hspace hx
    exact ⟨_, mem_begun_mul (t := []) hbegun (nil_mem_optional ws), by simp⟩

end Elements

/-! ## Errors -/

/-- What lies in front of an error can become a template: a text behind it makes it one, and
no further fragments are needed. -/
theorem Parser.template?_viable [SoundLexicon] {V : Type} {input : Fragments} {values : List V}
    {options : ParseOptions} {pos : Position} {before found after : Text} {p : Parser V}
    (h : Parser.create.template? input values options =
      some (.error (.unexpectedSymbol pos before found after), p)) :
    ∃ head tail text t stop p', input.get? pos.fragment = some (head ++ tail) ∧
      head.byteLength = pos.offset ∧
      Parser.create.template? ⟨input.texts.take pos.fragment ++ [head ++ text]⟩ values options =
        some (.ok (some (t, stop)), p') := by
  obtain ⟨ending, hanswers, hanswer⟩ := answers_of_template? h
  cases hanswers with
  | found => cases hanswer
  | refused => cases hanswer
  | raised hstalls hpos hahead =>
    cases hanswer
    cases hpos
    obtain ⟨x, ⟨text, hword⟩, hx⟩ := hstalls.mem_begun
    obtain ⟨head, tail, x', hget, hoffset, hx', hsymbols⟩ := Fragments.exists_symbols_eq hahead
    have hfront : x = x' := List.append_cancel_right (hx.symm.trans hx')
    subst hfront
    rw [← hsymbols] at hword
    obtain ⟨t, ht⟩ := root_reads hword
    obtain ⟨stop, p', hfound⟩ := template?_of_readsDocument ht values options
    exact ⟨head, tail, text, t, stop, p', hget, hoffset, hfound⟩

/-- The value of an attribute without quotes raises an error, in front of which an element is
begun. -/
theorem Parser.template?_viable_unquoted : ∃ pos before found after p,
    Parser.create.template? ⟨[['<', 'a', ' ', 'b', '=', 'c', '>']]⟩ ([] : List Nat) .standard =
      some (.error (.unexpectedSymbol pos before found after), p) ∧
    ∃ head tail text t stop p', Fragments.get? ⟨[['<', 'a', ' ', 'b', '=', 'c', '>']]⟩
        pos.fragment = some (head ++ tail) ∧
      head.byteLength = pos.offset ∧
      Parser.create.template?
        ⟨List.take pos.fragment [['<', 'a', ' ', 'b', '=', 'c', '>']] ++ [head ++ text]⟩
        ([] : List Nat) .standard = some (.ok (some (t, stop)), p') := by
  have htag : IsToken Token.tagName ['a'] := scans_tagName.isToken_singleton rfl
  have hname : IsToken Token.attrName ['b'] := scans_attrName.isToken_singleton rfl
  have hattr : AttrStalls [.char 'b', .char '=', .char 'c', .char '>'] [.char 'c', .char '>'] :=
    .value hname (by simp) (stops_char rfl _)
  have hopening : OpeningStalls (chars ['<', 'a', ' ', 'b', '=', 'c', '>'])
      [.char 'c', .char '>'] :=
    .attrs (.name htag (stops_char rfl _)) (.here isToken_space hattr)
  have hdocument : StallsDocument
      (Fragments.symbols ⟨[['<', 'a', ' ', 'b', '=', 'c', '>']]⟩) [.char 'c', .char '>'] :=
    .mk (b := []) (by simp) (.opening hopening)
  obtain ⟨e, pos, he, -, hsettles⟩ := settles_of_stallsDocument ([] : List Nat)
    ParseOptions.standard.errorWindow (List.cons_ne_nil _ _) hdocument
  obtain ⟨p, hraised⟩ := hsettles.create_template?
  cases e with
  | unresolved => cases he
  | unexpectedSymbol pos before found after =>
    exact ⟨pos, before, found, after, p, hraised, template?_viable hraised⟩

end SlotGrammar.Html
