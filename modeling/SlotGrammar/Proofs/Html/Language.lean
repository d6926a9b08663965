import Mathlib.Computability.Language
import Mathlib.Order.FixedPoints
import Mathlib.Order.CompletePartialOrder
import SlotGrammar.Proofs.Html.Parsing

/-!
# The language of templates

The grammar of elements as languages of symbols.  Tokens are texts that one of the regular
expressions matches as a whole, a slot is a token of its own, and the elements are the least
language that solves the equation of its rule.  Nothing here says which alternative is tried
first or how far a token goes.

Main results:

- Definition `Words.root`: the language of the grammar.
- Theorem `template?_matches_iff`: a new parser finds a template exactly in the words of the
  language.
-/

namespace SlotGrammar.Html

open Computability
open Template (Tag Attr Node)

/-! ## The grammar -/

namespace Words

/-- The texts that a regular expression matches as a whole. -/
def token (r : Token) : Language Symbol := {s | ∃ w, s = chars w ∧ IsToken r w}

/-- A literal. -/
def literal (w : Text) : Language Symbol := {chars w}

/-- A slot. -/
def slot : Language Symbol := {s | ∃ i, s = [.slot i]}

/-- What may be left out. -/
def optional (l : Language Symbol) : Language Symbol := 1 + l

/-- White space. -/
def ws : Language Symbol := token Token.whiteSpace

/-- The name of a tag, or a slot for it. -/
def tag : Language Symbol := token Token.tagName + slot

/-- One attribute. -/
def attr : Language Symbol :=
  slot
    + token Token.attrName * literal ['='] * (slot + literal ['"'] * slot * literal ['"'])
    + token Token.attrName * literal ['='] *
      (literal ['"'] * token Token.quotedText * literal ['"'])
    + token Token.attrName

/-- Attributes with white space between them. -/
def attrs : Language Symbol := attr * (ws * attr)∗

/-- One child, given the language of elements. -/
def child (elements : Language Symbol) : Language Symbol :=
  ws + slot + token Token.textRun + elements

/-- A closing tag. -/
def closing : Language Symbol := literal ['<', '/'] * tag * optional ws * literal ['>']

/-- One element, given the language of the elements inside of it. -/
def elementOver (elements : Language Symbol) : Language Symbol :=
  literal ['<'] * tag * optional (ws * attrs) * optional ws *
    (literal ['/', '>'] + literal ['>'] * (child elements)∗ * closing)

/-- With more elements inside there are more elements. -/
theorem elementOver_mono : Monotone elementOver := by
  intro l m h
  have hchildren : (child l)∗ ≤ (child m)∗ := kstar_mono (add_le_add_right h _)
  exact mul_le_mul_right (add_le_add_right (mul_le_mul_left (mul_le_mul_right hchildren _) _) _) _

/-- The elements: the least language that solves its equation. -/
def element : Language Symbol := OrderHom.lfp ⟨elementOver, elementOver_mono⟩

/-- The whole input. -/
def root : Language Symbol := optional ws * element * optional ws

/-! ## Membership -/

section Membership

variable {l : Language Symbol} {s : List Symbol}

theorem mem_token {r : Token} : s ∈ token r ↔ ∃ w, s = chars w ∧ IsToken r w := Iff.rfl

theorem mem_literal {w : Text} : s ∈ literal w ↔ s = chars w := Iff.rfl

theorem mem_optional : s ∈ optional l ↔ s = [] ∨ s ∈ l := Iff.rfl

/-- Optional white space is a text of blank code points. -/
theorem mem_optional_ws : s ∈ optional ws ↔ ∃ b, s = chars b ∧ ∀ c ∈ b, Text.isBlank c = true := by
  rw [mem_optional, ws, mem_token]
  simp only [isToken_whiteSpace_iff]
  constructor
  · rintro (rfl | ⟨b, rfl, -, hb⟩)
    · exact ⟨[], rfl, by simp⟩
    · exact ⟨b, rfl, hb⟩
  · rintro ⟨b, rfl, hb⟩
    rcases Decidable.em (b = []) with rfl | hne
    · exact .inl rfl
    · exact .inr ⟨b, rfl, hne, hb⟩

/-- An attribute with a value is a name, an equals sign and what spells the value. -/
theorem mem_named : s ∈ token Token.attrName * literal ['='] * l ↔
    ∃ w v, s = chars w ++ .char '=' :: v ∧ IsToken Token.attrName w ∧ v ∈ l := by
  simp only [Language.mem_mul, mem_token, mem_literal]
  constructor
  · rintro ⟨_, ⟨_, ⟨w, rfl, hw⟩, _, rfl, rfl⟩, v, hv, rfl⟩
    exact ⟨w, v, by simp, hw, hv⟩
  · rintro ⟨w, v, rfl, hw, hv⟩
    exact ⟨_, ⟨_, ⟨w, rfl, hw⟩, _, rfl, rfl⟩, v, hv, by simp⟩

/-- What is quoted stands between two quotes. -/
theorem mem_quoted : s ∈ literal ['"'] * l * literal ['"'] ↔
    ∃ v, s = .char '"' :: (v ++ [.char '"']) ∧ v ∈ l := by
  simp only [Language.mem_mul, mem_literal]
  constructor
  · rintro ⟨_, ⟨_, rfl, v, hv, rfl⟩, _, rfl, rfl⟩
    exact ⟨v, by simp, hv⟩
  · rintro ⟨v, rfl, hv⟩
    exact ⟨_, ⟨_, rfl, v, hv, rfl⟩, _, rfl, by simp⟩

/-- Optional attributes are any number of attributes after white space. -/
theorem optional_attrs : optional (ws * attrs) = (ws * attr)∗ := by
  rw [optional, attrs, ← mul_assoc, Language.one_add_self_mul_kstar_eq_kstar]

/-- White space is a child. -/
theorem blank_mem_child {b : Text} (hb : IsToken Token.whiteSpace b) : chars b ∈ child l :=
  .inl (.inl (.inl ⟨b, rfl, hb⟩))

/-- A slot is a child. -/
theorem slot_mem_child (i : Nat) : [.slot i] ∈ child l := .inl (.inl (.inr ⟨i, rfl⟩))

/-- A run of text is a child. -/
theorem text_mem_child {t : Text} (ht : IsToken Token.textRun t) : chars t ∈ child l :=
  .inl (.inr ⟨t, rfl, ht⟩)

/-- An element is a child. -/
theorem element_mem_child (hs : s ∈ l) : s ∈ child l := .inr hs

end Membership

end Words

/-! ## Words are read -/

section Reading

variable {w s r : List Symbol} {b : Text}

open Words

/-- A word of the language of tags is read as a tag. -/
theorem tag_reads (hw : w ∈ tag) (hr : Stops Char.isAlphanum r) : ∃ t, TagReads t (w ++ r) r := by
  rcases hw with ⟨name, rfl, hname⟩ | ⟨i, rfl⟩
  · exact ⟨_, .name hname hr⟩
  · exact ⟨_, .slot⟩

/-- A word of the language of attributes is read as an attribute. -/
theorem attr_reads (hw : w ∈ attr) (hr : Breaks r) : ∃ a, AttrReads a (w ++ r) r := by
  rcases hw with ((⟨i, rfl⟩ | hslot) | hstatic) | ⟨name, rfl, hname⟩
  · exact ⟨_, .spread⟩
  · obtain ⟨name, v, rfl, hname, hv⟩ := mem_named.1 hslot
    rw [List.append_assoc]
    rcases hv with ⟨i, rfl⟩ | hquoted
    · exact ⟨_, .slot hname⟩
    · obtain ⟨_, rfl, i, rfl⟩ := mem_quoted.1 hquoted
      exact ⟨_, .quotedSlot hname⟩
  · obtain ⟨name, v, rfl, hname, hv⟩ := mem_named.1 hstatic
    obtain ⟨_, rfl, t, rfl, ht⟩ := mem_quoted.1 hv
    refine ⟨.static name t, ?_⟩
    have hreads := AttrReads.static (s := r) hname ht
    simpa using hreads
  · exact ⟨_, .boolean hname hr.stops.1 hr.stops.2⟩

/-- Attributes are read up to the end of their opening tag. -/
theorem attrs_read {c : Char} (hw : w ∈ optional (ws * attrs)) (hb : ∀ c ∈ b, Text.isBlank c = true)
    (hc : c = '/' ∨ c = '>') (s : List Symbol) :
    (∃ as, AttrsReads as (w ++ (chars b ++ .char c :: s)) (chars b ++ .char c :: s)) ∧
      Breaks (w ++ (chars b ++ .char c :: s)) := by
  rw [optional_attrs] at hw
  obtain ⟨words, rfl, hwords⟩ := Language.mem_kstar.1 hw
  clear hw
  induction words with
  | nil =>
    exact ⟨⟨[], .nil_of_end hb hc s⟩, breaks_append hb hc s⟩
  | cons w words ih =>
    obtain ⟨hword, hwords⟩ := List.forall_mem_cons.1 hwords
    obtain ⟨⟨as, has⟩, hbreaks⟩ := ih hwords
    obtain ⟨_, ⟨space, rfl, hspace⟩, word, hattr, rfl⟩ := Language.mem_mul.1 hword
    obtain ⟨a, ha⟩ := attr_reads hattr hbreaks
    rw [List.flatten_cons, List.append_assoc, List.append_assoc]
    refine ⟨⟨a :: as, .cons hspace ha has⟩, ?_⟩
    obtain ⟨d, t, rfl, hd, -⟩ := scans_whiteSpace.isToken_iff.1 hspace
    exact ⟨d, _, rfl, .inl hd⟩

/-- An opening tag is read up to its end. -/
theorem opening_reads {c : Char}
    (hw : w ∈ literal ['<'] * tag * optional (ws * attrs) * optional ws)
    (hc : c = '/' ∨ c = '>') (s : List Symbol) :
    ∃ t as, OpeningReads t as (w ++ .char c :: s) (.char c :: s) := by
  obtain ⟨_, ⟨_, ⟨_, rfl, name, hname, rfl⟩, list, hlist, rfl⟩, space, hspace, rfl⟩ := hw
  obtain ⟨b, rfl, hb⟩ := mem_optional_ws.1 hspace
  obtain ⟨⟨as, has⟩, hbreaks⟩ := attrs_read hlist hb hc s
  obtain ⟨t, ht⟩ := tag_reads hname hbreaks.stops.1
  refine ⟨t, as, ?_⟩
  have hreads := OpeningReads.mk ht has hb (noAttr_of_end hc s).1
  simpa using hreads

/-- A word of the language of closing tags is read as one. -/
theorem closing_reads (hw : w ∈ closing) (s : List Symbol) : ClosingReads (w ++ s) s := by
  obtain ⟨_, ⟨_, ⟨_, rfl, name, hname, rfl⟩, space, hspace, rfl⟩, _, rfl, rfl⟩ := hw
  obtain ⟨b, rfl, hb⟩ := mem_optional_ws.1 hspace
  obtain ⟨t, ht⟩ := tag_reads hname (breaks_append hb (.inr rfl) s).stops.1
  have hreads := ClosingReads.mk ht hb
  simpa using hreads

/-! ## Text in front of children -/

/-- What children are read from begins with a text, or with nothing that belongs to one. -/
theorem Reads.text_or_stops {ns : List Node} (h : Reads (.children ns) s r) :
    (∃ t ns' u, s = chars t ++ u ∧ IsToken Token.textRun t ∧ Stops Text.isBlank (chars t ++ u) ∧
      Stops (· != '<') u ∧ Reads (.children ns') u r) ∨
    (∃ b ns' u, s = chars b ++ u ∧ IsToken Token.whiteSpace b ∧ Stops Text.isBlank u ∧
      Reads (.children ns') u r) ∨
    Stops Text.isBlank s ∧ Stops (· != '<') s := by
  have hbracket : ∀ u, Stops Text.isBlank (.char '<' :: u) ∧ Stops (· != '<') (.char '<' :: u) :=
    fun u => ⟨stops_char (by decide) u, stops_char rfl u⟩
  cases h with
  | text ht hfirst hs hns => exact .inl ⟨_, _, _, rfl, ht, hfirst, hs, hns⟩
  | blank hb hs hns => exact .inr (.inl ⟨_, _, _, rfl, hb, hs, hns⟩)
  | slot => exact .inr (.inr ⟨stops_slot _ _ _, stops_slot _ _ _⟩)
  | nil h =>
    rcases h with rfl | ⟨u, rfl⟩
    · exact .inr (.inr ⟨stops_nil _, stops_nil _⟩)
    · exact .inr (.inr (hbracket _))
  | element ht =>
    obtain ⟨u, rfl⟩ := ht.exists_bracket
    exact .inr (.inr (hbracket _))

/-- A code point that is not blank is read in front of a text. -/
theorem text_reads {c : Char} {t : Text} {ns : List Node} (hc : c ≠ '<')
    (hblank : Text.isBlank c = false) (ht : '<' ∉ t) (hs : Stops (· != '<') s)
    (h : Reads (.children ns) s r) :
    ∃ ns', Reads (.children ns') (.char c :: (chars t ++ s)) r := by
  have htoken : IsToken Token.textRun (c :: t) := by
    refine isToken_textRun_iff.2 ⟨List.cons_ne_nil c t, ?_⟩
    rw [List.mem_cons, not_or]
    exact ⟨hc.symm, ht⟩
  exact ⟨_, .text htoken (stops_char hblank _) hs h⟩

/-- A blank code point is read in front of white space. -/
theorem blank_reads {c : Char} {ns : List Node} (hblank : Text.isBlank c = true)
    (hb : ∀ c ∈ b, Text.isBlank c = true) (hs : Stops Text.isBlank s)
    (h : Reads (.children ns) s r) :
    ∃ ns', Reads (.children ns') (.char c :: (chars b ++ s)) r := by
  have htoken : IsToken Token.whiteSpace (c :: b) :=
    isToken_whiteSpace_iff.2 ⟨List.cons_ne_nil c b, List.forall_mem_cons.2 ⟨hblank, hb⟩⟩
  exact ⟨_, .blank htoken hs h⟩

/-- Children are read with one more code point in front, which may join the text there. -/
theorem char_reads {c : Char} {ns : List Node} (hc : c ≠ '<') (h : Reads (.children ns) s r) :
    ∃ ns', Reads (.children ns') (.char c :: s) r := by
  cases hblank : Text.isBlank c with
  | true =>
    rcases h.text_or_stops with ⟨t, ns', u, rfl, -, hfirst, -⟩ | ⟨b, ns', u, rfl, hb, hu, hns⟩ |
      ⟨hs, -⟩
    · exact blank_reads (b := []) hblank (by simp) hfirst h
    · exact blank_reads hblank (isToken_whiteSpace_iff.1 hb).2 hu hns
    · exact blank_reads (b := []) hblank (by simp) hs h
  | false =>
    rcases h.text_or_stops with ⟨t, ns', u, rfl, ht, -, hu, hns⟩ | ⟨b, ns', u, rfl, hb, hu, hns⟩ |
      ⟨-, hs⟩
    · exact text_reads hc hblank (isToken_textRun_iff.1 ht).2 hu hns
    · have hb := not_mem_of_isToken_whiteSpace hb
      -- The text behind the white space belongs to the same run.
      rcases hns.text_or_stops with ⟨t, ns', v, rfl, ht, -, hv, hns⟩ | ⟨b', ns', v, rfl, hb', -⟩ |
        ⟨-, hs⟩
      · rw [← List.append_assoc, ← chars_append]
        refine text_reads hc hblank ?_ hv hns
        rw [List.mem_append, not_or]
        exact ⟨hb, (isToken_textRun_iff.1 ht).2⟩
      · obtain ⟨d, t, rfl, hd, -⟩ := scans_whiteSpace.isToken_iff.1 hb'
        rw [hu d _ rfl] at hd
        cases hd
      · exact text_reads hc hblank hb hs hns
    · exact text_reads (t := []) hc hblank (by simp) hs h

/-- Children are read with a text in front. -/
theorem chars_read {t : Text} {ns : List Node} (ht : '<' ∉ t) (h : Reads (.children ns) s r) :
    ∃ ns', Reads (.children ns') (chars t ++ s) r := by
  induction t with
  | nil => exact ⟨ns, h⟩
  | cons c t ih =>
    rw [List.mem_cons, not_or] at ht
    obtain ⟨ns', hns⟩ := ih ht.2
    exact char_reads (Ne.symm ht.1) hns

/-! ## Elements -/

/-- The words that are read as an element whatever follows them. -/
def Readable : Language Symbol := {w | ∀ r, ∃ t, Reads (.element t) (w ++ r) r}

/-- Words of the language of children are read as children, up to a closing tag. -/
theorem children_read (hw : w ∈ (child Readable)∗) (s : List Symbol) :
    ∃ ns, Reads (.children ns) (w ++ .char '<' :: .char '/' :: s)
      (.char '<' :: .char '/' :: s) := by
  obtain ⟨words, rfl, hwords⟩ := Language.mem_kstar.1 hw
  clear hw
  induction words with
  | nil => exact ⟨[], .nil (.inr ⟨s, rfl⟩)⟩
  | cons w words ih =>
    obtain ⟨hword, hwords⟩ := List.forall_mem_cons.1 hwords
    obtain ⟨ns, hns⟩ := ih hwords
    rw [List.flatten_cons, List.append_assoc]
    rcases hword with ((⟨b, rfl, hb⟩ | ⟨i, rfl⟩) | ⟨t, rfl, ht⟩) | helement
    · exact chars_read (not_mem_of_isToken_whiteSpace hb) hns
    · exact ⟨_, .slot hns⟩
    · exact chars_read (isToken_textRun_iff.1 ht).2 hns
    · obtain ⟨t, ht⟩ := helement (words.flatten ++ .char '<' :: .char '/' :: s)
      exact ⟨_, .element ht hns⟩

/-- All elements are read. -/
theorem element_le_readable : element ≤ Readable := by
  refine OrderHom.lfp_le _ fun w hw s => ?_
  obtain ⟨opening, hopening, rest, hrest, rfl⟩ := Language.mem_mul.1 hw
  rw [List.append_assoc]
  rcases hrest with rfl | hbody
  · obtain ⟨t, as, hreads⟩ := opening_reads hopening (.inl rfl) (.char '>' :: s)
    exact ⟨⟨t, as, []⟩, .selfClosed hreads⟩
  · obtain ⟨_, hmiddle, close, hclose, rfl⟩ := Language.mem_mul.1 hbody
    obtain ⟨_, rfl, content, hcontent, rfl⟩ := Language.mem_mul.1 hmiddle
    obtain ⟨u, hu⟩ := (closing_reads hclose s).exists_bracket
    obtain ⟨ns, hns⟩ := children_read hcontent u
    rw [← hu] at hns
    obtain ⟨t, as, hreads⟩ := opening_reads hopening (.inr rfl) (content ++ (close ++ s))
    refine ⟨⟨t, as, ns⟩, .closed (u := content ++ (close ++ s)) ?_ hns (closing_reads hclose s)⟩
    simpa using hreads

/-- A word of the language is read as a whole input. -/
theorem root_reads (hw : w ∈ root) : ∃ t, ReadsDocument t w := by
  obtain ⟨_, hfront, after, hafter, rfl⟩ := Language.mem_mul.1 hw
  obtain ⟨before, hbefore, word, hword, rfl⟩ := Language.mem_mul.1 hfront
  obtain ⟨b, rfl, hb⟩ := mem_optional_ws.1 hbefore
  obtain ⟨b', rfl, hb'⟩ := mem_optional_ws.1 hafter
  obtain ⟨t, ht⟩ := element_le_readable hword (chars b')
  rw [List.append_assoc]
  exact ⟨t, .mk hb ht hb'⟩

end Reading

/-! ## What is read is a word -/

section Words

variable {s r : List Symbol}

open Words

/-- What is read as a tag is a word of the language. -/
theorem TagReads.exists_word {t : Tag} (h : TagReads t s r) : ∃ w ∈ tag, s = w ++ r := by
  cases h with
  | name hw _ => exact ⟨_, .inl ⟨_, rfl, hw⟩, rfl⟩
  | slot => exact ⟨[_], .inr ⟨_, rfl⟩, rfl⟩

/-- What is read as an attribute is a word of the language. -/
theorem AttrReads.exists_word {a : Attr} (h : AttrReads a s r) : ∃ w ∈ attr, s = w ++ r := by
  cases h with
  | spread => exact ⟨[_], .inl (.inl (.inl ⟨_, rfl⟩)), rfl⟩
  | @slot w i _ hw =>
    have hvalue : [.slot i] ∈ Words.slot + literal ['"'] * Words.slot * literal ['"'] :=
      .inl ⟨i, rfl⟩
    have hword := mem_named.2 ⟨w, _, rfl, hw, hvalue⟩
    exact ⟨_, .inl (.inl (.inr hword)), by simp⟩
  | @quotedSlot w i _ hw =>
    have hquoted : _ ∈ literal ['"'] * Words.slot * literal ['"'] :=
      mem_quoted.2 ⟨[.slot i], rfl, i, rfl⟩
    have hvalue : _ ∈ Words.slot + literal ['"'] * Words.slot * literal ['"'] := .inr hquoted
    have hword := mem_named.2 ⟨w, _, rfl, hw, hvalue⟩
    exact ⟨_, .inl (.inl (.inr hword)), by simp⟩
  | @static w v _ hw hv =>
    have hvalue : _ ∈ literal ['"'] * token Token.quotedText * literal ['"'] :=
      mem_quoted.2 ⟨chars v, rfl, v, rfl, hv⟩
    have hword := mem_named.2 ⟨w, _, rfl, hw, hvalue⟩
    exact ⟨_, .inl (.inr hword), by simp⟩
  | boolean hw _ _ => exact ⟨_, .inr ⟨_, rfl, hw⟩, rfl⟩

/-- A word in front of a sequence of words. -/
theorem append_mem_kstar {l : Language Symbol} {w ws : List Symbol} (hw : w ∈ l) (hws : ws ∈ l∗) :
    w ++ ws ∈ l∗ := by
  rw [← Language.one_add_self_mul_kstar_eq_kstar]
  exact .inr (Language.append_mem_mul hw hws)

/-- What is read as a list of attributes is a word of the language. -/
theorem AttrsReads.exists_word {as : List Attr} (h : AttrsReads as s r) :
    ∃ w ∈ optional (ws * attrs), s = w ++ r := by
  rw [optional_attrs]
  induction h with
  | nil => exact ⟨[], Language.nil_mem_kstar _, rfl⟩
  | @cons a as b u s r hb ha _ ih =>
    obtain ⟨w, hw, rfl⟩ := ha.exists_word
    obtain ⟨words, hwords, rfl⟩ := ih
    have hspace : chars b ∈ ws := ⟨b, rfl, hb⟩
    exact ⟨_, append_mem_kstar (Language.append_mem_mul hspace hw) hwords, by simp⟩

/-- What is read as an opening tag is a word of the language. -/
theorem OpeningReads.exists_word {t : Tag} {as : List Attr} (h : OpeningReads t as s r) :
    ∃ w ∈ literal ['<'] * tag * optional (ws * attrs) * optional ws, s = w ++ r := by
  cases h with
  | @mk b _ _ _ htag has hb _ =>
    obtain ⟨name, hname, rfl⟩ := htag.exists_word
    obtain ⟨list, hlist, rfl⟩ := has.exists_word
    have hbracket : chars ['<'] ∈ literal ['<'] := rfl
    have hspace : chars b ∈ optional ws := mem_optional_ws.2 ⟨b, rfl, hb⟩
    exact ⟨_, Language.append_mem_mul (Language.append_mem_mul
      (Language.append_mem_mul hbracket hname) hlist) hspace, by simp⟩

/-- What is read as a closing tag is a word of the language. -/
theorem ClosingReads.exists_word (h : ClosingReads s r) : ∃ w ∈ closing, s = w ++ r := by
  cases h with
  | @mk _ b _ _ htag hb =>
    obtain ⟨name, hname, rfl⟩ := htag.exists_word
    have hopen : chars ['<', '/'] ∈ literal ['<', '/'] := rfl
    have hspace : chars b ∈ optional ws := mem_optional_ws.2 ⟨b, rfl, hb⟩
    have hclose : chars ['>'] ∈ literal ['>'] := rfl
    exact ⟨_, Language.append_mem_mul (Language.append_mem_mul
      (Language.append_mem_mul hopen hname) hspace) hclose, by simp⟩

/-- The words that a part is read from. -/
def Part.words : Part → Language Symbol
  | .element _ => Words.element
  | .children _ => (child Words.element)∗

/-- The language of elements solves its equation. -/
theorem mem_element_iff {w : List Symbol} : w ∈ element ↔ w ∈ elementOver element := by
  have heq : elementOver element = element := OrderHom.map_lfp ⟨elementOver, elementOver_mono⟩
  rw [heq]

/-- What is read is a word. -/
theorem Reads.exists_word {p : Part} (h : Reads p s r) : ∃ w ∈ p.words, s = w ++ r := by
  induction h with
  | selfClosed h =>
    obtain ⟨opening, hopening, rfl⟩ := h.exists_word
    have hend : chars ['/', '>'] ∈
        literal ['/', '>'] + literal ['>'] * (child Words.element)∗ * closing :=
      .inl rfl
    exact ⟨_, mem_element_iff.2 (Language.append_mem_mul hopening hend), by simp⟩
  | closed h _ hclosing ih =>
    obtain ⟨opening, hopening, rfl⟩ := h.exists_word
    obtain ⟨close, hclose, rfl⟩ := hclosing.exists_word
    obtain ⟨content, hcontent, rfl⟩ := ih
    have hbracket : chars ['>'] ∈ literal ['>'] := rfl
    have hbody := Language.append_mem_mul (Language.append_mem_mul hbracket hcontent) hclose
    have hend : _ ∈ literal ['/', '>'] + literal ['>'] * (child Words.element)∗ * closing :=
      .inr hbody
    exact ⟨_, mem_element_iff.2 (Language.append_mem_mul hopening hend), by simp⟩
  | nil => exact ⟨[], Language.nil_mem_kstar _, rfl⟩
  | blank hb _ _ ih =>
    obtain ⟨words, hwords, rfl⟩ := ih
    exact ⟨_, append_mem_kstar (blank_mem_child hb) hwords, by simp⟩
  | text ht _ _ _ ih =>
    obtain ⟨words, hwords, rfl⟩ := ih
    exact ⟨_, append_mem_kstar (text_mem_child ht) hwords, by simp⟩
  | @slot i _ _ _ _ ih =>
    obtain ⟨words, hwords, rfl⟩ := ih
    exact ⟨_, append_mem_kstar (slot_mem_child i) hwords, rfl⟩
  | element _ _ ih ih' =>
    obtain ⟨w, hw, rfl⟩ := ih
    obtain ⟨words, hwords, rfl⟩ := ih'
    exact ⟨_, append_mem_kstar (element_mem_child hw) hwords, by simp⟩

/-- An input that is read as a template is a word of the language. -/
theorem ReadsDocument.mem_root {t : Template} (h : ReadsDocument t s) : s ∈ root := by
  cases h with
  | @mk b b' _ hb ht hb' =>
    obtain ⟨w, hw, rfl⟩ := ht.exists_word
    have hbefore : chars b ∈ optional ws := mem_optional_ws.2 ⟨b, rfl, hb⟩
    have hafter : chars b' ∈ optional ws := mem_optional_ws.2 ⟨b', rfl, hb'⟩
    rw [← List.append_assoc]
    exact Language.append_mem_mul (Language.append_mem_mul hbefore hw) hafter

end Words

/-! ## Parsing -/

/-- A new parser comes to an answer on every input, and finds a template exactly in the words
of the language. -/
theorem Parser.template?_matches_iff [SoundLexicon] {V : Type} (input : Fragments) (values : List V)
    (options : ParseOptions) :
    ∃ answer p, Parser.create.template? input values options = some (answer, p) ∧
      ((∃ t stop, answer = .ok (some (t, stop))) ↔ input.symbols ∈ Words.root) := by
  by_cases h : ∃ t, ReadsDocument t input.symbols
  · obtain ⟨t, ht⟩ := h
    obtain ⟨stop, p, hfound⟩ := template?_of_readsDocument ht values options
    exact ⟨_, p, hfound, fun _ => ht.mem_root, fun _ => ⟨t, stop, rfl⟩⟩
  · obtain ⟨answer, p, hfound, hanswer⟩ := template?_of_not_readsDocument h values options
    refine ⟨answer, p, hfound, ?_, fun hroot => absurd (root_reads hroot) h⟩
    rintro ⟨t, stop, heq⟩
    exact absurd heq (hanswer _)

end SlotGrammar.Html
