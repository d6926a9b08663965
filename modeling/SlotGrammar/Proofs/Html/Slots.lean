import SlotGrammar.Proofs.Html.Dialect
import SlotGrammar.Proofs.Html.NormalForm
import SlotGrammar.Proofs.Html.Parsing

/-!
# Slots of templates

Every slot of an input that is read as a template stands in the template once, in the order
of the input, but for the slots that stand for the name in a closing tag.  These are the
ones that follow an opening bracket and a slash.

Main results:

- Theorem `Reads.openSlots_eq`: what is read holds the slots that it is read from.
- Theorem `openSlots_symbols`: the slots of closing tags are told by the ends of fragments.
- Theorem `template?_accounts`: a template that is found accounts for all slots and is in
  normal form.
-/

namespace SlotGrammar

/-! ## Slots of symbols -/

/-- The slots in a sequence of symbols, without those that follow an opening bracket and a
slash. -/
def openSlots : List Symbol → List Nat
  | [] => []
  | .slot i :: s => i :: openSlots s
  | .char '<' :: .char '/' :: .slot _ :: s => openSlots s
  | .char _ :: s => openSlots s

variable {s : List Symbol}

/-- A character other than `<` has no say in which slots are open. -/
theorem openSlots_char {c : Char} (h : c ≠ '<') (s : List Symbol) :
    openSlots (.char c :: s) = openSlots s := by
  rw [openSlots]
  intro _ _ _ hc
  exact h hc

/-- A `<` that starts no closing tag of a slot has no say in which slots are open. -/
theorem openSlots_bracket (h : ∀ i u, s ≠ .char '/' :: .slot i :: u) :
    openSlots (.char '<' :: s) = openSlots s := by
  rw [openSlots]
  intro i u heq _
  exact h i u heq

/-- A text without brackets has no part in this. -/
theorem openSlots_chars {w : Text} (h : '<' ∉ w) (s : List Symbol) :
    openSlots (chars w ++ s) = openSlots s := by
  induction w with
  | nil => rfl
  | cons c w ih =>
    rw [List.mem_cons, not_or] at h
    exact (openSlots_char (Ne.symm h.1) _).trans (ih h.2)

/-- Whether a text ends in the beginning of a closing tag. -/
def endsInClosing (t : Text) : Bool := ['<', '/'].isSuffixOf t

/-- A text ends in `</` when it is that, or its rest ends so. -/
theorem endsInClosing_cons (c : Char) (t : Text) :
    endsInClosing (c :: t) = (decide (c :: t = ['<', '/']) || endsInClosing t) := by
  rw [Bool.eq_iff_iff, Bool.or_eq_true, decide_eq_true_eq, endsInClosing, endsInClosing,
    List.isSuffixOf_iff_suffix, List.isSuffixOf_iff_suffix, List.suffix_cons_iff, eq_comm]

/-- A slot behind a text counts when the text does not end in the beginning of a closing
tag. -/
theorem openSlots_chars_slot (t : Text) (i : Nat) (s : List Symbol) :
    openSlots (chars t ++ .slot i :: s) = (if endsInClosing t then [] else [i]) ++ openSlots s := by
  induction t with
  | nil => rfl
  | cons c t ih =>
    by_cases hclosing : c :: t = ['<', '/']
    · cases hclosing
      rfl
    · have hstep : openSlots (.char c :: (chars t ++ .slot i :: s)) =
          openSlots (chars t ++ .slot i :: s) := by
        rcases Decidable.em (c = '<') with rfl | hc
        · refine openSlots_bracket fun j u heq => hclosing ?_
          rcases t with _ | ⟨d, _ | ⟨e, t⟩⟩
          · cases heq
          · cases heq
            rfl
          · cases heq
        · exact openSlots_char hc _
      rw [endsInClosing_cons, decide_eq_false hclosing, Bool.false_or, ← ih]
      exact hstep

/-- A text with brackets has no part in this either, when no slot may follow them. -/
theorem openSlots_append (w : Text) (hslot : ∀ i u, s ≠ .slot i :: u)
    (hslash : ∀ i u, s ≠ .char '/' :: .slot i :: u) : openSlots (chars w ++ s) = openSlots s := by
  induction w with
  | nil => rfl
  | cons c w ih =>
    rw [← ih]
    rcases Decidable.em (c = '<') with rfl | hc
    · refine openSlots_bracket fun i u heq => ?_
      rcases w with _ | ⟨d, _ | ⟨e, w⟩⟩
      · exact hslash i u heq
      · exact hslot i u (List.cons.inj heq).2
      · cases heq
    · exact openSlots_char hc _

/-! ## Slots of fragments -/

/-- Whether a fragment ends in the beginning of a closing tag, so that the slot behind it
stands for the name in it. -/
def Fragments.closesAt (input : Fragments) (i : Nat) : Bool := (input.get? i).any endsInClosing

/-- Behind a text, the open slots are those that follow no `</`. -/
theorem openSlots_behind {input : Fragments} {n : Nat} {t : Text} {ts : List Text}
    (h : input.texts.drop n = t :: ts) :
    openSlots (chars t ++ behind n ts) =
      (List.range' n ts.length).filter fun i => !input.closesAt i := by
  induction ts generalizing n t with
  | nil => exact openSlots_append (s := []) t nofun nofun
  | cons u ts ih =>
    have hnext : input.texts.drop (n + 1) = u :: ts := by
      rw [← List.drop_drop, h]
      rfl
    have htext : input.get? n = some t := by
      rw [Fragments.get?, ← List.head?_drop, h]
      rfl
    have hcloses : input.closesAt n = endsInClosing t := by
      rw [Fragments.closesAt, htext]
      rfl
    rw [behind, openSlots_chars_slot, ih hnext, List.length_cons, List.range'_succ,
      List.filter_cons, hcloses]
    cases endsInClosing t <;> rfl

/-- The slots of an input without those of closing tags. -/
theorem openSlots_symbols (input : Fragments) :
    openSlots input.symbols = (List.range input.slotCount).filter fun i => !input.closesAt i := by
  obtain ⟨texts⟩ := input
  cases texts with
  | nil => rfl
  | cons t ts =>
    have hslots : (Fragments.mk (t :: ts)).slotCount = ts.length := rfl
    rw [hslots, List.range_eq_range']
    exact openSlots_behind rfl

namespace Html

open Template (Tag Attr Node)

variable {s r : List Symbol}

/-! ## Slots of what is read -/

/-- A name has no bracket. -/
theorem not_mem_of_name {r : Token} {first : Char → Bool} {w : Text}
    (h : Scans r first Char.isAlphanum) (hfirst : first '<' = false) (hw : IsToken r w) :
    '<' ∉ w := by
  obtain ⟨c, t, rfl, hc, ht⟩ := h.isToken_iff.1 hw
  rw [List.mem_cons, not_or]
  refine ⟨?_, fun hmem => ?_⟩
  · rintro rfl
    rw [hfirst] at hc
    cases hc
  · cases ht _ hmem

/-- The name of a tag has no slot. -/
theorem openSlots_tagName {w : Text} (hw : IsToken Token.tagName w) (s : List Symbol) :
    openSlots (chars w ++ s) = openSlots s :=
  openSlots_chars (not_mem_of_name scans_tagName rfl hw) s

/-- The name of an attribute has no slot. -/
theorem openSlots_attrName {w : Text} (hw : IsToken Token.attrName w) (s : List Symbol) :
    openSlots (chars w ++ s) = openSlots s :=
  openSlots_chars (not_mem_of_name scans_attrName rfl hw) s

/-- Blank code points are no brackets. -/
theorem openSlots_blanks {b : Text} (hb : ∀ c ∈ b, Text.isBlank c = true) (s : List Symbol) :
    openSlots (chars b ++ s) = openSlots s := by
  refine openSlots_chars (fun hmem => ?_) s
  cases hb _ hmem

/-- The open slots of an opening tag's name are the slots of the tag. -/
theorem TagReads.openSlots_eq {tag : Tag} (h : TagReads tag s r) :
    openSlots (.char '<' :: s) = tag.slots ++ openSlots r := by
  rw [openSlots_bracket fun i u => h.not_slash _]
  cases h with
  | name hw _ => exact openSlots_tagName hw r
  | slot => rfl

/-- A closing tag has no open slot. -/
theorem ClosingReads.openSlots_eq (h : ClosingReads s r) : openSlots s = openSlots r := by
  cases h with
  | @mk tag b s r htag hb =>
    have hrest : openSlots (chars b ++ .char '>' :: r) = openSlots r :=
      (openSlots_blanks hb _).trans (openSlots_char (by decide) r)
    cases htag with
    | slot => exact hrest
    | @name w _ hw _ =>
      rw [openSlots_bracket, openSlots_char (by decide), openSlots_tagName hw, hrest]
      intro i u heq
      exact scans_tagName.ne_slot hw _ i u (List.cons.inj heq).2

/-- The open slots of an attribute are its own. -/
theorem AttrReads.openSlots_eq {a : Attr} (h : AttrReads a s r) :
    openSlots s = a.slots ++ openSlots r := by
  cases h with
  | spread => rfl
  | slot hw =>
    rw [openSlots_attrName hw, openSlots_char (by decide)]
    rfl
  | quotedSlot hw =>
    rw [openSlots_attrName hw, openSlots_char (by decide), openSlots_char (by decide), openSlots,
      openSlots_char (by decide)]
    rfl
  | @static w v _ hw hv =>
    rw [openSlots_attrName hw, openSlots_char (by decide), openSlots_char (by decide),
      openSlots_append v (by simp) (by simp), openSlots_char (by decide)]
    rfl
  | boolean hw _ _ => exact openSlots_attrName hw r

/-- The open slots of attributes are theirs, in order. -/
theorem AttrsReads.openSlots_eq {as : List Attr} (h : AttrsReads as s r) :
    openSlots s = as.flatMap Attr.slots ++ openSlots r := by
  induction h with
  | nil => rfl
  | cons hb ha _ ih =>
    rw [openSlots_blanks (isToken_whiteSpace_iff.1 hb).2, ha.openSlots_eq, ih, List.flatMap_cons,
      List.append_assoc]

/-- The open slots of an opening are those of its tag, then of its attributes. -/
theorem OpeningReads.openSlots_eq {tag : Tag} {as : List Attr} (h : OpeningReads tag as s r) :
    openSlots s = tag.slots ++ as.flatMap Attr.slots ++ openSlots r := by
  cases h with
  | mk htag has hb _ =>
    rw [htag.openSlots_eq, has.openSlots_eq, openSlots_blanks hb, List.append_assoc]

/-- What is read holds the slots that it is read from. -/
theorem Reads.openSlots_eq {p : Part} (h : Reads p s r) : openSlots s = p.slots ++ openSlots r := by
  induction h with
  | selfClosed h =>
    rw [h.openSlots_eq, openSlots_char (by decide), openSlots_char (by decide)]
    simp [Part.slots, Template.slots, Template.toNode, Template.slotsOfNode, Template.slotsOfNodes]
  | closed h _ hclosing ih =>
    rw [h.openSlots_eq, openSlots_char (by decide), ih, hclosing.openSlots_eq]
    simp [Part.slots, Template.slots, Template.toNode, Template.slotsOfNode]
  | nil => rfl
  | blank hb _ _ ih => exact (openSlots_blanks (isToken_whiteSpace_iff.1 hb).2 _).trans ih
  | text ht _ _ _ ih => exact (openSlots_chars (isToken_textRun_iff.1 ht).2 _).trans ih
  | slot _ ih => exact congrArg (_ :: ·) ih
  | element _ _ ih ih' =>
    rw [ih, ih']
    simp [Part.slots, Template.slots, Template.slotsOfNodes]

/-- A template that is read from a whole input holds its slots. -/
theorem ReadsDocument.slots_eq {t : Template} (h : ReadsDocument t s) : t.slots = openSlots s := by
  cases h with
  | @mk b b' s hb ht hb' =>
    have hafter : openSlots (chars b') = [] := by
      rw [← List.append_nil (chars b'), openSlots_blanks hb']
      rfl
    rw [openSlots_blanks hb, ht.openSlots_eq, hafter, List.append_nil]
    rfl

/-- A document that is read has no two texts next to each other. -/
theorem ReadsDocument.normal {t : Template} (h : ReadsDocument t s) : t.Normal := by
  cases h with
  | mk _ ht _ => exact ht.normal

/-! ## Parsing -/

variable {V : Type} {input : Fragments} {values : List V} {options : ParseOptions} {t : Template}
  {stop : Position} {p : Parser V}

/-- A template that a new parser finds is one that the input is read as. -/
theorem Parser.readsDocument_of_template? [SoundLexicon]
    (h : Parser.create.template? input values options = some (.ok (some (t, stop)), p)) :
    ReadsDocument t input.symbols := by
  obtain ⟨ending, hanswers, hanswer⟩ := answers_of_template? h
  cases hanswers with
  | found ht =>
    cases hanswer
    exact ht
  | refused => cases hanswer
  | raised => cases hanswer

/-- A template that a new parser finds holds all slots of the input in their order, but for
those of closing tags, and is in normal form. -/
theorem Parser.template?_accounts [SoundLexicon]
    (h : Parser.create.template? input values options = some (.ok (some (t, stop)), p)) :
    t.slots = ((List.range input.slotCount).filter fun i => !input.closesAt i) ∧ t.Normal := by
  have hreads := readsDocument_of_template? h
  refine ⟨?_, hreads.normal⟩
  rw [hreads.slots_eq, openSlots_symbols]

/-- An element in a slot with an attribute, whose closing tag takes a slot as well. -/
theorem Parser.template?_accounts_slotTag : ∃ stop p,
    Parser.create.template? ⟨[['<'], [' ', 'a', '='], ['>', '<', '/'], ['>']]⟩
      ([] : List Nat) .standard =
        some (.ok (some (⟨.slot 0, [.slot ['a'] 1], []⟩, stop)), p) ∧
      Template.slots ⟨.slot 0, [.slot ['a'] 1], []⟩ = [0, 1] ∧
      Template.Normal ⟨.slot 0, [.slot ['a'] 1], []⟩ := by
  have hname : IsToken Token.attrName ['a'] :=
    scans_attrName.isToken_iff.2 ⟨'a', [], rfl, rfl, by simp⟩
  have hopening : OpeningReads (.slot 0) [.slot ['a'] 1]
      [.char '<', .slot 0, .char ' ', .char 'a', .char '=', .slot 1, .char '>', .char '<',
        .char '/', .slot 2, .char '>']
      [.char '>', .char '<', .char '/', .slot 2, .char '>'] :=
    .mk (b := []) .slot (.cons isToken_space (.slot hname)
      (.nil_of_end (b := []) (by simp) (.inr rfl) _))
      (by simp) (stops_char (by decide) _)
  have hclosing : ClosingReads [.char '<', .char '/', .slot 2, .char '>'] [] :=
    .mk (b := []) .slot (by simp)
  have hreads : Reads (.element ⟨.slot 0, [.slot ['a'] 1], []⟩) _ (chars []) :=
    .closed hopening (.nil (.inr ⟨_, rfl⟩)) hclosing
  have hdocument : ReadsDocument ⟨.slot 0, [.slot ['a'] 1], []⟩
      (Fragments.symbols ⟨[['<'], [' ', 'a', '='], ['>', '<', '/'], ['>']]⟩) :=
    .mk (b := []) (by simp) hreads (by simp)
  obtain ⟨stop, p, hfound⟩ := template?_of_readsDocument (V := Nat) hdocument [] .standard
  obtain ⟨hslots, hnormal⟩ := template?_accounts hfound
  exact ⟨stop, p, hfound, hslots, hnormal⟩

end Html

end SlotGrammar
