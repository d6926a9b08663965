import SlotGrammar.Html.Template
import SlotGrammar.Proofs.Html.Scanning

/-!
# Reading elements

How elements are read from symbols: which symbols each part of a template is read from,
and what is left after it.  Every part takes as much as it can, so each rule says which
symbols may not come next.

Main results:

- Definition `Reads`: the rules for elements and for lists of children.
- Definition `ReadsDocument`: the rule for a whole input.
- Theorem `Reads.length_le`: reading never adds symbols.
-/

namespace SlotGrammar.Html

open Template (Tag Attr Node)

/-! ## Tags and attributes -/

/-- How a tag is read. -/
inductive TagReads : Tag → List Symbol → List Symbol → Prop where
  | name {w : Text} {s : List Symbol} (hw : IsToken Token.tagName w)
    (hs : Stops Char.isAlphanum s) :
      TagReads (.name w) (chars w ++ s) s
  | slot {i : Nat} {s : List Symbol} : TagReads (.slot i) (.slot i :: s) s

/-- How an attribute is read. -/
inductive AttrReads : Attr → List Symbol → List Symbol → Prop where
  | spread {i : Nat} {s : List Symbol} : AttrReads (.spread i) (.slot i :: s) s
  | slot {w : Text} {i : Nat} {s : List Symbol} (hw : IsToken Token.attrName w) :
      AttrReads (.slot w i) (chars w ++ .char '=' :: .slot i :: s) s
  | quotedSlot {w : Text} {i : Nat} {s : List Symbol} (hw : IsToken Token.attrName w) :
      AttrReads (.slot w i) (chars w ++ .char '=' :: .char '"' :: .slot i :: .char '"' :: s) s
  | static {w v : Text} {s : List Symbol} (hw : IsToken Token.attrName w)
      (hv : IsToken Token.quotedText v) :
      AttrReads (.static w v) (chars w ++ .char '=' :: .char '"' :: (chars v ++ .char '"' :: s)) s
  | boolean {w : Text} {s : List Symbol} (hw : IsToken Token.attrName w)
      (hs : Stops Char.isAlphanum s) (heq : Stops (· == '=') s) :
      AttrReads (.boolean w) (chars w ++ s) s

/-- Whether no attribute begins with some symbols. -/
def NoAttr (s : List Symbol) : Prop := Stops startsAttr s ∧ ∀ i u, s ≠ .slot i :: u

/-- How attributes are read, each after white space. -/
inductive AttrsReads : List Attr → List Symbol → List Symbol → Prop where
  | nil {s : List Symbol}
      (h : ∀ b u, s = chars b ++ u → IsToken Token.whiteSpace b → Stops Text.isBlank u → NoAttr u) :
      AttrsReads [] s s
  | cons {a : Attr} {as : List Attr} {b : Text} {u s r : List Symbol}
      (hb : IsToken Token.whiteSpace b) (ha : AttrReads a u s) (has : AttrsReads as s r) :
      AttrsReads (a :: as) (chars b ++ u) r

/-! ## Elements -/

/-- How an opening tag is read, up to its bracket. -/
inductive OpeningReads (tag : Tag) (as : List Attr) : List Symbol → List Symbol → Prop where
  | mk {b : Text} {s u r : List Symbol} (htag : TagReads tag s u)
    (has : AttrsReads as u (chars b ++ r))
      (hb : ∀ c ∈ b, Text.isBlank c = true) (hr : Stops Text.isBlank r) :
      OpeningReads tag as (.char '<' :: s) r

/-- How a closing tag is read. -/
inductive ClosingReads : List Symbol → List Symbol → Prop where
  | mk {tag : Tag} {b : Text} {s r : List Symbol}
    (htag : TagReads tag s (chars b ++ .char '>' :: r))
      (hb : ∀ c ∈ b, Text.isBlank c = true) : ClosingReads (.char '<' :: .char '/' :: s) r

/-- Whether no child begins with some symbols. -/
def NoChild (s : List Symbol) : Prop := s = [] ∨ ∃ u, s = .char '<' :: .char '/' :: u

/-- An element, or the children of one. -/
inductive Part where
  | element (t : Template)
  | children (ns : List Node)

/-- How elements and their children are read. -/
inductive Reads : Part → List Symbol → List Symbol → Prop where
  | selfClosed {tag : Tag} {as : List Attr} {s r : List Symbol}
      (h : OpeningReads tag as s (.char '/' :: .char '>' :: r)) : Reads (.element ⟨tag, as, []⟩) s r
  | closed {tag : Tag} {as : List Attr} {ns : List Node} {s u v r : List Symbol}
      (h : OpeningReads tag as s (.char '>' :: u)) (hns : Reads (.children ns) u v)
      (hclosing : ClosingReads v r) : Reads (.element ⟨tag, as, ns⟩) s r
  | nil {s : List Symbol} (h : NoChild s) : Reads (.children []) s s
  | blank {b : Text} {ns : List Node} {s r : List Symbol} (hb : IsToken Token.whiteSpace b)
      (hs : Stops Text.isBlank s) (hns : Reads (.children ns) s r) :
      Reads (.children (.text b :: ns)) (chars b ++ s) r
  | text {t : Text} {ns : List Node} {s r : List Symbol} (ht : IsToken Token.textRun t)
      (hfirst : Stops Text.isBlank (chars t ++ s)) (hs : Stops (· != '<') s)
      (hns : Reads (.children ns) s r) : Reads (.children (.text t :: ns)) (chars t ++ s) r
  | slot {i : Nat} {ns : List Node} {s r : List Symbol} (hns : Reads (.children ns) s r) :
      Reads (.children (.slot i :: ns)) (.slot i :: s) r
  | element {t : Template} {ns : List Node} {s u r : List Symbol} (ht : Reads (.element t) s u)
      (hns : Reads (.children ns) u r) : Reads (.children (t.toNode :: ns)) s r

/-- How a whole input is read: one element, with white space around it. -/
inductive ReadsDocument (t : Template) : List Symbol → Prop where
  | mk {b b' : Text} {s : List Symbol} (hb : ∀ c ∈ b, Text.isBlank c = true)
      (ht : Reads (.element t) s (chars b')) (hb' : ∀ c ∈ b', Text.isBlank c = true) :
      ReadsDocument t (chars b ++ s)

/-! ## Lengths -/

section Lengths

variable {tag : Tag} {a : Attr} {as : List Attr} {p : Part} {s r : List Symbol}

/-- The name of a tag takes something. -/
theorem TagReads.length_lt (h : TagReads tag s r) : r.length < s.length := by
  cases h with
  | name hw _ =>
    have := List.length_pos_iff.2 (scans_tagName.ne_nil hw)
    simp only [List.length_append, length_chars]
    omega
  | slot => exact Nat.lt_succ_self _

/-- An attribute takes something. -/
theorem AttrReads.length_lt (h : AttrReads a s r) : r.length < s.length := by
  cases h with
  | spread => exact Nat.lt_succ_self _
  | boolean hw _ _ =>
    have := List.length_pos_iff.2 (scans_attrName.ne_nil hw)
    simp only [List.length_append, length_chars]
    omega
  | _ =>
    simp only [List.length_append, List.length_cons]
    omega

/-- Attributes give nothing back. -/
theorem AttrsReads.length_le (h : AttrsReads as s r) : r.length ≤ s.length := by
  induction h with
  | nil => exact Nat.le_refl _
  | cons _ ha _ ih =>
    have := ha.length_lt
    rw [List.length_append]
    omega

/-- An opening takes its `<` and the name behind it. -/
theorem OpeningReads.length_lt (h : OpeningReads tag as s r) : r.length + 1 < s.length := by
  cases h with
  | mk htag has _ _ =>
    have := htag.length_lt
    have := has.length_le
    simp only [List.length_append, List.length_cons] at *
    omega

/-- A closing tag takes something. -/
theorem ClosingReads.length_lt (h : ClosingReads s r) : r.length < s.length := by
  cases h with
  | mk htag _ =>
    have := htag.length_lt
    simp only [List.length_append, List.length_cons] at *
    omega

/-- The least number of symbols that a part takes. -/
def Part.least : Part → Nat
  | .element _ => 1
  | .children _ => 0

/-- Reading never adds symbols, and elements take some. -/
theorem Reads.length_le (h : Reads p s r) : r.length + p.least ≤ s.length := by
  induction h with
  | selfClosed h =>
    have := h.length_lt
    simp only [List.length_cons, Part.least] at *
    omega
  | closed h _ hclosing ih =>
    have := h.length_lt
    have := hclosing.length_lt
    simp only [List.length_cons, Part.least] at *
    omega
  | nil => exact Nat.le_refl _
  | blank _ _ _ ih =>
    rw [List.length_append]
    exact Nat.le_trans ih (Nat.le_add_left _ _)
  | text _ _ _ _ ih =>
    rw [List.length_append]
    exact Nat.le_trans ih (Nat.le_add_left _ _)
  | slot _ ih => exact Nat.le_succ_of_le ih
  | element _ _ ih ih' =>
    simp only [Part.least] at *
    omega

end Lengths

/-! ## Beginnings -/

/-- What an element is read from begins with a bracket. -/
theorem Reads.exists_bracket {t : Template} {s r : List Symbol} (h : Reads (.element t) s r) :
    ∃ u, s = .char '<' :: u := by
  cases h with
  | selfClosed h =>
    cases h
    exact ⟨_, rfl⟩
  | closed h =>
    cases h
    exact ⟨_, rfl⟩

/-- A closing tag starts with `</`. -/
theorem ClosingReads.exists_bracket {s r : List Symbol} (h : ClosingReads s r) :
    ∃ u, s = .char '<' :: .char '/' :: u := by
  cases h
  exact ⟨_, rfl⟩

/-- An input that is read as a template is not empty. -/
theorem ReadsDocument.ne_nil {t : Template} {s : List Symbol} (h : ReadsDocument t s) : s ≠ [] := by
  cases h with
  | mk _ ht _ =>
    obtain ⟨u, rfl⟩ := ht.exists_bracket
    exact List.append_ne_nil_of_right_ne_nil _ (List.cons_ne_nil _ _)

/-! ## Ends of opening tags -/

section Ends

variable {s : List Symbol} {b : Text} {c : Char}

/-- Whether some symbols go on with white space or with the end of an opening tag. -/
def Breaks (s : List Symbol) : Prop :=
  ∃ c u, s = .char c :: u ∧ (Text.isBlank c = true ∨ c = '/' ∨ c = '>')

/-- Where a name breaks off, it ends and no value follows. -/
theorem Breaks.stops (h : Breaks s) : Stops Char.isAlphanum s ∧ Stops (· == '=') s := by
  obtain ⟨c, u, rfl, hblank | rfl | rfl⟩ := h
  · refine ⟨stops_char (isAlphanum_of_isBlank hblank) u, stops_char (p := (· == '=')) ?_ u⟩
    rw [beq_eq_false_iff_ne]
    rintro rfl
    cases hblank
  · exact ⟨stops_char rfl u, stops_char rfl u⟩
  · exact ⟨stops_char rfl u, stops_char rfl u⟩

/-- The end of an opening tag is no attribute. -/
theorem noAttr_of_end (hc : c = '/' ∨ c = '>') (s : List Symbol) :
    Stops Text.isBlank (.char c :: s) ∧ NoAttr (.char c :: s) := by
  rcases hc with rfl | rfl
  · exact ⟨stops_char (by decide) s, stops_char rfl s, by simp⟩
  · exact ⟨stops_char (by decide) s, stops_char rfl s, by simp⟩

/-- Blanks in front of a `/` or a `>` break a name off. -/
theorem breaks_append (hb : ∀ c ∈ b, Text.isBlank c = true) (hc : c = '/' ∨ c = '>')
    (s : List Symbol) : Breaks (chars b ++ .char c :: s) := by
  cases b with
  | nil => exact ⟨c, s, rfl, .inr hc⟩
  | cons d b => exact ⟨d, _, rfl, .inl (hb d List.mem_cons_self)⟩

/-- No attributes are read before the end of an opening tag. -/
theorem AttrsReads.nil_of_end (hb : ∀ c ∈ b, Text.isBlank c = true) (hc : c = '/' ∨ c = '>')
    (s : List Symbol) : AttrsReads [] (chars b ++ .char c :: s) (chars b ++ .char c :: s) := by
  refine .nil fun b' u heq hb' hu => ?_
  obtain ⟨-, rfl⟩ := run_unique heq hb (isToken_whiteSpace_iff.1 hb').2 (noAttr_of_end hc s).1 hu
  exact (noAttr_of_end hc s).2

end Ends

end SlotGrammar.Html
