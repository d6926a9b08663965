import SlotGrammar.Proofs.Html.Reading

/-!
# Where reading stalls

Past its opening bracket an element has to be read to its end, and past the equals sign an
attribute to the end of its value.  Reading stalls where something required is missing: in
front of the symbols that are ahead there.  What can neither be read nor stalls begins with
no element.

Main results:

- Definition `Stalls`: the rules for elements and children that are not read to their end.
- Theorems `attr_total` and `attrs_total`: what is not read as attributes stalls.
- Theorems `element_total` and `children_total`: likewise for elements and children.
- Theorem `document_total`: a whole input is read, refused or stalls.
-/

namespace SlotGrammar.Html

open Template (Tag Attr Node)

/-! ## Attributes -/

/-- How reading an attribute stalls, and what is ahead there. -/
inductive AttrStalls : List Symbol → List Symbol → Prop where
  /-- The equals sign is followed by neither a slot nor a quote. -/
  | value {w : Text} {s : List Symbol} (hw : IsToken Token.attrName w)
      (hslot : ∀ i u, s ≠ .slot i :: u) (hquote : Stops (· == '"') s) :
      AttrStalls (chars w ++ .char '=' :: s) s
  /-- A slot behind a quote is followed by no other quote. -/
  | quotedSlot {w : Text} {i : Nat} {s : List Symbol} (hw : IsToken Token.attrName w)
      (hquote : Stops (· == '"') s) :
      AttrStalls (chars w ++ .char '=' :: .char '"' :: .slot i :: s) s
  /-- A text behind a quote is followed by no other quote. -/
  | static {w t : Text} {s : List Symbol} (hw : IsToken Token.attrName w)
      (ht : IsToken Token.quotedText t) (hslot : ∀ i u, chars t ++ s ≠ .slot i :: u)
      (hs : Stops (· != '"') s) (hquote : Stops (· == '"') s) :
      AttrStalls (chars w ++ .char '=' :: .char '"' :: (chars t ++ s)) s

/-- How reading attributes stalls: in one of them. -/
inductive AttrsStall : List Symbol → List Symbol → Prop where
  | here {b : Text} {s r : List Symbol} (hb : IsToken Token.whiteSpace b) (h : AttrStalls s r) :
      AttrsStall (chars b ++ s) r
  | later {a : Attr} {b : Text} {s u r : List Symbol} (hb : IsToken Token.whiteSpace b)
      (ha : AttrReads a s u) (h : AttrsStall u r) : AttrsStall (chars b ++ s) r

/-! ## Elements -/

/-- Whether no tag begins with some symbols. -/
def NoTag (s : List Symbol) : Prop := Stops Char.isAlpha s ∧ ∀ i u, s ≠ .slot i :: u

/-- Whether no element begins with some symbols. -/
def NoElement (s : List Symbol) : Prop :=
  Stops (· == '<') s ∨ ∃ u, s = .char '<' :: .char '/' :: u

/-- How reading an opening tag stalls. -/
inductive OpeningStalls : List Symbol → List Symbol → Prop where
  | tag {s : List Symbol} (hslash : ∀ u, s ≠ .char '/' :: u) (h : NoTag s) :
      OpeningStalls (.char '<' :: s) s
  | attrs {tag : Tag} {s u r : List Symbol} (htag : TagReads tag s u) (h : AttrsStall u r) :
      OpeningStalls (.char '<' :: s) r

/-- What is to be read. -/
inductive Goal where
  | element
  | children

/-- How reading an element or its children stalls. -/
inductive Stalls : Goal → List Symbol → List Symbol → Prop where
  | opening {s r : List Symbol} (h : OpeningStalls s r) : Stalls .element s r
  /-- The opening tag has no end. -/
  | unended {tag : Tag} {as : List Attr} {s r : List Symbol} (h : OpeningReads tag as s r)
      (hself : ∀ u, r ≠ .char '/' :: .char '>' :: u) (hclose : Stops (· == '>') r) :
      Stalls .element s r
  | inside {tag : Tag} {as : List Attr} {s u r : List Symbol}
      (h : OpeningReads tag as s (.char '>' :: u)) (hchildren : Stalls .children u r) :
      Stalls .element s r
  /-- The children are followed by no closing tag. -/
  | unclosed {tag : Tag} {as : List Attr} {ns : List Node} {s u r : List Symbol}
      (h : OpeningReads tag as s (.char '>' :: u)) (hns : Reads (.children ns) u r)
      (hclosing : ¬ ∃ v, ClosingReads r v) : Stalls .element s r
  | blank {b : Text} {s r : List Symbol} (hb : IsToken Token.whiteSpace b)
      (hs : Stops Text.isBlank s) (h : Stalls .children s r) : Stalls .children (chars b ++ s) r
  | text {t : Text} {s r : List Symbol} (ht : IsToken Token.textRun t)
      (hfirst : Stops Text.isBlank (chars t ++ s)) (hs : Stops (· != '<') s)
      (h : Stalls .children s r) : Stalls .children (chars t ++ s) r
  | slot {i : Nat} {s r : List Symbol} (h : Stalls .children s r) :
      Stalls .children (.slot i :: s) r
  | here {s r : List Symbol} (h : Stalls .element s r) : Stalls .children s r
  | later {t : Template} {s u r : List Symbol} (ht : Reads (.element t) s u)
      (h : Stalls .children u r) : Stalls .children s r

/-- How a whole input is refused: it begins with no element, or goes on after one. -/
inductive RefusesDocument : List Symbol → Prop where
  | before {b : Text} {s : List Symbol} (hb : ∀ c ∈ b, Text.isBlank c = true)
      (hs : Stops Text.isBlank s) (h : NoElement s) : RefusesDocument (chars b ++ s)
  | after {t : Template} {b b' : Text} {s r : List Symbol} (hb : ∀ c ∈ b, Text.isBlank c = true)
      (ht : Reads (.element t) s (chars b' ++ r)) (hb' : ∀ c ∈ b', Text.isBlank c = true)
      (hr : Stops Text.isBlank r) (hne : r ≠ []) : RefusesDocument (chars b ++ s)

/-- How reading a whole input stalls: in its element. -/
inductive StallsDocument : List Symbol → List Symbol → Prop where
  | mk {b : Text} {s r : List Symbol} (hb : ∀ c ∈ b, Text.isBlank c = true)
      (h : Stalls .element s r) : StallsDocument (chars b ++ s) r

/-! ## Beginnings -/

section Beginnings

variable {s r : List Symbol}

/-- An attribute that is begun does not begin with white space. -/
theorem AttrStalls.stops_isBlank (h : AttrStalls s r) : Stops Text.isBlank s := by
  cases h with
  | value hw => exact scans_attrName.stops_append hw (fun _ => isBlank_of_startsAttr) _
  | quotedSlot hw => exact scans_attrName.stops_append hw (fun _ => isBlank_of_startsAttr) _
  | static hw => exact scans_attrName.stops_append hw (fun _ => isBlank_of_startsAttr) _

/-- An element that is begun begins with a bracket. -/
theorem Stalls.exists_bracket (h : Stalls .element s r) : ∃ u, s = .char '<' :: u := by
  cases h with
  | opening h =>
    cases h with
    | tag => exact ⟨_, rfl⟩
    | attrs => exact ⟨_, rfl⟩
  | unended h =>
    cases h
    exact ⟨_, rfl⟩
  | inside h =>
    cases h
    exact ⟨_, rfl⟩
  | unclosed h =>
    cases h
    exact ⟨_, rfl⟩

/-- An input in which reading stalls is not empty. -/
theorem StallsDocument.ne_nil (h : StallsDocument s r) : s ≠ [] := by
  cases h with
  | mk _ h =>
    obtain ⟨u, rfl⟩ := h.exists_bracket
    exact List.append_ne_nil_of_right_ne_nil _ (List.cons_ne_nil _ _)

end Beginnings

/-! ## Attributes that are not read -/

/-- What follows the equals sign of an attribute is read as its value, or reading stalls. -/
theorem value_total {w : Text} (hw : IsToken Token.attrName w) (s : List Symbol) :
    (∃ a r, AttrReads a (chars w ++ .char '=' :: s) r) ∨
      ∃ r, AttrStalls (chars w ++ .char '=' :: s) r := by
  rcases slot_or_not s with ⟨i, u, rfl⟩ | hslot
  · exact .inl ⟨_, _, .slot hw⟩
  rcases next_or_stops '"' s with ⟨s, rfl⟩ | hquote
  · rcases slot_or_not s with ⟨i, s, rfl⟩ | hslot
    · rcases next_or_stops '"' s with ⟨s, rfl⟩ | hquote
      · exact .inl ⟨_, _, .quotedSlot hw⟩
      · exact .inr ⟨_, .quotedSlot hw hquote⟩
    · obtain ⟨t, s, rfl, ht, hs⟩ := exists_quotedText s
      rcases next_or_stops '"' s with ⟨s, rfl⟩ | hquote
      · exact .inl ⟨_, _, .static hw ht⟩
      · exact .inr ⟨_, .static hw ht hslot hs hquote⟩
  · exact .inr ⟨_, .value hw hslot hquote⟩

/-- What is ahead is read as an attribute, begins with none, or reading stalls. -/
theorem attr_total (s : List Symbol) :
    (∃ a r, AttrReads a s r) ∨ NoAttr s ∨ ∃ r, AttrStalls s r := by
  rcases slot_or_not s with ⟨i, u, rfl⟩ | hslot
  · exact .inl ⟨_, _, .spread⟩
  rcases scans_attrName.split s with ⟨w, s, rfl, hw, hs⟩ | hname
  · rcases next_or_stops '=' s with ⟨s, rfl⟩ | heq
    · exact (value_total hw s).imp_right .inr
    · exact .inl ⟨_, _, .boolean hw hs heq⟩
  · exact .inr (.inl ⟨hname, hslot⟩)

/-- Attributes are read, or reading stalls in one of them. -/
theorem attrs_total (s : List Symbol) : (∃ as r, AttrsReads as s r) ∨ ∃ r, AttrsStall s r := by
  induction hlength : s.length using Nat.strongRecOn generalizing s with
  | ind k ih =>
    subst hlength
    rcases scans_whiteSpace.split s with ⟨b, u, rfl, hb, hu⟩ | hs
    · rcases attr_total u with ⟨a, r, ha⟩ | hno | ⟨r, hstalls⟩
      · have hlt := Nat.lt_trans ha.length_lt (scans_whiteSpace.length_lt hb u)
        rcases ih _ hlt r rfl with ⟨as, r', has⟩ | ⟨r', hlater⟩
        · exact .inl ⟨_, _, .cons hb ha has⟩
        · exact .inr ⟨r', .later hb ha hlater⟩
      · refine .inl ⟨[], _, .nil fun b' u' heq hb' hu' => ?_⟩
        obtain ⟨-, rfl⟩ := run_unique heq (isToken_whiteSpace_iff.1 hb).2
          (isToken_whiteSpace_iff.1 hb').2 hu hu'
        exact hno
      · exact .inr ⟨r, .here hb hstalls⟩
    · refine .inl ⟨[], _, .nil fun b u heq hb _ => ?_⟩
      obtain ⟨c, t, rfl, hc, -⟩ := scans_whiteSpace.isToken_iff.1 hb
      rw [hs c _ heq] at hc
      cases hc

/-! ## Elements that are not read -/

/-- What is ahead begins with a tag or with nothing that a tag begins with. -/
theorem tag_split (s : List Symbol) : (∃ tag r, TagReads tag s r) ∨ NoTag s := by
  rcases slot_or_not s with ⟨i, u, rfl⟩ | hslot
  · exact .inl ⟨_, _, .slot⟩
  rcases scans_tagName.split s with ⟨w, u, rfl, hw, hu⟩ | hname
  · exact .inl ⟨_, _, .name hw hu⟩
  · exact .inr ⟨hname, hslot⟩

/-- What is ahead is read as an opening tag, begins with no element, or reading stalls. -/
theorem opening_total (s : List Symbol) :
    (∃ tag as r, OpeningReads tag as s r) ∨ NoElement s ∨ ∃ r, OpeningStalls s r := by
  rcases next_or_stops '<' s with ⟨s, rfl⟩ | hopen
  · rcases next_or_stops '/' s with ⟨s, rfl⟩ | hslash
    · exact .inr (.inl (.inr ⟨s, rfl⟩))
    rcases tag_split s with ⟨tag, u, htag⟩ | hno
    · rcases attrs_total u with ⟨as, r, has⟩ | ⟨r, hstalls⟩
      · obtain ⟨b, r, rfl, hb, hr⟩ := exists_run Text.isBlank r
        exact .inl ⟨tag, as, r, .mk htag has hb hr⟩
      · exact .inr (.inr ⟨r, .attrs htag hstalls⟩)
    · exact .inr (.inr ⟨s, .tag (fun u heq => by simpa using hslash _ _ heq) hno⟩)
  · exact .inr (.inl (.inl hopen))

/-- Whether children are read or reading them stalls. -/
def ChildrenTotal (s : List Symbol) : Prop :=
  (∃ ns r, Reads (.children ns) s r) ∨ ∃ r, Stalls .children s r

/-- Whether an element is read, none begins there, or reading it stalls. -/
def ElementTotal (s : List Symbol) : Prop :=
  (∃ t r, Reads (.element t) s r) ∨ NoElement s ∨ ∃ r, Stalls .element s r

variable {s : List Symbol}

theorem element_total_of_children (h : ∀ u : List Symbol, u.length < s.length → ChildrenTotal u) :
    ElementTotal s := by
  rcases opening_total s with ⟨tag, as, u, hopening⟩ | hno | ⟨r, hstalls⟩
  · have hlt := hopening.length_lt
    by_cases hself : ∃ r, u = .char '/' :: .char '>' :: r
    · obtain ⟨r, rfl⟩ := hself
      exact .inl ⟨_, _, .selfClosed hopening⟩
    rcases next_or_stops '>' u with ⟨u, rfl⟩ | hclose
    · rw [List.length_cons] at hlt
      rcases h u (by omega) with ⟨ns, v, hns⟩ | ⟨r, hstalls⟩
      · by_cases hclosing : ∃ r, ClosingReads v r
        · obtain ⟨r, hclosing⟩ := hclosing
          exact .inl ⟨_, _, .closed hopening hns hclosing⟩
        · exact .inr (.inr ⟨v, .unclosed hopening hns hclosing⟩)
      · exact .inr (.inr ⟨r, .inside hopening hstalls⟩)
    · exact .inr (.inr ⟨u, .unended hopening (fun r heq => hself ⟨r, heq⟩) hclose⟩)
  · exact .inr (.inl hno)
  · exact .inr (.inr ⟨r, .opening hstalls⟩)

theorem children_total_of_shorter (h : ∀ u : List Symbol, u.length < s.length → ChildrenTotal u) :
    ChildrenTotal s := by
  rcases slot_or_not s with ⟨i, u, rfl⟩ | hslot
  · rcases h u (Nat.lt_succ_self _) with ⟨ns, r, hns⟩ | ⟨r, hstalls⟩
    · exact .inl ⟨_, _, .slot hns⟩
    · exact .inr ⟨r, .slot hstalls⟩
  rcases scans_whiteSpace.split s with ⟨b, u, rfl, hb, hu⟩ | hblank
  · rcases h u (scans_whiteSpace.length_lt hb u) with ⟨ns, r, hns⟩ | ⟨r, hstalls⟩
    · exact .inl ⟨_, _, .blank hb hu hns⟩
    · exact .inr ⟨r, .blank hb hu hstalls⟩
  rcases scans_textRun.split s with ⟨t, u, rfl, ht, hu⟩ | htext
  · rcases h u (scans_textRun.length_lt ht u) with ⟨ns, r, hns⟩ | ⟨r, hstalls⟩
    · exact .inl ⟨_, _, .text ht hblank hu hns⟩
    · exact .inr ⟨r, .text ht hblank hu hstalls⟩
  rcases element_total_of_children h with ⟨t, u, ht⟩ | hno | ⟨r, hstalls⟩
  · rcases h u ht.length_le with ⟨ns, r, hns⟩ | ⟨r, hstalls⟩
    · exact .inl ⟨_, _, .element ht hns⟩
    · exact .inr ⟨r, .later ht hstalls⟩
  · refine .inl ⟨[], s, .nil ?_⟩
    rcases hno with hopen | hclosing
    · exact .inl (eq_nil_of_stops hslot hopen htext)
    · exact .inr hclosing
  · exact .inr ⟨r, .here hstalls⟩

/-- Children are read, or reading them stalls. -/
theorem children_total (s : List Symbol) : ChildrenTotal s := by
  induction hlength : s.length using Nat.strongRecOn generalizing s with
  | ind k ih =>
    subst hlength
    exact children_total_of_shorter fun u hu => ih _ hu u rfl

/-- An element is read, none begins there, or reading it stalls. -/
theorem element_total (s : List Symbol) : ElementTotal s :=
  element_total_of_children fun u _ => children_total u

/-- A whole input is read, refused or stalls. -/
theorem document_total (s : List Symbol) :
    (∃ t, ReadsDocument t s) ∨ RefusesDocument s ∨ ∃ r, StallsDocument s r := by
  obtain ⟨b, s, rfl, hb, hs⟩ := exists_run Text.isBlank s
  rcases element_total s with ⟨t, r, ht⟩ | hno | ⟨r, hstalls⟩
  · obtain ⟨b', r, rfl, hb', hr⟩ := exists_run Text.isBlank r
    by_cases hne : r = []
    · subst hne
      rw [List.append_nil] at ht
      exact .inl ⟨t, .mk hb ht hb'⟩
    · exact .inr (.inl (.after hb ht hb' hr hne))
  · exact .inr (.inl (.before hb hs hno))
  · exact .inr (.inr ⟨r, .mk hb hstalls⟩)

end SlotGrammar.Html
