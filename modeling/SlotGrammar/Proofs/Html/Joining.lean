import SlotGrammar.Proofs.Filling
import SlotGrammar.Proofs.Html.Language
import SlotGrammar.Proofs.Html.Slots

/-!
# Slots of attributes that are filled in

A slot between the quotes of an attribute may be filled in before parsing: the fragments on
both sides are joined with a text between them.  The input is still read, the attribute has the
text as its value, and every later slot has a number less.

Main results:

- Definition `Template.filled`: a template with the slot of an attribute filled in.
- Theorem `Reads.filled`: what is read is read with the slot filled in.
- Theorem `Parser.template?_joinAt`: the template that is found.
-/

namespace SlotGrammar.Html

namespace Template

/-! ## Templates with a slot filled in -/

section Filled

variable (i : Nat) (v : Text)

/-- A tag when a slot elsewhere is gone. -/
def Tag.lowered : Tag → Tag
  | .name w => .name w
  | .slot j => .slot (SlotGrammar.lowered i j)

/-- An attribute with a slot filled in. -/
def Attr.filled : Attr → Attr
  | .static w u => .static w u
  | .boolean w => .boolean w
  | .slot w j => if j = i then .static w v else .slot w (SlotGrammar.lowered i j)
  | .spread j => .spread (SlotGrammar.lowered i j)

mutual

/-- A node with the slot of an attribute filled in. -/
def filledNode : Node → Node
  | .text t => .text t
  | .slot j => .slot (SlotGrammar.lowered i j)
  | .element tag attrs children =>
    .element (tag.lowered i) (attrs.map (Attr.filled i v)) (filledNodes children)

/-- A list of nodes with the slot of an attribute filled in. -/
def filledNodes : List Node → List Node
  | [] => []
  | n :: ns => filledNode n :: filledNodes ns

end

/-- A template with the slot of an attribute filled in: the attribute has the text as its
value, and every later slot has a number less. -/
def filled (t : Template) : Template :=
  ⟨t.tag.lowered i, t.attrs.map (Attr.filled i v), filledNodes i v t.children⟩

end Filled

/-! ## Slots of named attributes -/

mutual

/-- The attributes of a node, in document order. -/
def attrsOfNode : Node → List Attr
  | .text _ => []
  | .slot _ => []
  | .element _ attrs children => attrs ++ attrsOfNodes children

/-- The attributes of a list of nodes. -/
def attrsOfNodes : List Node → List Attr
  | [] => []
  | n :: ns => attrsOfNode n ++ attrsOfNodes ns

end

/-- All attributes of a template, in document order. -/
def allAttrs (t : Template) : List Attr := attrsOfNode t.toNode

/-- The slot that is the value of an attribute. -/
def Attr.valueSlots : Attr → List Nat
  | .slot _ j => [j]
  | _ => []

/-- The slot that stands in place of an attribute. -/
def Attr.spreadSlots : Attr → List Nat
  | .spread j => [j]
  | _ => []

mutual

/-- The slots of a node that are not the values of attributes. -/
def freeSlotsOfNode : Node → List Nat
  | .text _ => []
  | .slot j => [j]
  | .element tag attrs children =>
    tag.slots ++ attrs.flatMap Attr.spreadSlots ++ freeSlotsOfNodes children

/-- The slots of a list of nodes that are not the values of attributes. -/
def freeSlotsOfNodes : List Node → List Nat
  | [] => []
  | n :: ns => freeSlotsOfNode n ++ freeSlotsOfNodes ns

end

/-- The slots of a template that are not the values of attributes. -/
def freeSlots (t : Template) : List Nat := freeSlotsOfNode t.toNode

variable {i : Nat}

theorem count_attrSlots (as : List Attr) : (as.flatMap Attr.slots).count i =
    (as.flatMap Attr.spreadSlots).count i + (as.flatMap Attr.valueSlots).count i := by
  induction as with
  | nil => rfl
  | cons a as ih =>
    cases a <;>
      simp only [List.flatMap_cons, List.count_append, ih, Attr.slots, Attr.spreadSlots,
        Attr.valueSlots, List.count_nil] <;>
      omega

mutual

/-- Every slot of a node is the value of an attribute or is not. -/
theorem count_slotsOfNode (n : Node) : (slotsOfNode n).count i =
    (freeSlotsOfNode n).count i + ((attrsOfNode n).flatMap Attr.valueSlots).count i := by
  cases n with
  | text t => rfl
  | slot j => rfl
  | element tag attrs children =>
    have hattrs := count_attrSlots (i := i) attrs
    have hchildren := count_slotsOfNodes children
    simp only [slotsOfNode, freeSlotsOfNode, attrsOfNode, List.count_append, List.flatMap_append]
    omega

theorem count_slotsOfNodes (ns : List Node) : (slotsOfNodes ns).count i =
    (freeSlotsOfNodes ns).count i + ((attrsOfNodes ns).flatMap Attr.valueSlots).count i := by
  cases ns with
  | nil => rfl
  | cons n ns =>
    have hn := count_slotsOfNode n
    have hns := count_slotsOfNodes ns
    simp only [slotsOfNodes, freeSlotsOfNodes, attrsOfNodes, List.count_append,
      List.flatMap_append]
    omega

end

end Template

open Template

/-! ## What is read with a slot filled in -/

section Reading

variable {i : Nat} {v : Text} {s r : List Symbol}

theorem TagReads.filled {tag : Tag} (h : TagReads tag s r) (hslot : i ∉ tag.slots)
    (hr : NotSlot i r) (v : Text) :
    TagReads (tag.lowered i) (fillSlot i v s) (fillSlot i v r) := by
  cases h with
  | name hw hs =>
    rw [fillSlot_append, fillSlot_chars]
    exact .name hw (hs.fillSlot hr v)
  | @slot j =>
    have hne : j ≠ i := by
      rintro rfl
      simp [Tag.slots] at hslot
    rw [fillSlot_slot hne]
    exact .slot

/-- An attribute is read with the slot between its quotes filled in, or with one elsewhere
gone. -/
theorem AttrReads.filled {a : Attr} (h : AttrReads a s r) (hquotes : BehindQuotes i s)
    (hspread : i ∉ a.spreadSlots) (hr : NotSlot i r) (hv : '"' ∉ v) :
    AttrReads (a.filled i v) (fillSlot i v s) (fillSlot i v r) := by
  cases h with
  | @spread j =>
    have hne : j ≠ i := by
      rintro rfl
      simp [Attr.spreadSlots] at hspread
    rw [fillSlot_slot hne]
    exact .spread
  | @slot w j _ hw =>
    have hne : j ≠ i := by
      rintro rfl
      have hquote := hquotes '=' r (List.suffix_append (chars w) _)
      cases hquote
    rw [fillSlot_append, fillSlot_chars, fillSlot_char, fillSlot_slot hne, Attr.filled, if_neg hne]
    exact .slot hw
  | @quotedSlot w j _ hw =>
    by_cases hj : j = i
    · subst hj
      have hreads := AttrReads.static (s := fillSlot j v r) hw (isToken_quotedText_iff.2 hv)
      simpa [Attr.filled] using hreads
    · rw [fillSlot_append, fillSlot_chars, fillSlot_char, fillSlot_char, fillSlot_slot hj,
        fillSlot_char, Attr.filled, if_neg hj]
      exact .quotedSlot hw
  | static hw ht =>
    have hreads := AttrReads.static (s := fillSlot i v r) hw ht
    simpa [Attr.filled] using hreads
  | boolean hw hs heq =>
    rw [fillSlot_append, fillSlot_chars]
    exact .boolean hw (hs.fillSlot hr v) (heq.fillSlot hr v)

/-- Where no attribute begins, none begins with a slot elsewhere gone. -/
theorem NoAttr.filled (h : NoAttr s) (v : Text) : NoAttr (fillSlot i v s) := by
  have hs : NotSlot i s := fun u => h.2 i u
  refine ⟨h.1.fillSlot hs v, ?_⟩
  cases s with
  | nil => simp
  | cons x s =>
    cases x with
    | char c => simp
    | slot j => exact absurd rfl (h.2 j s)

/-- What attributes are read from does not begin with a slot when what follows them does not,
and it is read with the slot filled in. -/
theorem AttrsReads.filled {as : List Attr} (h : AttrsReads as s r) (hquotes : BehindQuotes i s)
    (hspread : i ∉ as.flatMap Attr.spreadSlots) (hr : NotSlot i r) (hv : '"' ∉ v) :
    NotSlot i s ∧ AttrsReads (as.map (Attr.filled i v)) (fillSlot i v s) (fillSlot i v r) := by
  induction h with
  | @nil s h =>
    refine ⟨hr, .nil fun b u heq hb hu => ?_⟩
    -- the run of white space is the same with the slot filled in
    obtain ⟨b', u', rfl, hb', hu'⟩ := exists_run Text.isBlank s
    rw [fillSlot_append, fillSlot_chars] at heq
    by_cases hempty : b' = []
    · subst hempty
      obtain ⟨rfl, -⟩ := run_unique heq hb' (isToken_whiteSpace_iff.1 hb).2 (hu'.fillSlot hr v) hu
      exact absurd rfl (isToken_whiteSpace_iff.1 hb).1
    · have hno := h b' u' rfl (isToken_whiteSpace_iff.2 ⟨hempty, hb'⟩) hu'
      have hslot : NotSlot i u' := fun u => hno.2 i u
      obtain ⟨-, rfl⟩ := run_unique heq hb' (isToken_whiteSpace_iff.1 hb).2
        (hu'.fillSlot hslot v) hu
      exact hno.filled v
  | @cons a as b u s r hb ha _ ih =>
    rw [List.flatMap_cons, List.mem_append, not_or] at hspread
    obtain ⟨w, -, rfl⟩ := ha.exists_word
    have hinner : BehindQuotes i (w ++ s) := hquotes.of_append
    obtain ⟨hs, has⟩ := ih hinner.of_append hspread.2 hr
    obtain ⟨c, t, rfl, -⟩ := scans_whiteSpace.isToken_iff.1 hb
    refine ⟨notSlot_char c _, ?_⟩
    rw [fillSlot_append, fillSlot_chars, List.map_cons]
    exact .cons hb (ha.filled hinner hspread.1 hs hv) has

theorem OpeningReads.filled {tag : Tag} {as : List Attr} (h : OpeningReads tag as s r)
    (hquotes : BehindQuotes i s) (hslots : i ∉ tag.slots ++ as.flatMap Attr.spreadSlots)
    (hr : NotSlot i r) (hv : '"' ∉ v) :
    OpeningReads (tag.lowered i) (as.map (Attr.filled i v)) (fillSlot i v s) (fillSlot i v r) := by
  cases h with
  | @mk b s u _ htag has hb hstops =>
    rw [List.mem_append, not_or] at hslots
    obtain ⟨w, -, rfl⟩ := htag.exists_word
    have hinner : BehindQuotes i u := BehindQuotes.of_append (x := .char '<' :: w) hquotes
    obtain ⟨hu, hattrs⟩ := has.filled hinner hslots.2 (notSlot_chars hr) hv
    rw [fillSlot_append, fillSlot_chars] at hattrs
    exact .mk (htag.filled hslots.1 hu v) hattrs hb (hstops.fillSlot hr v)

/-- A closing tag is read with a slot gone that stands behind quotes. -/
theorem ClosingReads.filled (h : ClosingReads s r) (hquotes : BehindQuotes i s) (v : Text) :
    ClosingReads (fillSlot i v s) (fillSlot i v r) := by
  cases h with
  | @mk tag b s r htag hb =>
    have hslot : i ∉ tag.slots := by
      cases htag with
      | name => simp [Tag.slots]
      | @slot j =>
        intro hmem
        cases List.mem_singleton.1 hmem
        have hquote := hquotes '/' _ (List.suffix_cons (Symbol.char '<') _)
        cases hquote
    have hreads := htag.filled hslot (notSlot_chars (notSlot_char '>' r)) v
    rw [fillSlot_append, fillSlot_chars] at hreads
    exact .mk hreads hb

/-- The slots of a part that are not the values of attributes. -/
def Part.freeSlots : Part → List Nat
  | .element t => t.freeSlots
  | .children ns => freeSlotsOfNodes ns

/-- A part with the slot of an attribute filled in. -/
def Part.filled (i : Nat) (v : Text) : Part → Part
  | .element t => .element (t.filled i v)
  | .children ns => .children (filledNodes i v ns)

/-- Children begin with no slot that is not one of them. -/
theorem Reads.notSlot {ns : List Node} (h : Reads (.children ns) s r)
    (hfree : i ∉ freeSlotsOfNodes ns) : NotSlot i s := by
  cases h with
  | nil h =>
    rcases h with rfl | ⟨u, rfl⟩
    · intro u heq
      cases heq
    · exact notSlot_char _ _
  | blank hb =>
    obtain ⟨c, t, rfl, -⟩ := scans_whiteSpace.isToken_iff.1 hb
    exact notSlot_char c _
  | text ht =>
    obtain ⟨c, t, rfl, -⟩ := scans_textRun.isToken_iff.1 ht
    exact notSlot_char c _
  | slot =>
    rintro u heq
    cases heq
    simp [freeSlotsOfNodes, freeSlotsOfNode] at hfree
  | element ht =>
    obtain ⟨u, rfl⟩ := ht.exists_bracket
    exact notSlot_char _ _

/-- What is read is read with a slot filled in that stands behind quotes only and for the
values of attributes only. -/
theorem Reads.filled {p : Part} (h : Reads p s r) (hquotes : BehindQuotes i s)
    (hfree : i ∉ p.freeSlots) (hv : '"' ∉ v) :
    Reads (p.filled i v) (fillSlot i v s) (fillSlot i v r) := by
  induction h with
  | selfClosed h =>
    have hslots : i ∉ _ := fun hmem => hfree (List.mem_append_left _ hmem)
    exact .selfClosed (h.filled hquotes hslots (notSlot_char _ _) hv)
  | @closed tag as ns s u v' r h hns hclosing ih =>
    have hslots : i ∉ _ := fun hmem => hfree (List.mem_append_left _ hmem)
    have hchildren : i ∉ freeSlotsOfNodes ns := fun hmem => hfree (List.mem_append_right _ hmem)
    have hopening := h.filled hquotes hslots (notSlot_char _ _) hv
    obtain ⟨w, -, rfl⟩ := h.exists_word
    have hu : BehindQuotes i u := BehindQuotes.of_append (x := [.char '>']) hquotes.of_append
    have hcontent := ih hu hchildren
    obtain ⟨w', -, rfl⟩ := hns.exists_word
    exact .closed hopening hcontent (hclosing.filled hu.of_append v)
  | nil h =>
    refine .nil ?_
    rcases h with rfl | ⟨u, rfl⟩
    · exact .inl rfl
    · exact .inr ⟨_, rfl⟩
  | blank hb hs hns ih =>
    have hstart := hns.notSlot hfree
    rw [fillSlot_append, fillSlot_chars]
    exact .blank hb (hs.fillSlot hstart v) (ih hquotes.of_append hfree)
  | @text t ns s r ht hfirst hs hns ih =>
    have hstart := hns.notSlot hfree
    have hstops := hfirst.fillSlot (notSlot_chars hstart) v
    rw [fillSlot_append, fillSlot_chars] at hstops ⊢
    exact .text ht hstops (hs.fillSlot hstart v) (ih hquotes.of_append hfree)
  | @slot j ns s r hns ih =>
    obtain ⟨hne, hrest⟩ : ¬ i = j ∧ i ∉ freeSlotsOfNodes ns := by
      simpa [Part.freeSlots, freeSlotsOfNodes, freeSlotsOfNode] using hfree
    rw [fillSlot_slot (Ne.symm hne)]
    exact .slot (ih (BehindQuotes.of_append (x := [.slot j]) hquotes) hrest)
  | @element t ns s u r ht hns ih ih' =>
    have helement : i ∉ t.freeSlots := fun hmem => hfree (List.mem_append_left _ hmem)
    have hrest : i ∉ freeSlotsOfNodes ns := fun hmem => hfree (List.mem_append_right _ hmem)
    have hfirst := ih hquotes helement
    obtain ⟨w, -, rfl⟩ := ht.exists_word
    exact .element hfirst (ih' hquotes.of_append hrest)

/-- A whole input is read with such a slot filled in. -/
theorem ReadsDocument.filled {t : Template} (h : ReadsDocument t s) (hquotes : BehindQuotes i s)
    (hfree : i ∉ t.freeSlots) (hv : '"' ∉ v) :
    ReadsDocument (t.filled i v) (fillSlot i v s) := by
  cases h with
  | mk hb ht hb' =>
    have hreads := ht.filled hquotes.of_append hfree hv
    rw [fillSlot_chars] at hreads
    rw [fillSlot_append, fillSlot_chars]
    exact .mk hb hreads hb'

end Reading

/-! ## Parsing -/

namespace Parser

variable {V : Type} {input : Fragments} {values : List V} {options : ParseOptions} {t : Template}
  {stop : Position} {p : Parser V} {i : Nat} {w u v : Text}

/-- A slot that is the value of an attribute in a template that is found stands nowhere else
in it, and has a fragment behind it. -/
theorem count_slots_of_mem [SoundLexicon]
    (h : create.template? input values options = some (.ok (some (t, stop)), p))
    (hattr : .slot w i ∈ t.allAttrs) :
    t.slots.count i = 1 ∧ i ∉ t.freeSlots ∧ i < input.slotCount := by
  have hslots : t.slots = (List.range input.slotCount).filter fun j => !input.closesAt j := by
    rw [(readsDocument_of_template? h).slots_eq, openSlots_symbols]
  have hcount : t.slots.count i =
      t.freeSlots.count i + (t.allAttrs.flatMap Attr.valueSlots).count i :=
    count_slotsOfNode t.toNode
  have hvalue : i ∈ t.allAttrs.flatMap Attr.valueSlots :=
    List.mem_flatMap.2 ⟨_, hattr, List.mem_singleton.2 rfl⟩
  have hpos := List.count_pos_iff.2 hvalue
  have hnodup : t.slots.Nodup := by
    rw [hslots]
    exact List.nodup_range.filter _
  have hone := List.nodup_iff_count_le_one.1 hnodup i
  refine ⟨by omega, List.count_eq_zero.1 (by omega), ?_⟩
  have hmem : i ∈ t.slots := List.count_pos_iff.1 (by omega)
  rw [hslots, List.mem_filter, List.mem_range] at hmem
  exact hmem.1

/-- A slot between the quotes of an attribute can be filled in: the fragments around it joined
with a text without quotes are matched as well, with the text as the value of the attribute and
every later slot lowered by one.  The slot stands nowhere else in the template. -/
theorem template?_joinAt [SoundLexicon]
    (h : create.template? input values options = some (.ok (some (t, stop)), p))
    (hattr : .slot w i ∈ t.allAttrs) (hquote : input.get? i = some (u ++ ['"'])) (hv : '"' ∉ v)
    (values' : List V) (options' : ParseOptions) :
    t.slots.count i = 1 ∧ ∃ stop' p', create.template? (input.joinAt i v) values' options' =
      some (.ok (some (t.filled i v, stop')), p') := by
  obtain ⟨hcount, hfree, hi⟩ := count_slots_of_mem h hattr
  refine ⟨hcount, ?_⟩
  have hreads := (readsDocument_of_template? h).filled (behindQuotes_symbols hquote hi) hfree hv
  rw [← symbols_joinAt hquote hi] at hreads
  exact template?_of_readsDocument hreads values' options'

/-- Of two attributes with slots the first one is filled in. -/
theorem template?_joinAt_first : ∃ stop p,
    create.template? ⟨[['<', 'a', ' ', 'b', '=', '"'], ['"', ' ', 'c', '='], ['/', '>']]⟩
      ([] : List Nat) .standard =
        some (.ok (some (⟨.name ['a'], [.slot ['b'] 0, .slot ['c'] 1], []⟩, stop)), p) ∧
    .slot ['b'] 0 ∈ Template.allAttrs ⟨.name ['a'], [.slot ['b'] 0, .slot ['c'] 1], []⟩ ∧
    '"' ∉ ['x'] ∧
    Template.slots ⟨.name ['a'], [.slot ['b'] 0, .slot ['c'] 1], []⟩ = [0, 1] ∧
    ∃ stop' p',
      create.template?
        ⟨[['<', 'a', ' ', 'b', '=', '"', 'x', '"', ' ', 'c', '='], ['/', '>']]⟩
        ([] : List Nat) .standard =
          some
            (.ok (some (⟨.name ['a'], [.static ['b'] ['x'], .slot ['c'] 0], []⟩, stop')), p') := by
  have htag : IsToken Token.tagName ['a'] := scans_tagName.isToken_singleton rfl
  have hb : IsToken Token.attrName ['b'] := scans_attrName.isToken_singleton rfl
  have hc : IsToken Token.attrName ['c'] := scans_attrName.isToken_singleton rfl
  have hattrs : AttrsReads [.slot ['b'] 0, .slot ['c'] 1]
      [.char ' ', .char 'b', .char '=', .char '"', .slot 0, .char '"', .char ' ', .char 'c',
        .char '=', .slot 1, .char '/', .char '>'] [.char '/', .char '>'] :=
    .cons isToken_space (.quotedSlot hb) (.cons isToken_space (.slot hc)
      (.nil_of_end (b := []) (by simp) (.inl rfl) _))
  have hopening : OpeningReads (.name ['a']) [.slot ['b'] 0, .slot ['c'] 1]
      (Fragments.symbols
        ⟨[['<', 'a', ' ', 'b', '=', '"'], ['"', ' ', 'c', '='], ['/', '>']]⟩)
      [.char '/', .char '>'] :=
    .mk (b := []) (.name htag (stops_char rfl _)) hattrs (by simp) (stops_char (by decide) _)
  have helement : Reads (.element ⟨.name ['a'], [.slot ['b'] 0, .slot ['c'] 1], []⟩) _ (chars []) :=
    .selfClosed hopening
  have hdocument : ReadsDocument ⟨.name ['a'], [.slot ['b'] 0, .slot ['c'] 1], []⟩
      (Fragments.symbols
        ⟨[['<', 'a', ' ', 'b', '=', '"'], ['"', ' ', 'c', '='], ['/', '>']]⟩) :=
    .mk (b := []) (by simp) helement (by simp)
  obtain ⟨stop, p, hfound⟩ := template?_of_readsDocument hdocument ([] : List Nat) .standard
  have hattr : .slot ['b'] 0 ∈
      Template.allAttrs ⟨.name ['a'], [.slot ['b'] 0, .slot ['c'] 1], []⟩ := List.mem_cons_self
  have hv : '"' ∉ ['x'] := by decide
  obtain ⟨-, hjoined⟩ := template?_joinAt (u := ['<', 'a', ' ', 'b', '=']) hfound hattr rfl hv
    ([] : List Nat) .standard
  exact ⟨stop, p, hfound, hattr, hv, rfl, hjoined⟩

end Parser

end SlotGrammar.Html
