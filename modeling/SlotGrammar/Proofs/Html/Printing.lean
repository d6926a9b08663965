import SlotGrammar.Proofs.Html.Dialect
import SlotGrammar.Proofs.Html.NormalForm
import SlotGrammar.Proofs.Html.Parsing

/-!
# Printing templates

A template is printed with any white space where the grammar allows it, with slots as values
bare or between quotes, with childless elements closed either way and with any names in the
closing tags.  A new parser gives the template back, whatever the layout.

Main results:

- Theorem `Prints.reads`: what is printed is read as the part that it was printed from.
- Theorem `template?_of_prints`: a new parser undoes printing.
-/

namespace SlotGrammar

namespace Html

open Template (Tag Attr Node Normal NormalNode NormalNodes Neighbours)

/-! ## Layouts -/

/-- A tag as printed. -/
def tagSymbols : Tag → List Symbol
  | .name w => chars w
  | .slot i => [.slot i]

/-- How an attribute may be printed. -/
inductive AttrPrints : Attr → List Symbol → Prop where
  | static (w v : Text) :
      AttrPrints (.static w v) (chars w ++ .char '=' :: .char '"' :: (chars v ++ [.char '"']))
  | boolean (w : Text) : AttrPrints (.boolean w) (chars w)
  | slot (w : Text) (i : Nat) : AttrPrints (.slot w i) (chars w ++ [.char '=', .slot i])
  | quotedSlot (w : Text) (i : Nat) :
      AttrPrints (.slot w i) (chars w ++ [.char '=', .char '"', .slot i, .char '"'])
  | spread (i : Nat) : AttrPrints (.spread i) [.slot i]

/-- How attributes may be printed: each after some white space. -/
inductive AttrsPrint : List Attr → List Symbol → Prop where
  | nil : AttrsPrint [] []
  | cons {a : Attr} {as : List Attr} {b : Text} {w ws : List Symbol}
      (hb : IsToken Token.whiteSpace b) (ha : AttrPrints a w) (has : AttrsPrint as ws) :
      AttrsPrint (a :: as) (chars b ++ w ++ ws)

/-- How an element or children may be printed. -/
inductive Prints : Part → List Symbol → Prop where
  | selfClosed {tag : Tag} {as : List Attr} {w : List Symbol} {b : Text} (has : AttrsPrint as w)
      (hb : ∀ c ∈ b, Text.isBlank c = true) :
      Prints (.element ⟨tag, as, []⟩)
        (.char '<' :: (tagSymbols tag ++ w ++ chars b ++ chars ['/', '>']))
  | closed {tag : Tag} {as : List Attr} {ns : List Node} {w u : List Symbol} {b b' name : Text}
      (has : AttrsPrint as w) (hb : ∀ c ∈ b, Text.isBlank c = true) (hns : Prints (.children ns) u)
      (hname : IsToken Token.tagName name) (hb' : ∀ c ∈ b', Text.isBlank c = true) :
      Prints (.element ⟨tag, as, ns⟩)
        (.char '<' :: (tagSymbols tag ++ w ++ chars b ++ chars ['>'] ++ u ++
          (chars ['<', '/'] ++ chars name ++ chars b' ++ chars ['>'])))
  | nil : Prints (.children []) []
  | text {t : Text} {ns : List Node} {w : List Symbol} (hns : Prints (.children ns) w) :
      Prints (.children (.text t :: ns)) (chars t ++ w)
  | slot {i : Nat} {ns : List Node} {w : List Symbol} (hns : Prints (.children ns) w) :
      Prints (.children (.slot i :: ns)) (.slot i :: w)
  | element {t : Template} {ns : List Node} {w u : List Symbol} (ht : Prints (.element t) w)
      (hns : Prints (.children ns) u) : Prints (.children (t.toNode :: ns)) (w ++ u)

/-- How a template may be printed: with any white space around it. -/
inductive PrintsDocument (t : Template) : List Symbol → Prop where
  | mk {b b' : Text} {w : List Symbol} (hb : ∀ c ∈ b, Text.isBlank c = true)
      (ht : Prints (.element t) w) (hb' : ∀ c ∈ b', Text.isBlank c = true) :
      PrintsDocument t (chars b ++ w ++ chars b')

/-- Every list of attributes can be printed. -/
theorem exists_attrsPrint (as : List Attr) : ∃ w, AttrsPrint as w := by
  induction as with
  | nil => exact ⟨[], .nil⟩
  | cons a as ih =>
    obtain ⟨w, hw⟩ := ih
    cases a with
    | static n v => exact ⟨_, .cons isToken_space (.static n v) hw⟩
    | boolean n => exact ⟨_, .cons isToken_space (.boolean n) hw⟩
    | slot n i => exact ⟨_, .cons isToken_space (.slot n i) hw⟩
    | spread i => exact ⟨_, .cons isToken_space (.spread i) hw⟩

mutual

/-- Every element can be printed. -/
theorem exists_prints (tag : Tag) (as : List Attr) (ns : List Node) :
    ∃ w, Prints (.element ⟨tag, as, ns⟩) w := by
  have hname : IsToken Token.tagName ['a'] :=
    scans_tagName.isToken_singleton rfl
  have hnone : ∀ c ∈ ([] : Text), Text.isBlank c = true := by simp
  obtain ⟨w, hw⟩ := exists_attrsPrint as
  obtain ⟨u, hu⟩ := exists_prints_children ns
  exact ⟨_, .closed hw hnone hu hname hnone⟩

/-- Every list of children can be printed. -/
theorem exists_prints_children : ∀ ns : List Node, ∃ w, Prints (.children ns) w
  | [] => ⟨[], .nil⟩
  | .text _ :: ns => (exists_prints_children ns).elim fun _ h => ⟨_, .text h⟩
  | .slot _ :: ns => (exists_prints_children ns).elim fun _ h => ⟨_, .slot h⟩
  | .element tag as children :: ns =>
    (exists_prints tag as children).elim fun _ h =>
      (exists_prints_children ns).elim fun _ h' => ⟨_, .element h h'⟩

end

/-- Whether printing a template loses nothing: it is in normal form, and its slots are
numbered in document order. -/
structure Template.WellFormed (t : Template) : Prop where
  normal : t.Normal
  numbered : t.slots = List.range t.slots.length

/-! ## What is printed is read -/

variable {w r : List Symbol} {b : Text} {c : Char}

/-- A printed attribute is read back where the name behind it breaks off. -/
theorem AttrPrints.reads {a : Attr} (h : AttrPrints a w) (ha : a.Normal) (hr : Breaks r) :
    AttrReads a (w ++ r) r := by
  cases h with
  | static w v =>
    have hreads : AttrReads (.static w v) _ r := .static ha.1 ha.2
    simpa using hreads
  | boolean w => exact .boolean ha hr.stops.1 hr.stops.2
  | slot w i =>
    have hreads : AttrReads (.slot w i) _ r := .slot ha
    simpa using hreads
  | quotedSlot w i =>
    have hreads : AttrReads (.slot w i) _ r := .quotedSlot ha
    simpa using hreads
  | spread i => exact .spread

/-- Printed attributes are read back in front of the end of their tag. -/
theorem AttrsPrint.reads {as : List Attr} (h : AttrsPrint as w) (has : ∀ a ∈ as, a.Normal)
    (hb : ∀ c ∈ b, Text.isBlank c = true) (hc : c = '/' ∨ c = '>') (s : List Symbol) :
    AttrsReads as (w ++ (chars b ++ .char c :: s)) (chars b ++ .char c :: s) ∧
      Breaks (w ++ (chars b ++ .char c :: s)) := by
  induction h with
  | nil => exact ⟨.nil_of_end hb hc s, breaks_append hb hc s⟩
  | cons hspace ha _ ih =>
    obtain ⟨hnormal, has⟩ := List.forall_mem_cons.1 has
    obtain ⟨hreads, hbreaks⟩ := ih has
    rw [List.append_assoc, List.append_assoc]
    refine ⟨.cons hspace (ha.reads hnormal hbreaks) hreads, ?_⟩
    obtain ⟨d, t, rfl, hd, -⟩ := scans_whiteSpace.isToken_iff.1 hspace
    exact ⟨d, _, rfl, .inl hd⟩

/-- A printed tag is read where something follows that breaks it off. -/
theorem tagSymbols_reads {tag : Tag} (h : tag.Normal) (hr : Breaks r) :
    TagReads tag (tagSymbols tag ++ r) r := by
  cases tag with
  | name w => exact .name h hr.stops.1
  | slot i => exact .slot

/-- A printed opening is read back. -/
theorem AttrsPrint.opening {tag : Tag} {as : List Attr} (h : AttrsPrint as w) (htag : tag.Normal)
    (has : ∀ a ∈ as, a.Normal) (hb : ∀ c ∈ b, Text.isBlank c = true) (hc : c = '/' ∨ c = '>')
    (s : List Symbol) :
    OpeningReads tag as (.char '<' :: (tagSymbols tag ++ (w ++ (chars b ++ .char c :: s))))
      (.char c :: s) := by
  obtain ⟨hreads, hbreaks⟩ := h.reads has hb hc s
  exact .mk (tagSymbols_reads htag hbreaks) hreads hb (noAttr_of_end hc s).1

/-- Printed elements begin with a bracket. -/
theorem Prints.exists_bracket {t : Template} (h : Prints (.element t) w) :
    ∃ u, w = .char '<' :: u := by
  cases h with
  | selfClosed => exact ⟨_, rfl⟩
  | closed => exact ⟨_, rfl⟩

/-- What children are printed as stops a class in front of a closing tag, unless the first of
them is a text. -/
theorem Prints.stops {p : Char → Bool} {ns : List Node} (h : Prints (.children ns) w)
    (hp : p '<' = false)
    (htext : ∀ u ns', ns = .text u :: ns' → ∃ c v, u = c :: v ∧ p c = false) (s : List Symbol) :
    Stops p (w ++ .char '<' :: s) := by
  cases h with
  | nil => exact stops_char hp s
  | text =>
    obtain ⟨c, v, rfl, hc⟩ := htext _ _ rfl
    exact stops_char hc _
  | slot => exact stops_slot p _ _
  | element ht =>
    obtain ⟨u, rfl⟩ := ht.exists_bracket
    exact stops_char hp _

/-- A printed text is read in front of printed children that it may be a neighbour of. -/
theorem Prints.text_reads {t : Text} {ns : List Node} (h : Prints (.children ns) w)
    (ht : Template.TextNormal t) (hnormal : NormalNodes ns)
    (hnext : ∀ n ∈ ns.head?, Neighbours (.text t) n) {s : List Symbol}
    (hns : Reads (.children ns) (w ++ .char '<' :: s) r) :
    Reads (.children (.text t :: ns)) (chars t ++ (w ++ .char '<' :: s)) r := by
  obtain ⟨hne, hbracket, hblank | ⟨c, u, rfl, hc⟩⟩ := ht
  · refine .blank (isToken_whiteSpace_iff.2 ⟨hne, hblank⟩) (h.stops (by decide) ?_ s) hns
    rintro u ns' rfl
    obtain ⟨-, -, hu | ⟨d, v, rfl, hd⟩⟩ := hnormal.1
    · exact absurd hu (hnext _ rfl).2
    · exact ⟨d, v, rfl, hd⟩
  · refine .text (isToken_textRun_iff.2 ⟨hne, hbracket⟩) (stops_char hc _) (h.stops rfl ?_ s) hns
    rintro u' ns' rfl
    have hblank := (hnext _ rfl).1 c List.mem_cons_self
    rw [hc] at hblank
    cases hblank

/-- What is said of printed parts: they are read as they are. -/
def Part.ReadBack (w : List Symbol) : Part → Prop
  | .element t => t.Normal → ∀ r, Reads (.element t) (w ++ r) r
  | .children ns => ns.IsChain Neighbours ∧ NormalNodes ns → ∀ s,
    Reads (.children ns) (w ++ .char '<' :: .char '/' :: s) (.char '<' :: .char '/' :: s)

/-- What is printed is read as the part that it was printed from. -/
theorem Prints.reads {p : Part} (h : Prints p w) : p.ReadBack w := by
  induction h with
  | selfClosed has hb =>
    rintro ⟨htag, hattrs, -⟩ r
    have hopening := has.opening htag hattrs hb (.inl rfl) (.char '>' :: r)
    refine .selfClosed ?_
    simpa using hopening
  | @closed tag as ns w u b b' name has hb hns hname hb' ih =>
    rintro ⟨htag, hattrs, hchildren⟩ r
    have hclosing : ClosingReads
        (.char '<' :: .char '/' :: (chars name ++ (chars b' ++ .char '>' :: r))) r :=
      .mk (.name hname (breaks_append hb' (.inr rfl) r).stops.1) hb'
    have hopening := has.opening htag hattrs hb (.inr rfl)
      (u ++ .char '<' :: .char '/' :: (chars name ++ (chars b' ++ .char '>' :: r)))
    have hreads := Reads.closed hopening (ih hchildren _) hclosing
    simpa using hreads
  | nil => exact fun _ s => .nil (.inr ⟨s, rfl⟩)
  | text hns ih =>
    rintro ⟨hchain, ht, hnormal⟩ s
    obtain ⟨hnext, hchain⟩ := List.isChain_cons.1 hchain
    rw [List.append_assoc]
    exact hns.text_reads ht hnormal hnext (ih ⟨hchain, hnormal⟩ s)
  | slot _ ih =>
    rintro ⟨hchain, -, hnormal⟩ s
    exact .slot (ih ⟨(List.isChain_cons.1 hchain).2, hnormal⟩ s)
  | element _ _ ih ih' =>
    rintro ⟨hchain, ht, hnormal⟩ s
    rw [List.append_assoc]
    exact .element (ih ht _) (ih' ⟨(List.isChain_cons.1 hchain).2, hnormal⟩ s)

/-- A printed template is read as itself. -/
theorem PrintsDocument.reads {t : Template} (h : PrintsDocument t w) (ht : t.Normal) :
    ReadsDocument t w := by
  cases h with
  | mk hb hprints hb' =>
    rw [List.append_assoc]
    exact .mk hb (hprints.reads ht _) hb'

/-! ## Slots of what is printed -/

/-- A printed attribute shows its slots. -/
theorem AttrPrints.slotIndices_eq {a : Attr} (h : AttrPrints a w) : slotIndices w = a.slots := by
  cases h <;> simp [Attr.slots]

/-- Printed attributes show their slots, in order. -/
theorem AttrsPrint.slotIndices_eq {as : List Attr} (h : AttrsPrint as w) :
    slotIndices w = as.flatMap Attr.slots := by
  induction h with
  | nil => rfl
  | cons _ ha _ ih => simp [ha.slotIndices_eq, ih]

/-- A printed tag shows its slots. -/
theorem slotIndices_tagSymbols (tag : Tag) : slotIndices (tagSymbols tag) = tag.slots := by
  cases tag with
  | name w => exact slotIndices_chars w
  | slot i => rfl

/-- What is printed has the slots of the part that it was printed from. -/
theorem Prints.slotIndices_eq {p : Part} (h : Prints p w) : slotIndices w = p.slots := by
  induction h with
  | selfClosed has _ =>
    simp [has.slotIndices_eq, slotIndices_tagSymbols, Part.slots, Template.slots, Template.toNode,
      Template.slotsOfNode, Template.slotsOfNodes]
  | closed has _ _ _ _ ih =>
    simp [has.slotIndices_eq, slotIndices_tagSymbols, ih, Part.slots, Template.slots,
      Template.toNode, Template.slotsOfNode]
  | nil => rfl
  | text _ ih => simp [ih, Part.slots, Template.slotsOfNodes, Template.slotsOfNode]
  | slot _ ih => simp [ih, Part.slots, Template.slotsOfNodes, Template.slotsOfNode]
  | element _ _ ih ih' => simp [ih, ih', Part.slots, Template.slotsOfNodes, Template.slots]

/-- A printed document shows its slots, in order. -/
theorem PrintsDocument.slotIndices_eq {t : Template} (h : PrintsDocument t w) :
    slotIndices w = t.slots := by
  cases h with
  | mk _ ht _ => simp [ht.slotIndices_eq, Part.slots]

/-! ## Parsing -/

/-- A new parser gives a template back from the fragments that it is printed as. -/
theorem Parser.template?_of_prints [SoundLexicon] {V : Type} {t : Template} (ht : t.WellFormed)
    (h : PrintsDocument t w) (values : List V) (options : ParseOptions) :
    ∃ stop p, Parser.create.template? ⟨cut w⟩ values options = some (.ok (some (t, stop)), p) := by
  have hsymbols : (Fragments.mk (cut w)).symbols = w :=
    symbols_cut (h.slotIndices_eq.trans ht.numbered)
  have hreads : ReadsDocument t (Fragments.mk (cut w)).symbols := by
    rw [hsymbols]
    exact h.reads ht.normal
  exact template?_of_readsDocument hreads values options

/-- An element with a slot between quotes, a text and a slot below, and another name in its
closing tag. -/
theorem Parser.template?_of_prints_otherName : ∃ stop p, Parser.create.template?
    ⟨[['<', 'a', ' ', 'b', '=', '"'], ['"', '>', 'x'], ['<', '/', 'q', '>', ' ']]⟩ ([] : List Nat)
      .standard =
    some (.ok (some (⟨.name ['a'], [.slot ['b'] 0], [.text ['x'], .slot 1]⟩, stop)), p) := by
  have hletter : ∀ c : Char, c.isAlpha = true → IsToken Token.tagName [c] := fun c hc =>
    scans_tagName.isToken_iff.2 ⟨c, [], rfl, hc, by simp⟩
  have hnone : ∀ c ∈ ([] : Text), Text.isBlank c = true := by simp
  have hattr : Attr.Normal (.slot ['b'] 0) :=
    scans_attrName.isToken_iff.2 ⟨'b', [], rfl, rfl, by simp⟩
  have htext : Template.TextNormal ['x'] :=
    ⟨by simp, by decide, .inr ⟨'x', [], rfl, by decide⟩⟩
  have hformed : Template.WellFormed ⟨.name ['a'], [.slot ['b'] 0], [.text ['x'], .slot 1]⟩ :=
    ⟨⟨hletter 'a' rfl, List.forall_mem_singleton.2 hattr, by simp [Neighbours], htext, trivial,
      trivial⟩,
      rfl⟩
  have hprints : PrintsDocument ⟨.name ['a'], [.slot ['b'] 0], [.text ['x'], .slot 1]⟩ _ :=
    .mk hnone (.closed (.cons isToken_space (.quotedSlot ['b'] 0) .nil) hnone (.text (.slot .nil))
      (hletter 'q' rfl) hnone) (isToken_whiteSpace_iff.1 isToken_space).2
  exact template?_of_prints hformed hprints [] .standard

end Html

end SlotGrammar
