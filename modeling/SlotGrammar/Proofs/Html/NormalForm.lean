import Mathlib.Data.List.Chain
import SlotGrammar.Proofs.Html.Reading

/-!
# Normal form of templates

A template is in normal form when its names and texts are tokens and no two texts stand next
to each other that would be read as one.  Templates that are read are in normal form.

Main results:

- Theorem `Reads.normal`: what is read is in normal form.
-/

namespace SlotGrammar.Html

namespace Template

/-! ## Slots in document order -/

/-- The slot of a tag. -/
def Tag.slots : Tag → List Nat
  | .name _ => []
  | .slot i => [i]

/-- The slot of an attribute. -/
def Attr.slots : Attr → List Nat
  | .static _ _ => []
  | .boolean _ => []
  | .slot _ i => [i]
  | .spread i => [i]

mutual

/-- The slots of a node: those of its tag, of its attributes and of its children. -/
def slotsOfNode : Node → List Nat
  | .text _ => []
  | .slot i => [i]
  | .element tag attrs children =>
    tag.slots ++ attrs.flatMap Attr.slots ++ slotsOfNodes children

/-- The slots of a list of nodes. -/
def slotsOfNodes : List Node → List Nat
  | [] => []
  | n :: ns => slotsOfNode n ++ slotsOfNodes ns

end

/-- The slots of a template in document order. -/
def slots (t : Template) : List Nat := slotsOfNode t.toNode

/-! ## Normal form -/

/-- Whether the name of a tag is a token. -/
def Tag.Normal : Tag → Prop
  | .name w => IsToken Token.tagName w
  | .slot _ => True

/-- Whether the name of an attribute and its text are tokens. -/
def Attr.Normal : Attr → Prop
  | .static w v => IsToken Token.attrName w ∧ IsToken Token.quotedText v
  | .boolean w => IsToken Token.attrName w
  | .slot w _ => IsToken Token.attrName w
  | .spread _ => True

/-- Whether a text has blank code points only. -/
def AllBlank (t : Text) : Prop := ∀ c ∈ t, Text.isBlank c = true

/-- Whether a text is one that a child can be: not empty, without an opening bracket, and all
blank or with no blank in front. -/
def TextNormal (t : Text) : Prop :=
  t ≠ [] ∧ '<' ∉ t ∧ (AllBlank t ∨ ∃ c u, t = c :: u ∧ Text.isBlank c = false)

/-- Whether two nodes may be neighbours: of two texts the first is all blank and the second
is not. -/
def Neighbours : Node → Node → Prop
  | .text t, .text u => AllBlank t ∧ ¬ AllBlank u
  | _, _ => True

mutual

/-- Whether a node is in normal form. -/
def NormalNode : Node → Prop
  | .text t => TextNormal t
  | .slot _ => True
  | .element tag attrs children =>
    tag.Normal ∧ (∀ a ∈ attrs, a.Normal) ∧ children.IsChain Neighbours ∧ NormalNodes children

/-- Whether all nodes of a list are in normal form. -/
def NormalNodes : List Node → Prop
  | [] => True
  | n :: ns => NormalNode n ∧ NormalNodes ns

end

/-- Whether a template is in normal form. -/
def Normal (t : Template) : Prop := NormalNode t.toNode

end Template

/-- The slots of a part in document order. -/
def Part.slots : Part → List Nat
  | .element t => t.slots
  | .children ns => Template.slotsOfNodes ns

/-! ## What is read is in normal form -/

open Template

variable {s r : List Symbol}

theorem TagReads.normal {tag : Tag} (h : TagReads tag s r) : tag.Normal := by
  cases h with
  | name hw _ => exact hw
  | slot => trivial

theorem AttrReads.normal {a : Attr} (h : AttrReads a s r) : a.Normal := by
  cases h with
  | spread => trivial
  | slot hw => exact hw
  | quotedSlot hw => exact hw
  | static hw hv => exact ⟨hw, hv⟩
  | boolean hw _ _ => exact hw

theorem AttrsReads.normal {as : List Attr} (h : AttrsReads as s r) : ∀ a ∈ as, a.Normal := by
  induction h with
  | nil => simp
  | cons _ ha _ ih => exact List.forall_mem_cons.2 ⟨ha.normal, ih⟩

theorem OpeningReads.normal {tag : Tag} {as : List Attr} (h : OpeningReads tag as s r) :
    tag.Normal ∧ ∀ a ∈ as, a.Normal := by
  cases h with
  | mk htag has _ _ => exact ⟨htag.normal, has.normal⟩

/-- White space is a text that a child can be. -/
theorem textNormal_of_whiteSpace {b : Text} (hb : IsToken Token.whiteSpace b) : TextNormal b := by
  obtain ⟨hne, hblank⟩ := isToken_whiteSpace_iff.1 hb
  exact ⟨hne, not_mem_of_isToken_whiteSpace hb, .inl hblank⟩

/-- A token is not empty, and what is read as it begins with its first code point. -/
theorem exists_first {token : Token} {first run : Char → Bool} {w : Text}
    (h : Scans token first run)
    (hw : IsToken token w) (s : List Symbol) :
    ∃ c u v, w = c :: u ∧ first c = true ∧ chars w ++ s = .char c :: v := by
  obtain ⟨c, u, rfl, hc, -⟩ := h.isToken_iff.1 hw
  exact ⟨c, u, _, rfl, hc, rfl⟩

/-- A first text is where reading begins. -/
theorem Reads.exists_text {t : Text} {ns : List Node} (h : Reads (.children (.text t :: ns)) s r) :
    ∃ c u v, t = c :: u ∧ c ≠ '<' ∧ s = .char c :: v := by
  generalize hp : Part.children (.text t :: ns) = p at h
  cases h with
  | blank hb _ _ =>
    cases hp
    obtain ⟨c, u, v, rfl, hc, heq⟩ := exists_first scans_whiteSpace hb _
    refine ⟨c, u, v, rfl, ?_, heq⟩
    rintro rfl
    cases hc
  | text ht _ _ _ =>
    cases hp
    obtain ⟨c, u, v, rfl, hc, heq⟩ := exists_first scans_textRun ht _
    exact ⟨c, u, v, rfl, bne_iff_ne.1 hc, heq⟩
  | _ => cases hp

/-- What is said of the parts that are read. -/
def Part.Normal : Part → Prop
  | .element t => t.Normal
  | .children ns => ns.IsChain Neighbours ∧ NormalNodes ns

/-- A node in front of children in normal form. -/
theorem Part.Normal.cons {n : Node} {ns : List Node} (hn : NormalNode n)
    (hnext : ∀ n' ∈ ns.head?, Neighbours n n') (h : (Part.children ns).Normal) :
    (Part.children (n :: ns)).Normal :=
  ⟨List.isChain_cons.2 ⟨hnext, h.1⟩, hn, h.2⟩

/-- A text may stand before a node when it may stand before a text. -/
theorem neighbours_text {t : Text} {ns : List Node}
    (h : ∀ u ns', ns = .text u :: ns' → AllBlank t ∧ ¬ AllBlank u) :
    ∀ n' ∈ ns.head?, Neighbours (.text t) n' := by
  intro n' hn'
  cases ns with
  | nil => cases hn'
  | cons m ns =>
    cases hn'
    cases n' with
    | text u => exact h u ns rfl
    | slot i => trivial
    | element tag attrs children => trivial

/-- What is read is in normal form. -/
theorem Reads.normal {p : Part} (h : Reads p s r) : p.Normal := by
  induction h with
  | selfClosed h => exact ⟨h.normal.1, h.normal.2, .nil, trivial⟩
  | closed h _ _ ih => exact ⟨h.normal.1, h.normal.2, ih⟩
  | nil => exact ⟨.nil, trivial⟩
  | blank hb hs hns ih =>
    refine ih.cons (textNormal_of_whiteSpace hb) (neighbours_text ?_)
    rintro u ns' rfl
    obtain ⟨c, u, v, rfl, -, rfl⟩ := hns.exists_text
    refine ⟨(isToken_whiteSpace_iff.1 hb).2, fun hblank => ?_⟩
    have hc := hblank c List.mem_cons_self
    rw [hs c v rfl] at hc
    cases hc
  | @text t ns s r ht hfirst hs hns ih =>
    obtain ⟨hne, hbracket⟩ := isToken_textRun_iff.1 ht
    obtain ⟨c, u, v, rfl, -, heq⟩ := exists_first scans_textRun ht s
    refine ih.cons ⟨hne, hbracket, .inr ⟨c, u, rfl, hfirst c v heq⟩⟩ (neighbours_text ?_)
    rintro u' ns' rfl
    obtain ⟨d, _, v', -, hd, rfl⟩ := hns.exists_text
    have hstop := hs d v' rfl
    rw [bne_eq_false_iff_eq] at hstop
    exact absurd hstop hd
  | slot _ ih => exact ih.cons trivial fun _ _ => trivial
  | element _ _ ih ih' => exact ih'.cons ih fun _ _ => trivial

end SlotGrammar.Html
