import SlotGrammar.Html.Resolve
import SlotGrammar.Proofs.Html.NormalForm

/-!
# Resolving templates

Whether a template can be resolved is a matter of its slots and of the number of values: of
the slots that have no value the first in document order is reported.  What the values are has
no part in this, and they come out as they went in.

Main results:

- Definition `Resolves`: how resolving something with given slots ends.
- Theorem `resolveWith_resolves`: this is how resolving a template ends.
- Definition `Element.map`: an element with other values.
- Theorem `resolve_map`: a template with other values is resolved to the element with these.
- Theorem `exists_own_values`: an element holds values of its own call only.
-/

namespace SlotGrammar.Html

open Template (slotsOfNode slotsOfNodes)

/-! ## Slots without values -/

section Resolves

variable {β γ : Type} {supplied : Nat} {slots slots' : List Nat}

/-- How resolving something with given slots ends when so many values are supplied: there is a
result if all slots have values, and otherwise the first that has none is reported. -/
inductive Resolves (supplied : Nat) : List Nat → Except MissingValue β → Prop where
  | filled {slots : List Nat} (h : ∀ i ∈ slots, i < supplied) (b : β) :
      Resolves supplied slots (.ok b)
  | lacks {before : List Nat} {i : Nat} (hbefore : ∀ j ∈ before, j < supplied)
      (hi : supplied ≤ i) (after : List Nat) :
      Resolves supplied (before ++ i :: after) (.error ⟨i, supplied⟩)

namespace Resolves

/-- Where no value is asked for, nothing is missing. -/
theorem ok (b : β) : Resolves supplied [] (.ok b) := .filled (by simp) b

/-- The slots of what comes later count only when those before have values. -/
theorem bind {m : Except MissingValue β} {next : β → Except MissingValue γ}
    (h : Resolves supplied slots m) (hnext : ∀ b, Resolves supplied slots' (next b)) :
    Resolves supplied (slots ++ slots') (m >>= next) := by
  cases h with
  | filled h b =>
    have hb := hnext b
    show Resolves supplied (slots ++ slots') (next b)
    generalize next b = result at hb ⊢
    cases hb with
    | filled h' c => exact .filled (List.forall_mem_append.2 ⟨h, h'⟩) c
    | lacks hbefore hi after =>
      rw [← List.append_assoc]
      exact .lacks (List.forall_mem_append.2 ⟨h, hbefore⟩) hi after
  | lacks hbefore hi after =>
    rw [List.append_assoc, List.cons_append]
    exact .lacks hbefore hi (after ++ slots')

/-- What is made of a result asks for the same values. -/
theorem map {m : Except MissingValue β} (h : Resolves supplied slots m) (f : β → γ) :
    Resolves supplied slots (m.map f) := by
  cases h with
  | filled h b => exact .filled h (f b)
  | lacks hbefore hi after => exact .lacks hbefore hi after

/-- A result asks for the values that what is made of it asks for. -/
theorem of_map {m : Except MissingValue β} {f : β → γ} (h : Resolves supplied slots (m.map f)) :
    Resolves supplied slots m := by
  cases m with
  | error e =>
    cases h with
    | lacks hbefore hi after => exact .lacks hbefore hi after
  | ok b =>
    cases h with
    | filled h => exact .filled h b

/-- There is a result exactly when all slots have values. -/
theorem exists_ok_iff {result : Except MissingValue β} (h : Resolves supplied slots result) :
    (∃ b, result = .ok b) ↔ ∀ i ∈ slots, i < supplied := by
  cases h with
  | filled h b => exact ⟨fun _ => h, fun _ => ⟨b, rfl⟩⟩
  | @lacks before i hbefore hi after =>
    refine ⟨nofun, fun h => ?_⟩
    have hlt := h i (by simp)
    omega

/-- The failure is about the first slot without a value. -/
theorem error_iff {result : Except MissingValue β} (h : Resolves supplied slots result)
    {i n : Nat} :
    result = .error ⟨i, n⟩ ↔ slots.find? (supplied ≤ ·) = some i ∧ n = supplied := by
  cases h with
  | filled h b =>
    have hnone : slots.find? (supplied ≤ ·) = none := by simpa using h
    simp [hnone]
  | @lacks before j hbefore hj after =>
    have hnone : before.find? (supplied ≤ ·) = none := by simpa using hbefore
    have hfirst : (before ++ j :: after).find? (supplied ≤ ·) = some j := by
      rw [List.find?_append, hnone, Option.none_or]
      exact List.find?_cons_of_pos (decide_eq_true hj)
    rw [hfirst, Except.error.injEq, MissingValue.mk.injEq, Option.some_inj, eq_comm (a := n)]

end Resolves

end Resolves

section

variable {V : Type} (spreading : Spreading V) (values : List V)

/-- A value asks for its own slot. -/
theorem valueAt_resolves (i : Nat) : Resolves values.length [i] (valueAt values i) := by
  unfold valueAt
  cases h : values[i]? with
  | none =>
    have hnone : ∀ j ∈ ([] : List Nat), j < values.length := by simp
    exact .lacks hnone (List.getElem?_eq_none_iff.1 h) []
  | some v =>
    refine .filled ?_ v
    have hlt := (List.getElem?_eq_some_iff.1 h).1
    simpa using hlt

/-- A tag asks for the values of its slots. -/
theorem resolveTag_resolves (tag : Template.Tag) :
    Resolves values.length tag.slots (resolveTag values tag) := by
  cases tag with
  | name name => exact .ok _
  | slot i => exact (valueAt_resolves values i).map _

/-- Attributes ask for the values of their slots. -/
theorem resolveAttrs_resolves (as : List Template.Attr) (attrs : Element.Attrs V)
    (spread : List V) : Resolves values.length (as.flatMap Template.Attr.slots)
      (resolveAttrs spreading values as attrs spread) := by
  induction as generalizing attrs spread with
  | nil => exact .ok _
  | cons a as ih =>
    rw [List.flatMap_cons]
    cases a with
    | static name value => exact ih _ _
    | boolean name => exact ih _ _
    | slot name i => exact (valueAt_resolves values i).bind fun v => ih _ _
    | spread i =>
      refine (valueAt_resolves values i).bind fun v => ?_
      cases spreading with
      | collect => exact ih _ _
      | merge attrsOf => exact ih _ _

mutual

/-- A node asks for the values of its slots. -/
theorem resolveNode_resolves (n : Template.Node) :
    Resolves values.length (slotsOfNode n) (resolveNode spreading values n) := by
  cases n with
  | text t => exact .ok _
  | slot i => exact (valueAt_resolves values i).map _
  | element tag attrs children =>
    rw [slotsOfNode, List.append_assoc]
    refine (resolveTag_resolves values tag).bind fun tag => ?_
    refine (resolveAttrs_resolves spreading values attrs _ _).bind fun (attrs, spread) => ?_
    exact (resolveNodes_resolves children).map _

theorem resolveNodes_resolves (ns : List Template.Node) :
    Resolves values.length (slotsOfNodes ns) (resolveNodes spreading values ns) := by
  cases ns with
  | nil => exact .ok _
  | cons n ns => exact (resolveNode_resolves n).bind fun n => (resolveNodes_resolves ns).map _

end

/-- A template is resolved as a node. -/
theorem resolveNode_toNode (t : Template) :
    resolveNode spreading values t.toNode =
      (t.resolveWith spreading values).map Element.toNode := by
  rw [Template.toNode, resolveNode, Template.resolveWith]
  cases resolveTag values t.tag with
  | error e => rfl
  | ok tag =>
    cases resolveAttrs spreading values t.attrs .empty [] with
    | error e => rfl
    | ok found => cases resolveNodes spreading values t.children <;> rfl

/-- Resolving a template comes to a result if all its slots have values, and otherwise reports
the first in document order that has none. -/
theorem resolveWith_resolves (t : Template) :
    Resolves values.length t.slots (t.resolveWith spreading values) := by
  have hnode := resolveNode_resolves spreading values t.toNode
  rw [resolveNode_toNode] at hnode
  exact hnode.of_map

end

/-! ## Elements with other values -/

namespace Element

variable {V W : Type} (g : V → W)

/-- A tag with its value changed. -/
def Tag.map : Tag V → Tag W
  | .name w => .name w
  | .value v => .value (g v)

/-- The value of an attribute changed. -/
def AttrValue.map : AttrValue V → AttrValue W
  | .text t => .text t
  | .flag => .flag
  | .value v => .value (g v)

/-- An attribute with its value changed. -/
def mapAttr (a : Attr V) : Attr W := (a.1, a.2.map g)

/-- Named attributes with their values changed. -/
def Attrs.map (attrs : Attrs V) : Attrs W where
  entries := attrs.entries.map (mapAttr g)
  sorted := List.pairwise_map.2 attrs.sorted

mutual

/-- A node with its values changed. -/
def mapNode : Node V → Node W
  | .text t => .text t
  | .value v => .value (g v)
  | .element tag attrs spread children =>
    .element (tag.map g) (attrs.map g) (spread.map g) (mapNodes children)

/-- A list of nodes with their values changed. -/
def mapNodes : List (Node V) → List (Node W)
  | [] => []
  | n :: ns => mapNode n :: mapNodes ns

end

/-- An element with every value in it changed: in place of tags, as the value of attributes, in
place of attributes and below it. -/
def map (e : Element V) : Element W where
  tag := e.tag.map g
  attrs := e.attrs.map g
  spread := e.spread.map g
  children := mapNodes g e.children

/-- Attributes with the same entries are the same. -/
theorem Attrs.ext {attrs attrs' : Attrs V} (h : attrs.entries = attrs'.entries) :
    attrs = attrs' := by
  cases attrs
  cases attrs'
  cases h
  rfl

/-- Values can be changed before or after an attribute is put in its place. -/
theorem Attrs.map_insertSorted (name : Text) (value : AttrValue V) (es : List (Attr V)) :
    (insertSorted name value es).map (mapAttr g) =
      insertSorted name (value.map g) (es.map (mapAttr g)) := by
  induction es with
  | nil => rfl
  | cons e es ih =>
    have hname : (mapAttr g e).1 = e.1 := rfl
    rw [insertSorted, List.map_cons, insertSorted, hname]
    split
    · rfl
    · split
      · rfl
      · rw [List.map_cons, ih]

/-- Values can be changed before or after an attribute is set. -/
theorem Attrs.map_insert (attrs : Attrs V) (name : Text) (value : AttrValue V) :
    (attrs.insert name value).map g = (attrs.map g).insert name (value.map g) :=
  Attrs.ext (map_insertSorted g name value attrs.entries)

/-! Changing no value changes nothing. -/

/-- A tag whose value is left alone is the same. -/
@[simp]
theorem Tag.map_id (tag : Tag V) : tag.map id = tag := by
  cases tag <;> rfl

/-- A value that is left alone is the same. -/
@[simp]
theorem AttrValue.map_id (value : AttrValue V) : value.map id = value := by
  cases value <;> rfl

/-- Attributes whose values are left alone are the same. -/
@[simp]
theorem Attrs.map_id (attrs : Attrs V) : attrs.map id = attrs := by
  have hattr : mapAttr id = (id : Attr V → Attr V) := by
    funext a
    simp [mapAttr]
  obtain ⟨es, hs⟩ := attrs
  simp [Attrs.map, hattr]

mutual

/-- A node whose values are left alone is the same. -/
theorem mapNode_id (n : Node V) : mapNode id n = n := by
  cases n with
  | text t => rfl
  | value v => rfl
  | element tag attrs spread children =>
    rw [mapNode, Tag.map_id, Attrs.map_id, List.map_id, mapNodes_id children]

theorem mapNodes_id (ns : List (Node V)) : mapNodes id ns = ns := by
  cases ns with
  | nil => rfl
  | cons n ns => rw [mapNodes, mapNode_id n, mapNodes_id ns]

end

/-- An element whose values are left alone is the same. -/
theorem map_id (e : Element V) : e.map id = e := by
  rw [map, Tag.map_id, Attrs.map_id, List.map_id, mapNodes_id]

end Element

/-! ## Templates with other values -/

section Map

variable {V W : Type} {g : V → W} {values : List V} {values' : List W}

/-- Whether the values for some slots are those for the same slots of another call, changed by a
function. -/
def Changes (g : V → W) (values : List V) (values' : List W) (slots : List Nat) : Prop :=
  ∀ i ∈ slots, valueAt values' i = (valueAt values i).map g

/-- Values are changed at two lists of slots together when they are at each. -/
theorem changes_append {slots slots' : List Nat} : Changes g values values' (slots ++ slots') ↔
    Changes g values values' slots ∧ Changes g values values' slots' :=
  List.forall_mem_append

variable (g values) in
/-- A call with every value changed. -/
theorem changes_map (slots : List Nat) : Changes g values (values.map g) slots := by
  intro i _
  rw [valueAt, valueAt, List.getElem?_map, List.length_map]
  cases values[i]? <;> rfl

/-- A tag takes the changed value where the values are changed. -/
theorem resolveTag_map {tag : Template.Tag} (h : Changes g values values' tag.slots) :
    resolveTag values' tag = (resolveTag values tag).map (Element.Tag.map g) := by
  cases tag with
  | name name => rfl
  | slot i =>
    rw [resolveTag, resolveTag, h i (List.mem_singleton_self i)]
    cases valueAt values i <;> rfl

/-- Attributes take the changed values where the values are changed. -/
theorem resolveAttrs_map {as : List Template.Attr}
    (h : Changes g values values' (as.flatMap Template.Attr.slots)) (attrs : Element.Attrs V)
    (spread : List V) : resolveAttrs .collect values' as (attrs.map g) (spread.map g) =
      (resolveAttrs .collect values as attrs spread).map
        (Prod.map (Element.Attrs.map g) (List.map g)) := by
  induction as generalizing attrs spread with
  | nil => rfl
  | cons a as ih =>
    obtain ⟨ha, has⟩ := changes_append.1 (List.flatMap_cons ▸ h)
    cases a with
    | static name value =>
      rw [resolveAttrs, resolveAttrs, ← ih has, Element.Attrs.map_insert]
      rfl
    | boolean name =>
      rw [resolveAttrs, resolveAttrs, ← ih has, Element.Attrs.map_insert]
      rfl
    | slot name i =>
      rw [resolveAttrs, resolveAttrs, ha i (List.mem_singleton_self i)]
      cases valueAt values i with
      | error e => rfl
      | ok v =>
        show resolveAttrs _ _ _ _ _ = (resolveAttrs _ _ _ _ _).map _
        rw [← ih has, Element.Attrs.map_insert]
        rfl
    | spread i =>
      rw [resolveAttrs, resolveAttrs, ha i (List.mem_singleton_self i)]
      cases valueAt values i with
      | error e => rfl
      | ok v =>
        show resolveAttrs _ _ _ _ _ = (resolveAttrs _ _ _ _ _).map _
        rw [← ih has, List.map_append]
        rfl

mutual

/-- A node takes the changed values where the values are changed. -/
theorem resolveNode_map {n : Template.Node} (h : Changes g values values' (slotsOfNode n)) :
    resolveNode .collect values' n = (resolveNode .collect values n).map (Element.mapNode g) := by
  cases n with
  | text t => rfl
  | slot i =>
    rw [resolveNode, resolveNode, h i (List.mem_singleton_self i)]
    cases valueAt values i <;> rfl
  | element tag attrs children =>
    obtain ⟨hfront, hchildren⟩ := changes_append.1 h
    obtain ⟨htag, hattrs⟩ := changes_append.1 hfront
    have hempty : resolveAttrs .collect values' attrs .empty [] = _ :=
      resolveAttrs_map hattrs .empty []
    rw [resolveNode, resolveNode, resolveTag_map htag, hempty, resolveNodes_map hchildren]
    cases resolveTag values tag with
    | error e => rfl
    | ok tag =>
      cases resolveAttrs .collect values attrs .empty [] with
      | error e => rfl
      | ok found => cases resolveNodes .collect values children <;> rfl

theorem resolveNodes_map {ns : List Template.Node}
    (h : Changes g values values' (slotsOfNodes ns)) :
    resolveNodes .collect values' ns =
      (resolveNodes .collect values ns).map (Element.mapNodes g) := by
  cases ns with
  | nil => rfl
  | cons n ns =>
    obtain ⟨hn, hns⟩ := changes_append.1 h
    rw [resolveNodes, resolveNodes, resolveNode_map hn, resolveNodes_map hns]
    cases resolveNode .collect values n with
    | error e => rfl
    | ok n => cases resolveNodes .collect values ns <;> rfl

end

/-- An element is known by the node that it is. -/
theorem eq_of_map_toNode {m m' : Except MissingValue (Element V)}
    (h : m.map Element.toNode = m'.map Element.toNode) : m = m' := by
  cases m with
  | error e =>
    cases m' with
    | error e' =>
      cases h
      rfl
    | ok element' => cases h
  | ok element =>
    cases m' with
    | error e' => cases h
    | ok element' =>
      obtain ⟨tag, attrs, spread, children⟩ := element
      obtain ⟨tag', attrs', spread', children'⟩ := element'
      cases h
      rfl

/-- A template with other values is resolved to the element with these. -/
theorem resolve_map {t : Template} (h : Changes g values values' t.slots) :
    t.resolve values' = (t.resolve values).map (Element.map g) := by
  apply eq_of_map_toNode
  calc (t.resolve values').map Element.toNode
      = resolveNode .collect values' t.toNode := (resolveNode_toNode .collect values' t).symm
    _ = (resolveNode .collect values t.toNode).map (Element.mapNode g) := resolveNode_map h
    _ = ((t.resolve values).map Element.toNode).map (Element.mapNode g) := by
      rw [resolveNode_toNode]
      rfl
    _ = ((t.resolve values).map (Element.map g)).map Element.toNode := by
      cases t.resolve values <;> rfl

/-- Two calls that supply the same values for the slots of a template come to one element. -/
theorem exists_resolve_of_agree {t : Template} {values values' : List V}
    (h : ∀ i ∈ t.slots, ∃ v, values[i]? = some v ∧ values'[i]? = some v) :
    ∃ e, t.resolve values = .ok e ∧ t.resolve values' = .ok e := by
  have hsupplied : ∀ i ∈ t.slots, i < values.length := by
    intro i hi
    obtain ⟨v, hv, -⟩ := h i hi
    exact (List.getElem?_eq_some_iff.1 hv).1
  have hsame : Changes id values values' t.slots := by
    intro i hi
    obtain ⟨v, hv, hv'⟩ := h i hi
    rw [(valueAt_eq_ok_iff values).2 hv, (valueAt_eq_ok_iff values').2 hv']
    rfl
  obtain ⟨e, he⟩ : ∃ e, t.resolve values = .ok e :=
    (resolveWith_resolves .collect values t).exists_ok_iff.2 hsupplied
  refine ⟨e, he, ?_⟩
  rw [resolve_map hsame, he, Except.map, Element.map_id]

/-- An element holds values of its own call only. -/
theorem exists_own_values {t : Template} {e : Element V} (h : t.resolve values = .ok e) :
    ∃ own : Element {v // v ∈ values}, e = own.map Subtype.val := by
  have hmap := resolve_map (t := t) (changes_map Subtype.val values.attach t.slots)
  rw [List.attach_map_subtype_val, h] at hmap
  cases hown : t.resolve values.attach with
  | error failure =>
    rw [hown] at hmap
    cases hmap
  | ok own =>
    rw [hown] at hmap
    exact ⟨own, Except.ok.inj hmap⟩

end Map

end SlotGrammar.Html
