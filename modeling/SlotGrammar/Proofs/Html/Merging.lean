import SlotGrammar.Proofs.Html.Joining
import SlotGrammar.Proofs.Html.Resolving

/-!
# Values merged into attributes

A value in place of an attribute is collected, or the attributes that it stands for are merged
into the named ones.  Both ways to resolve a template fail alike, and the elements that they
make differ in their attributes only.  When values are merged, every name has what was
contributed to it last, by an attribute of its own or by one of a value.

Main results:

- Theorem `find?_insertAll`: of the attributes with one name the last one stays.
- Definition `Merges`: how an element with its values merged is related to the one with its
  values collected.
- Theorem `resolveWith_merges`: the two ways to resolve a template are so related.
- Theorem `resolveWith_eq_of_no_spread`: they come to the same where no value is spread.
-/

namespace SlotGrammar.Html

/-! ## Attributes added one after the other -/

namespace Element.Attrs

variable {V : Type}

/-- A name is looked up among the first attributes, then among the others. -/
theorem lookUp_append (name : Text) (es es' : List (Attr V)) :
    lookUp name (es ++ es') = (lookUp name es).or (lookUp name es') := by
  induction es with
  | nil => rfl
  | cons e es ih =>
    rw [List.cons_append, lookUp, lookUp, ih]
    split <;> rfl

/-- Attributes are inserted one list after the other. -/
theorem insertAll_append (attrs : Attrs V) (more more' : List (Attr V)) :
    attrs.insertAll (more ++ more') = (attrs.insertAll more).insertAll more' :=
  List.foldl_append

/-- Whether every name has the last of its attributes in a list. -/
def LastOf (attrs : Attrs V) (more : List (Attr V)) : Prop :=
  ∀ name, attrs.find? name = lookUp name more.reverse

/-- Of the attributes with one name the last one stays. -/
theorem find?_insertAll (attrs : Attrs V) (more : List (Attr V)) (name : Text) :
    (attrs.insertAll more).find? name = (lookUp name more.reverse).or (attrs.find? name) := by
  induction more generalizing attrs with
  | nil => rfl
  | cons e more ih =>
    have hstep : attrs.insertAll (e :: more) = (attrs.insert e.1 e.2).insertAll more := rfl
    rw [hstep, ih, find?_insert, List.reverse_cons, lookUp_append, Option.or_assoc]
    congr 1
    rw [lookUp]
    split <;> rfl

/-- Among attributes that are inserted, the last one of each name stays. -/
theorem lastOf_insertAll (more : List (Attr V)) : (empty.insertAll more).LastOf more := by
  intro name
  rw [find?_insertAll, find?_empty, Option.or_none]

end Element.Attrs

open Template (attrsOfNode attrsOfNodes)

section

variable {V : Type} (spreading : Spreading V) (values : List V)

/-- The named attributes that an attribute of a template contributes: its own, or those of the
value in its place when these are merged. -/
def Template.Attr.contributed : Template.Attr → List (Element.Attr V)
  | .static name value => [(name, .text value)]
  | .boolean name => [(name, .flag)]
  | .slot name i => values[i]?.toList.map fun v => (name, .value v)
  | .spread i =>
    match spreading with
    | .collect => []
    | .merge attrsOf => values[i]?.toList.flatMap attrsOf

/-- The values that are collected from an attribute of a template. -/
def Template.Attr.collected : Template.Attr → List V
  | .static _ _ => []
  | .boolean _ => []
  | .slot _ _ => []
  | .spread i =>
    match spreading with
    | .collect => values[i]?.toList
    | .merge _ => []

variable {spreading values}

/-- A computation in two steps succeeds only when both steps do. -/
theorem exists_of_bind_ok {β γ : Type} {m : Except MissingValue β}
    {next : β → Except MissingValue γ} {c : γ} (h : m >>= next = .ok c) :
    ∃ b, m = .ok b ∧ next b = .ok c := by
  cases m with
  | error e => cases h
  | ok b => exact ⟨b, rfl, h⟩

/-- What one attribute adds to those before it. -/
theorem resolveAttrs_cons {a : Template.Attr} {as : List Template.Attr} {attrs : Element.Attrs V}
    {spread : List V} {found : Element.Attrs V × List V}
    (h : resolveAttrs spreading values (a :: as) attrs spread = .ok found) :
    resolveAttrs spreading values as (attrs.insertAll (a.contributed spreading values))
      (spread ++ a.collected spreading values) = .ok found := by
  cases a with
  | static name value => exact (List.append_nil spread).symm ▸ h
  | boolean name => exact (List.append_nil spread).symm ▸ h
  | slot name i =>
    obtain ⟨v, hv, h⟩ := exists_of_bind_ok h
    have hi := (valueAt_eq_ok_iff values).1 hv
    rw [Template.Attr.contributed, Template.Attr.collected, hi, List.append_nil]
    exact h
  | spread i =>
    obtain ⟨v, hv, h⟩ := exists_of_bind_ok h
    have hi := (valueAt_eq_ok_iff values).1 hv
    cases spreading with
    | collect =>
      rw [Template.Attr.contributed, Template.Attr.collected, hi]
      exact h
    | merge attrsOf =>
      rw [Template.Attr.contributed, Template.Attr.collected, hi, Option.toList_some,
        List.flatMap_singleton, List.append_nil]
      exact h

/-- Attributes are resolved to what they contribute, in source order. -/
theorem resolveAttrs_eq_ok {as : List Template.Attr} {attrs attrs' : Element.Attrs V}
    {spread spread' : List V}
    (h : resolveAttrs spreading values as attrs spread = .ok (attrs', spread')) :
    attrs' = attrs.insertAll (as.flatMap (Template.Attr.contributed spreading values)) ∧
      spread' = spread ++ as.flatMap (Template.Attr.collected spreading values) := by
  induction as generalizing attrs spread with
  | nil =>
    cases h
    exact ⟨rfl, (List.append_nil _).symm⟩
  | cons a as ih =>
    rw [List.flatMap_cons, List.flatMap_cons, Element.Attrs.insertAll_append, ← List.append_assoc]
    exact ih (resolveAttrs_cons h)

/-- What an element of a template is resolved to. -/
theorem resolveNode_element_ok {tag : Template.Tag} {attrs : List Template.Attr}
    {children : List Template.Node} {n : Element.Node V}
    (h : resolveNode spreading values (.element tag attrs children) = .ok n) :
    ∃ tag' attrs' spread' children', n = .element tag' attrs' spread' children' ∧
      resolveTag values tag = .ok tag' ∧
      resolveAttrs spreading values attrs .empty [] = .ok (attrs', spread') ∧
      resolveNodes spreading values children = .ok children' := by
  obtain ⟨tag', htag, h⟩ := exists_of_bind_ok h
  obtain ⟨⟨attrs', spread'⟩, hattrs, h⟩ := exists_of_bind_ok h
  obtain ⟨children', hchildren, h⟩ := exists_of_bind_ok h
  exact ⟨tag', attrs', spread', children', (Except.ok.inj h).symm, htag, hattrs, hchildren⟩

end

/-! ## Merged and collected values -/

section Merging

variable {V : Type} {attrsOf : V → List (Element.Attr V)} {values : List V}

mutual

/-- How a node with its values merged is related to the one with its values collected, when a
node of a template is resolved to both: tags and children are the same, and every name has what
the attributes of the template contribute to it last.  Values in place of attributes are
collected in the one, and stand for the attributes that they have in the other. -/
inductive MergesNode (attrsOf : V → List (Element.Attr V)) (values : List V) :
    Template.Node → Element.Node V → Element.Node V → Prop where
  | text (t : Text) : MergesNode attrsOf values (.text t) (.text t) (.text t)
  | value {i : Nat} {v : V} (h : values[i]? = some v) :
      MergesNode attrsOf values (.slot i) (.value v) (.value v)
  | element {tag : Template.Tag} {as : List Template.Attr} {ns : List Template.Node}
      {tag' : Element.Tag V} {attrs merged : Element.Attrs V}
      {children children' : List (Element.Node V)} (htag : resolveTag values tag = .ok tag')
      (hattrs : attrs.LastOf (as.flatMap (Template.Attr.contributed .collect values)))
      (hmerged : merged.LastOf (as.flatMap (Template.Attr.contributed (.merge attrsOf) values)))
      (hchildren : MergesNodes attrsOf values ns children children') :
      MergesNode attrsOf values (.element tag as ns)
        (.element tag' attrs (as.flatMap (Template.Attr.collected .collect values)) children)
        (.element tag' merged [] children')

/-- The same for lists of nodes, one by one. -/
inductive MergesNodes (attrsOf : V → List (Element.Attr V)) (values : List V) :
    List Template.Node → List (Element.Node V) → List (Element.Node V) → Prop where
  | nil : MergesNodes attrsOf values [] [] []
  | cons {n : Template.Node} {ns : List Template.Node} {e e' : Element.Node V}
      {es es' : List (Element.Node V)} (h : MergesNode attrsOf values n e e')
      (hs : MergesNodes attrsOf values ns es es') :
      MergesNodes attrsOf values (n :: ns) (e :: es) (e' :: es')

end

/-- Merging collects no spread. -/
theorem Template.Attr.collected_merge (a : Template.Attr) (attrsOf : V → List (Element.Attr V))
    (values : List V) : a.collected (.merge attrsOf) values = [] := by
  cases a <;> rfl

mutual

/-- A node resolved with merging is the merge of the node resolved without. -/
theorem resolveNode_merges {n : Template.Node} {e e' : Element.Node V}
    (h : resolveNode .collect values n = .ok e)
    (h' : resolveNode (.merge attrsOf) values n = .ok e') : MergesNode attrsOf values n e e' := by
  cases n with
  | text t =>
    cases h
    cases h'
    exact .text t
  | slot i =>
    rw [resolveNode] at h h'
    cases hv : valueAt values i with
    | error failure =>
      rw [hv] at h
      cases h
    | ok v =>
      rw [hv] at h h'
      cases h
      cases h'
      exact .value ((valueAt_eq_ok_iff values).1 hv)
  | element tag as ns =>
    obtain ⟨tag₁, attrs, spread, children, rfl, htag, hattrs, hchildren⟩ :=
      resolveNode_element_ok h
    obtain ⟨tag₂, merged, spread', children', rfl, htag', hmerged, hchildren'⟩ :=
      resolveNode_element_ok h'
    cases htag.symm.trans htag'
    obtain ⟨rfl, rfl⟩ := resolveAttrs_eq_ok hattrs
    obtain ⟨rfl, rfl⟩ := resolveAttrs_eq_ok hmerged
    have hnone : as.flatMap (Template.Attr.collected (.merge attrsOf) values) = [] :=
      List.flatMap_eq_nil_iff.2 fun a _ => a.collected_merge attrsOf values
    rw [hnone]
    exact .element htag (Element.Attrs.lastOf_insertAll _) (Element.Attrs.lastOf_insertAll _)
      (resolveNodes_merges hchildren hchildren')

/-- Nodes resolved with merging are the merges of the nodes resolved without. -/
theorem resolveNodes_merges {ns : List Template.Node} {es es' : List (Element.Node V)}
    (h : resolveNodes .collect values ns = .ok es)
    (h' : resolveNodes (.merge attrsOf) values ns = .ok es') :
    MergesNodes attrsOf values ns es es' := by
  cases ns with
  | nil =>
    cases h
    cases h'
    exact .nil
  | cons n ns =>
    obtain ⟨e, hn, h⟩ := exists_of_bind_ok h
    obtain ⟨es, hns, h⟩ := exists_of_bind_ok h
    obtain ⟨e', hn', h'⟩ := exists_of_bind_ok h'
    obtain ⟨es', hns', h'⟩ := exists_of_bind_ok h'
    cases h
    cases h'
    exact .cons (resolveNode_merges hn hn') (resolveNodes_merges hns hns')

end

/-- How an element with its values merged is related to the one with its values collected. -/
def Merges (attrsOf : V → List (Element.Attr V)) (values : List V) (t : Template)
    (e e' : Element V) : Prop :=
  MergesNode attrsOf values t.toNode e.toNode e'.toNode

/-- The two ways to resolve a template come to elements that are so related. -/
theorem resolveWith_merges {t : Template} {e e' : Element V}
    (h : t.resolveWith .collect values = .ok e)
    (h' : t.resolveWith (.merge attrsOf) values = .ok e') : Merges attrsOf values t e e' := by
  refine resolveNode_merges ?_ ?_
  · rw [resolveNode_toNode, h]
    rfl
  · rw [resolveNode_toNode, h']
    rfl

/-! ## Templates without spread values -/

variable {spreading spreading' : Spreading V}

/-- Without a spread, attributes are resolved alike either way. -/
theorem resolveAttrs_eq_of_no_spread {as : List Template.Attr} (h : ∀ i, .spread i ∉ as)
    (attrs : Element.Attrs V) (spread : List V) :
    resolveAttrs spreading values as attrs spread =
      resolveAttrs spreading' values as attrs spread := by
  induction as generalizing attrs spread with
  | nil => rfl
  | cons a as ih =>
    have has : ∀ i, .spread i ∉ as := fun i hi => h i (List.mem_cons_of_mem a hi)
    cases a with
    | static name value => exact ih has _ _
    | boolean name => exact ih has _ _
    | slot name i =>
      rw [resolveAttrs, resolveAttrs]
      congr 1
      funext v
      exact ih has _ _
    | spread i => exact absurd List.mem_cons_self (h i)

mutual

/-- Without a spread, a node is resolved alike either way. -/
theorem resolveNode_eq_of_no_spread {n : Template.Node} (h : ∀ i, .spread i ∉ attrsOfNode n) :
    resolveNode spreading values n = resolveNode spreading' values n := by
  cases n with
  | text t => rfl
  | slot i => rfl
  | element tag as ns =>
    have has : ∀ i, .spread i ∉ as := fun i hi => h i (List.mem_append_left _ hi)
    have hns : ∀ i, .spread i ∉ attrsOfNodes ns := fun i hi => h i (List.mem_append_right _ hi)
    rw [resolveNode, resolveNode, resolveAttrs_eq_of_no_spread has,
      resolveNodes_eq_of_no_spread hns]

/-- Without a spread, nodes are resolved alike either way. -/
theorem resolveNodes_eq_of_no_spread {ns : List Template.Node}
    (h : ∀ i, .spread i ∉ attrsOfNodes ns) :
    resolveNodes spreading values ns = resolveNodes spreading' values ns := by
  cases ns with
  | nil => rfl
  | cons n ns =>
    have hn : ∀ i, .spread i ∉ attrsOfNode n := fun i hi => h i (List.mem_append_left _ hi)
    have hns : ∀ i, .spread i ∉ attrsOfNodes ns := fun i hi => h i (List.mem_append_right _ hi)
    rw [resolveNodes, resolveNodes, resolveNode_eq_of_no_spread hn,
      resolveNodes_eq_of_no_spread hns]

end

/-- Where no value is spread, both ways to resolve a template come to the same. -/
theorem resolveWith_eq_of_no_spread {t : Template} (h : ∀ i, .spread i ∉ t.allAttrs) :
    t.resolveWith spreading values = t.resolveWith spreading' values := by
  have hattrs : ∀ i, .spread i ∉ t.attrs := fun i hi => h i (List.mem_append_left _ hi)
  have hchildren : ∀ i, .spread i ∉ attrsOfNodes t.children :=
    fun i hi => h i (List.mem_append_right _ hi)
  rw [Template.resolveWith, Template.resolveWith, resolveAttrs_eq_of_no_spread hattrs,
    resolveNodes_eq_of_no_spread hchildren]

end Merging

end SlotGrammar.Html
