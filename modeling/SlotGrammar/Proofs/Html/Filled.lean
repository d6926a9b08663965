import SlotGrammar.Proofs.Html.Merging

/-!
# Templates filled in

What resolving a template comes to, in terms of the template and the values alone: an element of
the same shape, in which every slot has given place to its value and every name has the attribute
that was given to it last.  An attribute that a later one replaces shows nowhere in the element,
but its slot needs a value all the same.

Main results:

- Theorem `Element.Attrs.eq_of_find?`: named attributes are known by what each name has.
- Definition `LastGiven`: what the attributes of a template give a name last.
- Definition `Filled`: how an element is related to the template that it was filled in from.
- Theorem `Template.resolve_fills_or_misses`: which element, or which failure, a template is
  resolved to.
-/

namespace SlotGrammar.Html

/-! ## Attributes known by their names -/

namespace Element.Attrs

variable {V : Type} {name : Text} {e : Attr V} {es : List (Attr V)}

/-- Among names in order, one before all of them is not there. -/
theorem lookUp_eq_none (h : ∀ e ∈ es, name < e.1) : lookUp name es = none := by
  induction es with
  | nil => rfl
  | cons e es ih =>
    have hne : e.1 ≠ name := by
      intro heq
      exact List.lt_irrefl name (heq ▸ h e List.mem_cons_self)
    rw [lookUp, if_neg hne]
    exact ih fun d hd => h d (List.mem_cons_of_mem e hd)

/-- A name that is found in sorted entries is that of the first one, or comes later. -/
theorem le_of_lookUp {value : AttrValue V} (hsorted : (e :: es).Pairwise fun a b => a.1 < b.1)
    (h : lookUp name (e :: es) = some value) : e.1 = name ∨ e.1 < name := by
  by_cases heq : e.1 = name
  · exact .inl heq
  · right
    rw [lookUp, if_neg heq] at h
    by_contra hlt
    have hfirst := (List.pairwise_cons.1 hsorted).1
    have hbefore : ∀ d ∈ es, name < d.1 := fun d hd =>
      List.lt_of_le_of_lt (List.not_lt.1 hlt) (hfirst d hd)
    rw [lookUp_eq_none hbefore] at h
    cases h

/-- Sorted entries are known by what is found in them. -/
theorem eq_of_lookUp {es es' : List (Attr V)} (hsorted : es.Pairwise fun a b => a.1 < b.1)
    (hsorted' : es'.Pairwise fun a b => a.1 < b.1) (h : ∀ name, lookUp name es = lookUp name es') :
    es = es' := by
  induction es generalizing es' with
  | nil =>
    cases es' with
    | nil => rfl
    | cons e' es' =>
      have hfirst := h e'.1
      simp [lookUp] at hfirst
  | cons e es ih =>
    cases es' with
    | nil =>
      have hfirst := h e.1
      simp [lookUp] at hfirst
    | cons e' es' =>
      have hfound : lookUp e.1 (e' :: es') = some e.2 := by
        rw [← h, lookUp, if_pos rfl]
      have hfound' : lookUp e'.1 (e :: es) = some e'.2 := by
        rw [h, lookUp, if_pos rfl]
      have hname : e'.1 = e.1 := by
        rcases le_of_lookUp hsorted' hfound with heq | hlt
        · exact heq
        · rcases le_of_lookUp hsorted hfound' with heq | hlt'
          · exact heq.symm
          · exact absurd hlt (List.lt_asymm hlt')
      rw [lookUp, if_pos hname] at hfound
      have heq : e' = e := Prod.ext hname (Option.some.inj hfound)
      subst heq
      congr 1
      apply ih hsorted.of_cons hsorted'.of_cons
      intro name
      by_cases hn : e'.1 = name
      · subst hn
        rw [lookUp_eq_none (List.pairwise_cons.1 hsorted).1,
          lookUp_eq_none (List.pairwise_cons.1 hsorted').1]
      · have hrest := h name
        rw [lookUp, lookUp, if_neg hn, if_neg hn] at hrest
        exact hrest

/-- Named attributes are known by what each name has. -/
theorem eq_of_find? {attrs attrs' : Attrs V} (h : ∀ name, attrs.find? name = attrs'.find? name) :
    attrs = attrs' :=
  Attrs.ext (eq_of_lookUp attrs.sorted attrs'.sorted h)

end Element.Attrs

/-! ## What attributes give -/

section Given

variable {V : Type}

/-- The name of an attribute, if it has one. -/
def Template.Attr.name? : Template.Attr → Option Text
  | .static name _ => some name
  | .boolean name => some name
  | .slot name _ => some name
  | .spread _ => none

/-- The slot of a value in place of an attribute. -/
def Template.Attr.spread? : Template.Attr → Option Nat
  | .spread i => some i
  | _ => none

/-- Whether an attribute gives a value to a name. -/
inductive Gives (values : List V) : Template.Attr → Text → Element.AttrValue V → Prop where
  | static (name value : Text) : Gives values (.static name value) name (.text value)
  | boolean (name : Text) : Gives values (.boolean name) name .flag
  | slot (name : Text) {i : Nat} {v : V} (h : values[i]? = some v) :
      Gives values (.slot name i) name (.value v)

/-- Whether no attribute in a list has a name. -/
def Unnamed (name : Text) (as : List Template.Attr) : Prop := ∀ a ∈ as, a.name? ≠ some name

/-- Whether a value is given to a name by the last of the attributes that have the name. -/
inductive LastGiven (values : List V) (name : Text) (value : Element.AttrValue V) :
    List Template.Attr → Prop where
  | here {a : Template.Attr} {as : List Template.Attr} (h : Gives values a name value)
      (hlast : Unnamed name as) : LastGiven values name value (a :: as)
  | later (a : Template.Attr) {as : List Template.Attr} (h : LastGiven values name value as) :
      LastGiven values name value (a :: as)

variable {values : List V} {name : Text} {value : Element.AttrValue V} {a : Template.Attr}
  {as : List Template.Attr}

theorem lastGiven_nil_iff : LastGiven values name value [] ↔ False := by
  constructor
  · rintro ⟨⟩
  · exact False.elim

/-- A value is given last by later attributes, or by the first if they do not name it. -/
theorem lastGiven_cons_iff : LastGiven values name value (a :: as) ↔
    LastGiven values name value as ∨ Unnamed name as ∧ Gives values a name value := by
  constructor
  · rintro (⟨h, hlast⟩ | ⟨_, h⟩)
    · exact .inr ⟨hlast, h⟩
    · exact .inl h
  · rintro (h | ⟨hlast, h⟩)
    · exact .later a h
    · exact .here h hlast

theorem unnamed_cons_iff : Unnamed name (a :: as) ↔ a.name? ≠ some name ∧ Unnamed name as :=
  List.forall_mem_cons

/-- What a name has when an attribute is inserted that gives something to a name, and others come
after it. -/
theorem lastGiven_or_insert_iff {n : Text} {x : Element.AttrValue V} (attrs : Element.Attrs V)
    (hname : a.name? = some n)
    (hgives : Gives values a name value ↔ n = name ∧ x = value) :
    (LastGiven values name value as ∨
        Unnamed name as ∧ (attrs.insert n x).find? name = some value) ↔
      LastGiven values name value (a :: as) ∨
        Unnamed name (a :: as) ∧ attrs.find? name = some value := by
  rw [lastGiven_cons_iff, unnamed_cons_iff, hgives, hname, Element.Attrs.find?_insert]
  by_cases hn : n = name
  · simp [hn]
  · simp [hn]

/-- A static attribute gives its name its text. -/
theorem gives_static_iff {n w : Text} :
    Gives values (.static n w) name value ↔ n = name ∧ .text w = value := by
  constructor
  · rintro ⟨⟩
    exact ⟨rfl, rfl⟩
  · rintro ⟨rfl, rfl⟩
    exact .static n w

/-- An attribute without a value gives its name a flag. -/
theorem gives_boolean_iff {n : Text} :
    Gives values (.boolean n) name value ↔ n = name ∧ .flag = value := by
  constructor
  · rintro ⟨⟩
    exact ⟨rfl, rfl⟩
  · rintro ⟨rfl, rfl⟩
    exact .boolean n

/-- An attribute with a slot gives its name the value of the slot. -/
theorem gives_slot_iff {n : Text} {i : Nat} {v : V} (hv : values[i]? = some v) :
    Gives values (.slot n i) name value ↔ n = name ∧ .value v = value := by
  constructor
  · intro h
    cases h with
    | slot _ h =>
      rw [hv] at h
      cases h
      exact ⟨rfl, rfl⟩
  · rintro ⟨rfl, rfl⟩
    exact .slot n hv

/-- A spread gives no name a value. -/
theorem not_gives_spread {i : Nat} : ¬ Gives values (.spread i) name value := nofun

/-- A name has what the attributes give it last, or what it had before if none has the name. -/
theorem resolveAttrs_find?_iff {attrs attrs' : Element.Attrs V} {spread spread' : List V}
    (h : resolveAttrs .collect values as attrs spread = .ok (attrs', spread')) :
    attrs'.find? name = some value ↔ LastGiven values name value as ∨
      Unnamed name as ∧ attrs.find? name = some value := by
  induction as generalizing attrs spread with
  | nil =>
    cases h
    simp [lastGiven_nil_iff, Unnamed]
  | cons a as ih =>
    cases a with
    | static n w => rw [ih h, lastGiven_or_insert_iff attrs rfl gives_static_iff]
    | boolean n => rw [ih h, lastGiven_or_insert_iff attrs rfl gives_boolean_iff]
    | slot n i =>
      rcases exists_of_bind_ok h with ⟨v, hv, h⟩
      rw [ih h,
        lastGiven_or_insert_iff attrs rfl (gives_slot_iff ((valueAt_eq_ok_iff values).1 hv))]
    | spread i =>
      rcases exists_of_bind_ok h with ⟨v, -, h⟩
      rw [ih h, lastGiven_cons_iff, unnamed_cons_iff]
      simp [not_gives_spread, Template.Attr.name?]

/-- The values in place of attributes are collected in source order. -/
theorem resolveAttrs_spread {attrs attrs' : Element.Attrs V} {spread spread' : List V}
    (h : resolveAttrs .collect values as attrs spread = .ok (attrs', spread')) :
    ∃ more, spread' = spread ++ more ∧
      List.Forall₂ (fun i v => values[i]? = some v) (as.filterMap Template.Attr.spread?) more := by
  induction as generalizing attrs spread with
  | nil =>
    cases h
    exact ⟨[], (List.append_nil _).symm, .nil⟩
  | cons a as ih =>
    cases a with
    | static n w => exact ih h
    | boolean n => exact ih h
    | slot n i =>
      rcases exists_of_bind_ok h with ⟨v, -, h⟩
      exact ih h
    | spread i =>
      rcases exists_of_bind_ok h with ⟨v, hv, h⟩
      rcases ih h with ⟨more, hmore, hvalues⟩
      refine ⟨v :: more, ?_, .cons ((valueAt_eq_ok_iff values).1 hv) hvalues⟩
      rw [hmore, List.append_assoc]
      rfl

end Given

/-! ## Elements filled in -/

section Filled

variable {V : Type}

/-- How a tag is related to the one that it was filled in from. -/
inductive FilledTag (values : List V) : Template.Tag → Element.Tag V → Prop where
  | name (name : Text) : FilledTag values (.name name) (.name name)
  | value {i : Nat} {v : V} (h : values[i]? = some v) : FilledTag values (.slot i) (.value v)

mutual

/-- How a node is related to the one that it was filled in from: texts and shape are the same, a
slot has given place to its value, and an element has the attributes that its names were given
last and no others, and the values in place of attributes in source order. -/
inductive FilledNode (values : List V) : Template.Node → Element.Node V → Prop where
  | text (t : Text) : FilledNode values (.text t) (.text t)
  | value {i : Nat} {v : V} (h : values[i]? = some v) : FilledNode values (.slot i) (.value v)
  | element {tag : Template.Tag} {as : List Template.Attr} {ns : List Template.Node}
      {tag' : Element.Tag V} {attrs : Element.Attrs V} {spread : List V}
      {children : List (Element.Node V)} (htag : FilledTag values tag tag')
      (hattrs : ∀ name value, attrs.find? name = some value ↔ LastGiven values name value as)
      (hspread : List.Forall₂ (fun i v => values[i]? = some v)
        (as.filterMap Template.Attr.spread?) spread)
      (hchildren : FilledNodes values ns children) :
      FilledNode values (.element tag as ns) (.element tag' attrs spread children)

/-- The same for lists of nodes, one by one. -/
inductive FilledNodes (values : List V) :
    List Template.Node → List (Element.Node V) → Prop where
  | nil : FilledNodes values [] []
  | cons {n : Template.Node} {ns : List Template.Node} {e : Element.Node V}
      {es : List (Element.Node V)} (h : FilledNode values n e) (hs : FilledNodes values ns es) :
      FilledNodes values (n :: ns) (e :: es)

end

/-- How an element is related to the template that it was filled in from. -/
def Filled (values : List V) (t : Template) (e : Element V) : Prop :=
  FilledNode values t.toNode e.toNode

variable {values : List V}

/-- What a tag resolves to is the tag filled in. -/
theorem resolveTag_filled {tag : Template.Tag} {tag' : Element.Tag V}
    (h : resolveTag values tag = .ok tag') : FilledTag values tag tag' := by
  cases tag with
  | name name =>
    cases h
    exact .name name
  | slot i =>
    rw [resolveTag] at h
    cases hv : valueAt values i with
    | error failure =>
      rw [hv] at h
      cases h
    | ok v =>
      rw [hv] at h
      cases h
      exact .value ((valueAt_eq_ok_iff values).1 hv)

mutual

/-- What a node resolves to is the node filled in. -/
theorem resolveNode_filled {n : Template.Node} {e : Element.Node V}
    (h : resolveNode .collect values n = .ok e) : FilledNode values n e := by
  cases n with
  | text t =>
    cases h
    exact .text t
  | slot i =>
    rw [resolveNode] at h
    cases hv : valueAt values i with
    | error failure =>
      rw [hv] at h
      cases h
    | ok v =>
      rw [hv] at h
      cases h
      exact .value ((valueAt_eq_ok_iff values).1 hv)
  | element tag as ns =>
    rcases resolveNode_element_ok h with
      ⟨tag', attrs, spread, children, rfl, htag, hattrs, hchildren⟩
    rcases resolveAttrs_spread hattrs with ⟨more, rfl, hspread⟩
    refine .element (resolveTag_filled htag) ?_ hspread (resolveNodes_filled hchildren)
    intro name value
    rw [resolveAttrs_find?_iff hattrs]
    simp

theorem resolveNodes_filled {ns : List Template.Node} {es : List (Element.Node V)}
    (h : resolveNodes .collect values ns = .ok es) : FilledNodes values ns es := by
  cases ns with
  | nil =>
    cases h
    exact .nil
  | cons n ns =>
    rcases exists_of_bind_ok h with ⟨e, hn, h⟩
    rcases exists_of_bind_ok h with ⟨es, hns, h⟩
    cases h
    exact .cons (resolveNode_filled hn) (resolveNodes_filled hns)

end

/-! A template is filled in to one element only. -/

/-- A tag is filled in in one way. -/
theorem FilledTag.unique {tag : Template.Tag} {tag₁ tag₂ : Element.Tag V}
    (h₁ : FilledTag values tag tag₁) (h₂ : FilledTag values tag tag₂) : tag₁ = tag₂ := by
  cases h₁ with
  | name name =>
    cases h₂
    rfl
  | value hv =>
    cases h₂ with
    | value hv' => rw [Option.some.inj (hv.symm.trans hv')]

/-- The values of some slots are determined. -/
theorem values_unique {slots : List Nat} {vs vs' : List V}
    (h : List.Forall₂ (fun i v => values[i]? = some v) slots vs)
    (h' : List.Forall₂ (fun i v => values[i]? = some v) slots vs') : vs = vs' := by
  induction h generalizing vs' with
  | nil =>
    cases h'
    rfl
  | cons hv _ ih =>
    cases h' with
    | cons hv' hvs => rw [Option.some.inj (hv.symm.trans hv'), ih hvs]

mutual

/-- A node is filled in in one way. -/
theorem FilledNode.unique {n : Template.Node} {e₁ e₂ : Element.Node V} :
    FilledNode values n e₁ → FilledNode values n e₂ → e₁ = e₂
  | .text _, .text _ => rfl
  | .value hv, .value hv' => by rw [Option.some.inj (hv.symm.trans hv')]
  | .element htag hattrs hspread hchildren, .element htag' hattrs' hspread' hchildren' => by
    have hsame := Element.Attrs.eq_of_find? fun name => Option.ext fun value =>
      (hattrs name value).trans (hattrs' name value).symm
    rw [htag.unique htag', hsame, values_unique hspread hspread',
      hchildren.unique hchildren']

theorem FilledNodes.unique {ns : List Template.Node} {es₁ es₂ : List (Element.Node V)} :
    FilledNodes values ns es₁ → FilledNodes values ns es₂ → es₁ = es₂
  | .nil, .nil => rfl
  | .cons h hs, .cons h' hs' => by rw [h.unique h', hs.unique hs']

end

/-- A template is filled in in one way. -/
theorem Filled.unique {t : Template} {e₁ e₂ : Element V} (h₁ : Filled values t e₁)
    (h₂ : Filled values t e₂) : e₁ = e₂ := by
  have hnode : e₁.toNode = e₂.toNode := FilledNode.unique h₁ h₂
  cases e₁
  cases e₂
  cases hnode
  rfl

namespace Template

/-- What a template resolves to is the template filled in. -/
theorem resolve_filled {t : Template} {e : Element V} (h : t.resolve values = .ok e) :
    Filled values t e := by
  apply resolveNode_filled
  rw [resolveNode_toNode]
  show (t.resolve values).map _ = _
  rw [h]
  rfl

/-- A template is resolved exactly when all its slots have values, to the one element that it is
filled in to.  Otherwise the first slot in document order that has none is reported, with the
number of values. -/
theorem resolve_fills_or_misses (t : Template) (values : List V) :
    ((∃ e, t.resolve values = .ok e) ↔ ∀ i ∈ t.slots, i < values.length) ∧
      (∀ e, t.resolve values = .ok e ↔
        (∀ i ∈ t.slots, i < values.length) ∧ Filled values t e) ∧
      ∀ failure, t.resolve values = .error failure ↔
        t.slots.find? (fun i => values.length ≤ i) = some failure.index ∧
          failure.supplied = values.length := by
  have hresolves := resolveWith_resolves .collect values t
  refine ⟨hresolves.exists_ok_iff, ?_, fun failure => hresolves.error_iff⟩
  intro e
  constructor
  · intro h
    exact ⟨hresolves.exists_ok_iff.1 ⟨e, h⟩, resolve_filled h⟩
  · rintro ⟨hslots, hfilled⟩
    rcases hresolves.exists_ok_iff.2 hslots with ⟨e', he'⟩
    rw [hfilled.unique (resolve_filled he')]
    exact he'

/-- An attribute that is replaced by a later one needs a value all the same. -/
example : (⟨.name ['p'], [.slot ['i', 'd'] 1, .boolean ['i', 'd']], [.slot 2]⟩ : Template).resolve
    [0] = .error ⟨1, 1⟩ := by rfl

end Template

end Filled

end SlotGrammar.Html
