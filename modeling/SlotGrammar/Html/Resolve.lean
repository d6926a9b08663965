import SlotGrammar.Html.Element

/-!
# Filling templates in

A template is resolved with the values of a call: every slot gives place to the
value with its number.  A value in place of an attribute is collected, or, on
request, spread into the named attributes where it stands.  A slot without a
value is an error; of several the first in document order counts, that is the
tag, then the attributes, then the children.

Main results:

- Theorem `valueAt_eq_ok_iff`: a slot has a value exactly when its number is below
  the number of values.
-/

namespace SlotGrammar.Html

/-- The failure to resolve a template: a slot for which no value was supplied. -/
structure MissingValue where
  index : Nat
  supplied : Nat
deriving DecidableEq

/-- The wording of the failure. -/
def MissingValue.message (e : MissingValue) : String :=
  s!"template references slot {e.index} but only {e.supplied} values were supplied"

/-- Values that can stand for a set of attributes. -/
class AttrSource (V : Type) where
  /-- The attributes that a value contributes, in order. -/
  attrsOf : V → List (Element.Attr V)

/-- What becomes of a value in place of an attribute: it is collected, or its
attributes are merged into the named ones. -/
inductive Spreading (V : Type) where
  | collect
  | merge (attrsOf : V → List (Element.Attr V))

section

variable {V : Type} (spreading : Spreading V) (values : List V)

/-- The value for a slot. -/
def valueAt (index : Nat) : Except MissingValue V :=
  match values[index]? with
  | some v => .ok v
  | none => .error ⟨index, values.length⟩

/-- A slot has a value exactly when its number is below the number of values. -/
theorem valueAt_eq_ok_iff {index : Nat} {v : V} :
    valueAt values index = .ok v ↔ values[index]? = some v := by
  unfold valueAt
  cases values[index]? <;> simp

/-- The tag with its value. -/
def resolveTag : Template.Tag → Except MissingValue (Element.Tag V)
  | .name name => .ok (.name name)
  | .slot index => (valueAt values index).map .value

/-- Adds the attributes of a template to those before them, and the collected
values to those before them. -/
def resolveAttrs : List Template.Attr → Element.Attrs V → List V →
    Except MissingValue (Element.Attrs V × List V)
  | [], attrs, spread => .ok (attrs, spread)
  | .static name value :: rest, attrs, spread =>
    resolveAttrs rest (attrs.insert name (.text value)) spread
  | .boolean name :: rest, attrs, spread => resolveAttrs rest (attrs.insert name .flag) spread
  | .slot name index :: rest, attrs, spread => do
    let v ← valueAt values index
    resolveAttrs rest (attrs.insert name (.value v)) spread
  | .spread index :: rest, attrs, spread => do
    let v ← valueAt values index
    match spreading with
    | .collect => resolveAttrs rest attrs (spread ++ [v])
    | .merge attrsOf => resolveAttrs rest (attrs.insertAll (attrsOf v)) spread

mutual

/-- A node with its values. -/
def resolveNode : Template.Node → Except MissingValue (Element.Node V)
  | .text t => .ok (.text t)
  | .slot index => (valueAt values index).map .value
  | .element tag attrs children => do
    let tag ← resolveTag values tag
    let (attrs, spread) ← resolveAttrs spreading values attrs .empty []
    let children ← resolveNodes children
    return .element tag attrs spread children

/-- A list of nodes with their values. -/
def resolveNodes : List Template.Node → Except MissingValue (List (Element.Node V))
  | [] => .ok []
  | n :: ns => do
    let n ← resolveNode n
    let ns ← resolveNodes ns
    return n :: ns

end

end

namespace Template

variable {V : Type}

/-- The element of a template with the values of a call. -/
def resolveWith (spreading : Spreading V) (t : Template) (values : List V) :
    Except MissingValue (Element V) := do
  let tag ← resolveTag values t.tag
  let (attrs, spread) ← resolveAttrs spreading values t.attrs .empty []
  let children ← resolveNodes spreading values t.children
  return ⟨tag, attrs, spread, children⟩

/-- The element of a template, with values in place of attributes collected. -/
def resolve (t : Template) (values : List V) : Except MissingValue (Element V) :=
  t.resolveWith .collect values

/-- The element of a template, with values in place of attributes spread into the
named attributes, so that a later name replaces an earlier one. -/
def resolveSpreading [AttrSource V] (t : Template) (values : List V) :
    Except MissingValue (Element V) :=
  t.resolveWith (.merge AttrSource.attrsOf) values

end Template

end SlotGrammar.Html
