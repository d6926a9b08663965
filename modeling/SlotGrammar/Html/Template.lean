import SlotGrammar.Text.Basic

/-!
# Element templates

The parse of a static text of elements.  Slots are given by number, so that one
template serves every call with the same static text.
-/

namespace SlotGrammar.Html

/-- The tag of an element: its name, or the slot of the value that it is. -/
inductive Template.Tag where
  | name (name : Text)
  | slot (index : Nat)
deriving DecidableEq

/-- One attribute as written. -/
inductive Template.Attr where
  /-- A name with a text. -/
  | static (name value : Text)
  /-- A name alone. -/
  | boolean (name : Text)
  /-- A name with a slot. -/
  | slot (name : Text) (index : Nat)
  /-- A slot in place of an attribute. -/
  | spread (index : Nat)
deriving DecidableEq

/-- A node below an element. -/
inductive Template.Node where
  | text (t : Text)
  | slot (index : Nat)
  | element (tag : Template.Tag) (attrs : List Template.Attr) (children : List Template.Node)

/-- A template: its root element, with attributes and children in source order. -/
structure Template where
  tag : Template.Tag
  attrs : List Template.Attr
  children : List Template.Node

/-- A template as a node below another element. -/
def Template.toNode (t : Template) : Template.Node := .element t.tag t.attrs t.children

end SlotGrammar.Html
