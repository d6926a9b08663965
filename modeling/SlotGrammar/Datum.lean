import SlotGrammar.Html.Resolve

/-!
# Data

A datum is a value of the usual interchange kind: null, truth values, integers,
texts, lists and records.  The fields of a record are kept in the order of their
names.

A record with the field `spread`, a list of pairs of a name and a description,
stands for a set of attributes.  A description with a `text` field that is a
text is an attribute with that text, one with a `value` field is an attribute
with that value, and any other is an attribute without a value.
-/

namespace SlotGrammar

/-- A plain value. -/
inductive Datum where
  | null
  | bool (b : Bool)
  | int (i : Int)
  | text (t : Text)
  | list (items : List Datum)
  | record (fields : List (Text × Datum))

namespace Datum

open Html (Element)

instance : Inhabited Datum := ⟨null⟩

/-! ## Data as attributes -/

/-- The field of a record with the given name. -/
def field? (name : String) : Datum → Option Datum
  | record fields => (fields.find? fun f => f.1 == name.toList).map Prod.snd
  | _ => none

/-- The attribute that a description stands for. -/
def toAttrValue (description : Datum) : Element.AttrValue Datum :=
  match description.field? "text", description.field? "value" with
  | some (text t), _ => .text t
  | _, some v => .value v
  | _, none => .flag

/-- The attribute that a pair of a name and a description stands for. -/
def toAttr? : Datum → Option (Element.Attr Datum)
  | list [text name, description] => some (name, description.toAttrValue)
  | _ => none

/-- The attributes that a datum stands for, in order. -/
def attributes (d : Datum) : List (Element.Attr Datum) :=
  match d.field? "spread" with
  | some (list pairs) => pairs.filterMap toAttr?
  | _ => []

instance : Html.AttrSource Datum := ⟨attributes⟩

end Datum

end SlotGrammar
