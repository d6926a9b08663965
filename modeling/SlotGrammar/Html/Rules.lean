import SlotGrammar.Grammar.Expr
import SlotGrammar.Html.Resolve
import SlotGrammar.Html.Tokens

/-!
# The grammar of elements

The grammar accepts one root element with white space around it.

    root    := ws? element ws? END
    element := '<' (NAME | SLOT) (ws attrs)? ws? ('/>' | '>' child* close)
    close   := '</' (NAME | SLOT) ws? '>'
    attrs   := attr (ws attr)*
    attr    := SLOT | NAME '=' (SLOT | '"' SLOT '"') | NAME '=' '"' TEXT '"' | NAME
    child   := ws | SLOT | TEXT | element

What follows the opening bracket of an element is required: a tag that is not
ended, or not closed, aborts the parse.

Every transform of the grammar takes one shape of parse tree, which is the only
one that its part yields, and leaves any other tree as it is.
-/

namespace SlotGrammar.Html

/-- What the transforms of the grammar make: a part of a template, a template, or
an element. -/
inductive Piece (V : Type) where
  | tag (tag : Template.Tag)
  | attr (attr : Template.Attr)
  | node (node : Template.Node)
  | template (template : Template)
  | element (element : Except MissingValue (Element V))

namespace Rules

variable {V : Type}

/-- A parse tree of the grammar. -/
abbrev Tree (V : Type) := SlotGrammar.Tree V (Piece V)

/-- An expression of the grammar. -/
abbrev Expr (V : Type) := SlotGrammar.Expr V (Piece V)

/-! ## Transforms -/

/-- The attributes among the members of a list. -/
def attrsOf (tree : Tree V) : List Template.Attr :=
  tree.items.filterMap fun t =>
    match t with
    | .made (.attr a) => some a
    | _ => none

/-- The nodes among the members of a list. -/
def nodesOf (tree : Tree V) : List Template.Node :=
  tree.items.filterMap fun t =>
    match t with
    | .made (.node n) => some n
    | _ => none

/-- One member of a sequence. -/
def member (i : Nat) : Tree V → List V → Tree V := fun tree _ => tree.nth i

/-- The tag with a name or in a slot. -/
def toTag : Tree V → List V → Tree V
  | .text name, _ => .made (.tag (.name name))
  | .index i, _ => .made (.tag (.slot i))
  | tree, _ => tree

/-- A slot in place of an attribute. -/
def toSpread : Tree V → List V → Tree V
  | .index i, _ => .made (.attr (.spread i))
  | tree, _ => tree

/-- An attribute with a slot: name, equals sign, slot. -/
def toSlotAttr (tree : Tree V) (_ : List V) : Tree V :=
  match tree.nth 0, tree.nth 2 with
  | .text name, .index i => .made (.attr (.slot name i))
  | _, _ => tree

/-- An attribute with a text: name, equals sign, and the text between quotes. -/
def toStaticAttr (tree : Tree V) (_ : List V) : Tree V :=
  match tree.nth 0, tree.nth 3 with
  | .text name, .text value => .made (.attr (.static name value))
  | _, _ => tree

/-- An attribute with a name alone. -/
def toBooleanAttr : Tree V → List V → Tree V
  | .text name, _ => .made (.attr (.boolean name))
  | tree, _ => tree

/-- A text, a slot or an element as a child. -/
def toChild : Tree V → List V → Tree V
  | .text t, _ => .made (.node (.text t))
  | .index i, _ => .made (.node (.slot i))
  | .made (.template t), _ => .made (.node t.toNode)
  | tree, _ => tree

/-- An element: bracket, tag, attributes, white space, children. -/
def toElement (tree : Tree V) (_ : List V) : Tree V :=
  match tree.nth 1 with
  | .made (.tag tag) => .made (.template ⟨tag, attrsOf (tree.nth 2), nodesOf (tree.nth 4)⟩)
  | _ => tree

/-- A template with the values of the call filled in. -/
def toResolved : Tree V → List V → Tree V
  | .made (.template t), values => .made (.element (t.resolve values))
  | tree, _ => tree

/-! ## Expressions -/

variable [Lexicon]

/-- A token. -/
def token (t : Token) : Expr V := .regex Lexicon.engine (Lexicon.regex t)

/-- White space. -/
def whiteSpace : Expr V := token .whiteSpace

/-- White space, or nothing. -/
def optionalSpace : Expr V := .optional whiteSpace

/-- A required double quote. -/
def quote : Expr V := .required (.literal ['"'])

/-- A slot in place of an attribute. -/
def spreadAttr : Expr V := Expr.nextSlot.map toSpread

/-- A name with a slot, bare or between quotes. -/
def slotAttr : Expr V :=
  (Expr.sequence
    [token .attrName, .literal ['='],
      .choice [.nextSlot, (Expr.sequence [quote, .nextSlot, quote]).map (member 1)]]).map
    toSlotAttr

/-- A name with a text between quotes. -/
def staticAttr : Expr V :=
  (Expr.sequence
    [token .attrName, .literal ['='], quote, token .quotedText, quote]).map
    toStaticAttr

/-- A name alone. -/
def booleanAttr : Expr V := (token .attrName).map toBooleanAttr

/-- Attributes with white space between them. -/
def attributes : Expr V :=
  .separated (.choice [spreadAttr, slotAttr, staticAttr, booleanAttr]) whiteSpace

/-- The name of a tag, or a slot for it. -/
def tag : Expr V :=
  .required (.choice [(token .tagName).map toTag, Expr.nextSlot.map toTag])

/-- One child of an element. -/
def child (element : Expr V) : Expr V :=
  .choice
    [whiteSpace.map toChild, Expr.nextSlot.map toChild, (token .textRun).map toChild,
      element.map toChild]

/-- A closing tag.  Its name need not be the one of the opening tag. -/
def closingTag : Expr V :=
  .required
    (.sequence
      [.literal ['<', '/'], .choice [token .tagName, .nextSlot], optionalSpace,
        .literal ['>']])

/-- The rest of an element from the end of its opening tag: its children. -/
def body (element : Expr V) : Expr V :=
  (Expr.sequence
    [.required (.literal ['>']), .optional (.repeated (child element)), closingTag]).map
    (member 1)

/-- The end of an element without children. -/
def selfClosing : Expr V := (Expr.literal ['/', '>']).map fun _ _ => .absent

/-- An element, given an expression for the elements inside it. -/
def elementOver (element : Expr V) : Expr V :=
  (Expr.sequence
    [.butNot (.literal ['<']) (.literal ['<', '/']), tag,
      .optional ((Expr.sequence [whiteSpace, attributes]).map (member 1)), optionalSpace,
      .required (.choice [selfClosing, body element])]).map
    toElement

/-- An element. -/
def element : Expr V := .recursive "element" (elementOver (.ref "element"))

/-- The whole input: one element with white space around it. -/
def template : Expr V :=
  .cached true
    ((Expr.sequence [optionalSpace, element, optionalSpace, .inputEnd]).map (member 1))

end Rules

end SlotGrammar.Html
