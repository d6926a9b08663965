import SlotGrammar.Html.Template

/-!
# Elements

An element with the values of one call filled in.  Its named attributes are
kept in the order of their names, each name once.

Main results:

- Theorem `find?_insert`: an inserted attribute is seen under its name, where it
  replaces an earlier one, and nowhere else.
-/

namespace SlotGrammar.Html

/-- The tag of an element: a name, or an interpolated value. -/
inductive Element.Tag (V : Type) where
  | name (name : Text)
  | value (v : V)

/-- The value of an attribute. -/
inductive Element.AttrValue (V : Type) where
  | text (t : Text)
  /-- Present without a value. -/
  | flag
  | value (v : V)

/-- An attribute with its name. -/
abbrev Element.Attr (V : Type) := Text × Element.AttrValue V

/-- Named attributes in the order of their names. -/
structure Element.Attrs (V : Type) where
  entries : List (Element.Attr V)
  sorted : entries.Pairwise fun a b => a.1 < b.1

namespace Element.Attrs

variable {V : Type}

/-- No attributes. -/
def empty : Attrs V := ⟨[], .nil⟩

instance : Inhabited (Attrs V) := ⟨empty⟩

/-! ## Inserting into sorted entries -/

/-- Puts an attribute where its name belongs, in place of an earlier one. -/
def insertSorted (name : Text) (value : AttrValue V) :
    List (Attr V) → List (Attr V)
  | [] => [(name, value)]
  | e :: es =>
    if name < e.1 then (name, value) :: e :: es
    else if e.1 = name then (name, value) :: es
    else e :: insertSorted name value es

theorem mem_insertSorted {name : Text} {value : AttrValue V} {es : List (Attr V)}
    {e : Attr V} (h : e ∈ insertSorted name value es) :
    e = (name, value) ∨ e ∈ es := by
  induction es with
  | nil => simpa [insertSorted] using h
  | cons d ds ih =>
    rw [insertSorted] at h
    split at h
    · simpa using h
    · split at h
      · rcases List.mem_cons.mp h with h | h
        · exact .inl h
        · exact .inr (List.mem_cons_of_mem _ h)
      · rcases List.mem_cons.mp h with h | h
        · exact .inr (h ▸ List.mem_cons_self)
        · exact (ih h).imp_right (List.mem_cons_of_mem _)

theorem sorted_insertSorted {name : Text} {value : AttrValue V} {es : List (Attr V)}
    (h : es.Pairwise fun a b => a.1 < b.1) :
    (insertSorted name value es).Pairwise fun a b => a.1 < b.1 := by
  induction es with
  | nil => simp [insertSorted]
  | cons d ds ih =>
    rw [List.pairwise_cons] at h
    rw [insertSorted]
    split
    · next hlt =>
      refine List.pairwise_cons.mpr ⟨fun e he => ?_, List.pairwise_cons.mpr h⟩
      rcases List.mem_cons.mp he with he | he
      · exact he ▸ hlt
      · exact List.lt_trans hlt (h.1 e he)
    · next hnlt =>
      split
      · next heq => exact List.pairwise_cons.mpr ⟨fun e he => heq ▸ h.1 e he, h.2⟩
      · next hne =>
        refine List.pairwise_cons.mpr ⟨fun e he => ?_, ih h.2⟩
        rcases mem_insertSorted he with he | he
        · subst he
          exact Decidable.byContradiction fun hge =>
            hne (List.le_antisymm (List.not_lt.mp hnlt) (List.not_lt.mp hge))
        · exact h.1 e he

/-! ## Operations -/

/-- Adds an attribute, replacing the one of its name. -/
def insert (attrs : Attrs V) (name : Text) (value : AttrValue V) : Attrs V :=
  ⟨insertSorted name value attrs.entries, sorted_insertSorted attrs.sorted⟩

/-- Adds attributes one after the other. -/
def insertAll (attrs : Attrs V) (more : List (Attr V)) : Attrs V :=
  more.foldl (fun attrs e => attrs.insert e.1 e.2) attrs

/-- The value of an attribute among entries. -/
def lookUp (name : Text) : List (Attr V) → Option (AttrValue V)
  | [] => none
  | e :: es => if e.1 = name then some e.2 else lookUp name es

/-- The value of an attribute. -/
def find? (attrs : Attrs V) (name : Text) : Option (AttrValue V) := lookUp name attrs.entries

@[simp]
theorem find?_empty (name : Text) : (empty : Attrs V).find? name = none := rfl

/-- An inserted attribute is seen under its name and nowhere else. -/
theorem find?_insert (attrs : Attrs V) (name n : Text) (value : AttrValue V) :
    (attrs.insert name value).find? n = if name = n then some value else attrs.find? n := by
  obtain ⟨es, hs⟩ := attrs
  simp only [find?, insert]
  clear hs
  induction es with
  | nil => simp [insertSorted, lookUp]
  | cons d ds ih =>
    rw [insertSorted]
    split
    · rfl
    · split
      · next heq =>
        by_cases hn : name = n
        · simp [lookUp, hn]
        · simp [lookUp, hn, heq]
      · next hne =>
        by_cases hd : d.1 = n
        · have : name ≠ n := fun h => hne (hd.trans h.symm)
          simp [lookUp, hd, this]
        · simp [lookUp, hd, ih]

end Element.Attrs

/-- A node below an element, with values filled in. -/
inductive Element.Node (V : Type) where
  | text (t : Text)
  | value (v : V)
  | element (tag : Element.Tag V) (attrs : Element.Attrs V) (spread : List V)
      (children : List (Element.Node V))

/-- An element with the values of one call. -/
structure Element (V : Type) where
  tag : Element.Tag V
  attrs : Element.Attrs V
  /-- Values that stand in place of attributes, in source order. -/
  spread : List V
  children : List (Element.Node V)

/-- An element as a node below another one. -/
def Element.toNode {V : Type} (e : Element V) : Element.Node V :=
  .element e.tag e.attrs e.spread e.children

end SlotGrammar.Html
