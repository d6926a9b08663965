import SlotGrammar.Proofs.Html.Stalling

/-!
# What the rules for attributes read

The expression of an attribute takes what an attribute is read from, refuses what no
attribute begins with, and raises an error where reading stalls.

Main results:

- Theorems `oneAttr_takes`, `oneAttr_refuses` and `oneAttr_raises`: what the expression of an
  attribute does.
- Theorems `openingAttrs_take` and `openingAttrs_raise`: likewise for lists of attributes.
-/

namespace SlotGrammar.Html

open Template (Attr)
open SlotGrammar.Expr (ReadsAll ReadsFirst ReadsOn ReadsAfter Repeats)

variable {V : Type} {sc : Scene V (Piece V)} {n i : Nat} {w t : Text} {s u r : List Symbol}
  {v : Verdict V (Piece V)}

/-! ## Quotes -/

/-- A quotation mark is taken as itself. -/
theorem quote_takes :
    (Rules.quote : Rules.Expr V).Reads sc (n + 2) (.char '"' :: s) (.takes (.text ['"']) s) :=
  .required .literal

/-- Where no quotation mark follows, the demand for one raises. -/
theorem quote_raises (h : Stops (· == '"') s) :
    (Rules.quote : Rules.Expr V).Reads sc (n + 2) s (.raises s) :=
  .required (.literal_char_refuses h)

/-! ## Slots as values -/

/-- A slot as the value of an attribute, bare or between quotes. -/
def slotForm : Rules.Expr V :=
  .choice
    [.nextSlot, (Expr.sequence [Rules.quote, .nextSlot, Rules.quote]).map (Rules.member 1)]

/-- A slot without quotation marks is taken as its index. -/
theorem slotForm_bare :
    (slotForm : Rules.Expr V).Reads sc (n + 5) (.slot i :: s) (.takes (.index i) s) :=
  .choice (.here .nextSlot nofun)

/-- What is not a bare slot is left to the quotes. -/
theorem slotForm_of_sequence (hs : ∀ i u, s ≠ .slot i :: u)
    (h : ReadsAll sc (n + 2) [Rules.quote, .nextSlot, Rules.quote] s v) :
    (slotForm : Rules.Expr V).Reads sc (n + 5) s
      (v.map fun tree => Rules.member 1 tree sc.values) := by
  refine .choice (.later (.nextSlot_refuses hs) ?_)
  cases v with
  | refuses => exact .later ((Expr.Reads.sequence h).map _) .nil
  | _ => exact .here ((Expr.Reads.sequence h).map _) nofun

/-- A slot between quotation marks is taken as its index. -/
theorem slotForm_quoted :
    (slotForm : Rules.Expr V).Reads sc (n + 5) (.char '"' :: .slot i :: .char '"' :: s)
      (.takes (.index i) s) :=
  slotForm_of_sequence (by simp) (.cons quote_takes (.cons .nextSlot (.cons quote_takes .nil)))

/-- A quote without a slot after it is none. -/
theorem slotForm_refuses (h : ∀ i u, s ≠ .slot i :: u) :
    (slotForm : Rules.Expr V).Reads sc (n + 5) (.char '"' :: s) .refuses :=
  slotForm_of_sequence (by simp) (.later quote_takes (.here (.nextSlot_refuses h) rfl) rfl)

/-- Something else than a slot or a quote is an error. -/
theorem slotForm_raises (hs : ∀ i u, s ≠ .slot i :: u) (h : Stops (· == '"') s) :
    (slotForm : Rules.Expr V).Reads sc (n + 5) s (.raises s) :=
  slotForm_of_sequence hs (.here (quote_raises h) rfl)

/-- So is a slot between quotes without the second one. -/
theorem slotForm_raises_later (h : Stops (· == '"') s) :
    (slotForm : Rules.Expr V).Reads sc (n + 5) (.char '"' :: .slot i :: s) (.raises s) :=
  slotForm_of_sequence (by simp)
    (.later quote_takes (.later .nextSlot (.here (quote_raises h) rfl) rfl) rfl)

/-! ## The forms of attributes -/

/-- A name ends in front of an equals sign. -/
theorem stops_equals (s : List Symbol) : Stops Char.isAlphanum (.char '=' :: s) :=
  stops_char (by decide) s

variable [SoundLexicon]

/-- A name that ends where it stops is taken whole. -/
theorem name_takes (hw : IsToken Token.attrName w) (hs : Stops Char.isAlphanum s) :
    (Rules.token .attrName : Rules.Expr V).Reads sc (n + 1) (chars w ++ s)
      (.takes (.text w) s) :=
  scans_attrName.takes hw hs

/-- A name with an equals sign is followed by a slot. -/
theorem slotAttr_takes (hw : IsToken Token.attrName w)
    (h : (slotForm : Rules.Expr V).Reads sc (n + 5) u (.takes (.index i) r)) :
    (Rules.slotAttr : Rules.Expr V).Reads sc (n + 7) (chars w ++ .char '=' :: u)
      (.takes (.made (.attr (.slot w i))) r) :=
  (Expr.Reads.sequence (.cons (name_takes hw (stops_equals u))
    (.cons .literal (.cons h .nil)))).map _

/-- Or by something else. -/
theorem slotAttr_stops (hw : IsToken Token.attrName w)
    (h : (slotForm : Rules.Expr V).Reads sc (n + 5) u v) (hv : v.isNoTake = true) :
    (Rules.slotAttr : Rules.Expr V).Reads sc (n + 7) (chars w ++ .char '=' :: u) v := by
  have hsequence : (Expr.sequence [Rules.token .attrName, .literal ['='], slotForm]).Reads
      sc (n + 6)
      (chars w ++ .char '=' :: u) v :=
    .sequence (.later (name_takes hw (stops_equals u)) (.later .literal (.here h hv) hv) hv)
  cases v with
  | takes => cases hv
  | _ => exact hsequence.map _

/-- A name without a value is no attribute from a slot. -/
theorem slotAttr_refuses (hw : IsToken Token.attrName w) (hs : Stops Char.isAlphanum s)
    (heq : Stops (· == '=') s) :
    (Rules.slotAttr : Rules.Expr V).Reads sc (n + 7) (chars w ++ s) .refuses :=
  (Expr.Reads.sequence (.later (name_takes hw hs)
    (.here (.literal_char_refuses heq) rfl) rfl)).map _

/-- A name, an equals sign and a quoted text are a static attribute. -/
theorem staticAttr_takes (hw : IsToken Token.attrName w) (ht : IsToken Token.quotedText t) :
    (Rules.staticAttr : Rules.Expr V).Reads sc (n + 7)
      (chars w ++ .char '=' :: .char '"' :: (chars t ++ .char '"' :: s))
      (.takes (.made (.attr (.static w t))) s) :=
  (Expr.Reads.sequence (.cons (name_takes hw (stops_equals _)) (.cons .literal (.cons quote_takes
    (.cons (quotedText_takes ht (stops_char rfl s)) (.cons quote_takes .nil)))))).map _

/-- A name without a value is no static attribute. -/
theorem staticAttr_refuses (hw : IsToken Token.attrName w) (hs : Stops Char.isAlphanum s)
    (heq : Stops (· == '=') s) :
    (Rules.staticAttr : Rules.Expr V).Reads sc (n + 7) (chars w ++ s) .refuses :=
  (Expr.Reads.sequence (.later (name_takes hw hs)
    (.here (.literal_char_refuses heq) rfl) rfl)).map _

/-- A text without the second quote is an error. -/
theorem staticAttr_raises (hw : IsToken Token.attrName w) (ht : IsToken Token.quotedText t)
    (hs : Stops (· != '"') s) (hquote : Stops (· == '"') s) :
    (Rules.staticAttr : Rules.Expr V).Reads sc (n + 7)
      (chars w ++ .char '=' :: .char '"' :: (chars t ++ s)) (.raises s) :=
  (Expr.Reads.sequence (.later (name_takes hw (stops_equals _)) (.later .literal (.later quote_takes
    (.later (quotedText_takes ht hs) (.here (quote_raises hquote) rfl) rfl) rfl) rfl) rfl)).map _

/-! ## Attributes -/

/-- One attribute. -/
def oneAttr : Rules.Expr V :=
  .choice [Rules.spreadAttr, Rules.slotAttr, Rules.staticAttr, Rules.booleanAttr]

omit [SoundLexicon] in
/-- Where no slot follows, there is no spread. -/
theorem spreadAttr_refuses (h : ∀ i u, s ≠ .slot i :: u) :
    (Rules.spreadAttr : Rules.Expr V).Reads sc (n + 2) s .refuses :=
  (Expr.Reads.nextSlot_refuses h).map _

/-- What begins with a name is left to the forms with names. -/
theorem oneAttr_of_name (hw : IsToken Token.attrName w)
    (h : ReadsFirst sc (n + 7) [Rules.slotAttr, Rules.staticAttr, Rules.booleanAttr]
      (chars w ++ s) v) :
    (oneAttr : Rules.Expr V).Reads sc (n + 8) (chars w ++ s) v :=
  .choice (.later (spreadAttr_refuses (scans_attrName.ne_slot hw s)) h)

/-- The expression of an attribute takes what an attribute is read from. -/
theorem oneAttr_takes {a : Attr} (h : AttrReads a s r) :
    (oneAttr : Rules.Expr V).Reads sc (n + 8) s (.takes (.made (.attr a)) r) := by
  cases h with
  | spread => exact .choice (.here (Expr.Reads.nextSlot.map _) nofun)
  | slot hw => exact oneAttr_of_name hw (.here (slotAttr_takes hw slotForm_bare) nofun)
  | quotedSlot hw => exact oneAttr_of_name hw (.here (slotAttr_takes hw slotForm_quoted) nofun)
  | @static w t _ hw ht =>
    have hslot : ∀ i u, chars t ++ .char '"' :: r ≠ .slot i :: u := by
      cases t <;> simp
    exact oneAttr_of_name hw (.later (slotAttr_stops hw (slotForm_refuses hslot) rfl)
      (.here (staticAttr_takes hw ht) nofun))
  | boolean hw hs heq =>
    exact oneAttr_of_name hw (.later (slotAttr_refuses hw hs heq)
      (.later (staticAttr_refuses hw hs heq) (.here ((name_takes hw hs).map _) nofun)))

/-- It refuses what no attribute begins with. -/
theorem oneAttr_refuses (h : NoAttr s) :
    (oneAttr : Rules.Expr V).Reads sc (n + 8) s .refuses := by
  have hname : (Rules.token .attrName : Rules.Expr V).Reads sc (n + 5) s .refuses :=
    scans_attrName.refuses h.1
  have hslot : (Rules.slotAttr : Rules.Expr V).Reads sc (n + 7) s .refuses :=
    (Expr.Reads.sequence (.here hname rfl)).map _
  have hstatic : (Rules.staticAttr : Rules.Expr V).Reads sc (n + 7) s .refuses :=
    (Expr.Reads.sequence (.here hname rfl)).map _
  have hboolean : (Rules.booleanAttr : Rules.Expr V).Reads sc (n + 6) s .refuses := hname.map _
  exact .choice (.later (spreadAttr_refuses h.2) (.later hslot (.later hstatic
    (.later (hboolean.mono (by omega)) .nil))))

/-- It raises an error where reading an attribute stalls. -/
theorem oneAttr_raises (h : AttrStalls s r) :
    (oneAttr : Rules.Expr V).Reads sc (n + 8) s (.raises r) := by
  cases h with
  | value hw hslot hquote =>
    exact oneAttr_of_name hw (.here (slotAttr_stops hw (slotForm_raises hslot hquote) rfl) nofun)
  | quotedSlot hw hquote =>
    exact oneAttr_of_name hw (.here (slotAttr_stops hw (slotForm_raises_later hquote) rfl) nofun)
  | static hw ht hslot hs hquote =>
    exact oneAttr_of_name hw (.later (slotAttr_stops hw (slotForm_refuses hslot) rfl)
      (.here (staticAttr_raises hw ht hs hquote) nofun))

/-! ## Lists of attributes -/

omit [SoundLexicon] in
/-- What an attribute is read from does not begin with white space. -/
theorem AttrReads.stops_isBlank {a : Attr} (h : AttrReads a s r) : Stops Text.isBlank s := by
  cases h with
  | spread => exact stops_slot _ _ _
  | slot hw => exact scans_attrName.stops_append hw (fun _ => isBlank_of_startsAttr) _
  | quotedSlot hw => exact scans_attrName.stops_append hw (fun _ => isBlank_of_startsAttr) _
  | static hw _ => exact scans_attrName.stops_append hw (fun _ => isBlank_of_startsAttr) _
  | boolean hw _ _ => exact scans_attrName.stops_append hw (fun _ => isBlank_of_startsAttr) _

/-- The trees of attributes. -/
def attrTrees (as : List Attr) : List (Rules.Tree V) := as.map fun a => .made (.attr a)

/-- An attribute after white space. -/
abbrev SpacedAttr (sc : Scene V (Piece V)) (limit : Nat) :
    List Symbol → Verdict V (Piece V) → Prop :=
  ReadsAfter sc limit Rules.whiteSpace oneAttr

/-- Attributes behind white space are taken as far as the language reads them. -/
theorem spacedAttrs_take {as : List Attr} (h : AttrsReads as s r) :
    ReadsOn (SpacedAttr sc (n + 8)) s (.takes (.list (attrTrees as)) r) := by
  induction h with
  | @nil s h =>
    rcases scans_whiteSpace.split s with ⟨b, u, rfl, hb, hu⟩ | hs
    · exact .refuses (.takes (scans_whiteSpace.takes hb hu) (oneAttr_refuses (h b u rfl hb hu)))
    · exact .refuses (.refuses (scans_whiteSpace.refuses hs))
  | @cons a as b u s r hb ha _ ih =>
    have hlt := Nat.lt_trans ha.length_lt (scans_whiteSpace.length_lt hb u)
    exact .takes (.takes (scans_whiteSpace.takes hb ha.stops_isBlank) (oneAttr_takes ha)) hlt ih

/-- An error after white space is an error of the list. -/
theorem spacedAttrs_raise {b : Text} (hb : IsToken Token.whiteSpace b) (hu : Stops Text.isBlank u)
    (h : Repeats (oneAttr.Reads sc (n + 8)) (SpacedAttr sc (n + 8)) u (.raises r)) :
    ReadsOn (SpacedAttr sc (n + 8)) (chars b ++ u) (.raises r) := by
  have hspace : (Rules.whiteSpace : Rules.Expr V).Reads sc (n + 8) (chars b ++ u)
      (.takes (.text b) u) :=
    scans_whiteSpace.takes hb hu
  cases h with
  | raises h => exact .raises (.takes hspace h)
  | later h hlt hrest =>
    exact .later (.takes hspace h) (Nat.lt_trans hlt (scans_whiteSpace.length_lt hb u)) hrest

variable (sc n) in
/-- Where reading attributes stalls, an error is raised behind white space. -/
theorem attrs_raise (h : AttrsStall s r) :
    ∃ b u, s = chars b ++ u ∧ IsToken Token.whiteSpace b ∧ Stops Text.isBlank u ∧
      Repeats (oneAttr.Reads sc (n + 8)) (SpacedAttr sc (n + 8)) u (.raises r) := by
  induction h with
  | here hb h => exact ⟨_, _, rfl, hb, h.stops_isBlank, .raises (oneAttr_raises h)⟩
  | later hb ha _ ih =>
    obtain ⟨b', u', rfl, hb', hu', hraises⟩ := ih
    exact ⟨_, _, rfl, hb, ha.stops_isBlank,
      .later (oneAttr_takes ha) ha.length_lt (spacedAttrs_raise hb' hu' hraises)⟩

/-- The attributes of an opening tag, if there are any. -/
def openingAttrs : Rules.Expr V :=
  .optional ((Expr.sequence [Rules.whiteSpace, Rules.attributes]).map (Rules.member 1))

/-- What a list of attributes does, given what it does to the symbols after white space. -/
theorem openingAttrs_of_space {b : Text} (hb : IsToken Token.whiteSpace b)
    (hu : Stops Text.isBlank u)
    (h : Repeats (oneAttr.Reads sc (n + 8)) (SpacedAttr sc (n + 8)) u v) (hn : u.length ≤ n + 8) :
    (openingAttrs : Rules.Expr V).Reads sc (n + 12) (chars b ++ u) (v.optional (chars b ++ u)) := by
  have hspace : (Rules.whiteSpace : Rules.Expr V).Reads sc (n + 9) (chars b ++ u)
      (.takes (.text b) u) :=
    scans_whiteSpace.takes hb hu
  have hattrs : (Rules.attributes : Rules.Expr V).Reads sc (n + 9) u v := .separated h hn
  have hsequence : ((Expr.sequence [Rules.whiteSpace, Rules.attributes]).map
      (Rules.member 1)).Reads sc (n + 11) (chars b ++ u) v := by
    cases v with
    | takes tree r => exact (Expr.Reads.sequence (.cons hspace (.cons hattrs .nil))).map _
    | refuses => exact (Expr.Reads.sequence (.later hspace (.here hattrs rfl) rfl)).map _
    | raises => exact (Expr.Reads.sequence (.later hspace (.here hattrs rfl) rfl)).map _
  exact hsequence.optional

/-- Without white space there are no attributes. -/
theorem openingAttrs_of_stops (hs : Stops Text.isBlank s) :
    (openingAttrs : Rules.Expr V).Reads sc (n + 12) s (.takes .absent s) := by
  have hspace : (Rules.whiteSpace : Rules.Expr V).Reads sc (n + 9) s .refuses :=
    scans_whiteSpace.refuses hs
  exact ((Expr.Reads.sequence (.here hspace rfl)).map _).optional

omit [SoundLexicon] in
/-- The attributes of a list of them are that list. -/
theorem attrsOf_present (as : List Attr) :
    Rules.attrsOf (.present (.list (attrTrees as)) : Rules.Tree V) = as := by
  induction as with
  | nil => rfl
  | cons a as ih => exact congrArg (a :: ·) ih

variable (sc n) in
/-- The attributes of an opening tag are taken as a tree that holds them. -/
theorem openingAttrs_take {as : List Attr} (h : AttrsReads as s r) (hn : s.length ≤ n + 8) :
    ∃ tree, Rules.attrsOf tree = as ∧
      (openingAttrs : Rules.Expr V).Reads sc (n + 12) s (.takes tree r) := by
  cases h with
  | nil h =>
    refine ⟨.absent, rfl, ?_⟩
    rcases scans_whiteSpace.split s with ⟨b, u, rfl, hb, hu⟩ | hs
    · rw [List.length_append] at hn
      exact openingAttrs_of_space hb hu (.refuses (oneAttr_refuses (h b u rfl hb hu))) (by omega)
    · exact openingAttrs_of_stops hs
  | @cons a as b u s r hb ha has =>
    refine ⟨_, attrsOf_present (a :: as), ?_⟩
    rw [List.length_append] at hn
    exact openingAttrs_of_space hb ha.stops_isBlank
      (.takes (oneAttr_takes ha) ha.length_lt (spacedAttrs_take has)) (by omega)

/-- Where reading attributes stalls, an error is raised. -/
theorem openingAttrs_raise (h : AttrsStall s r) (hn : s.length ≤ n + 8) :
    (openingAttrs : Rules.Expr V).Reads sc (n + 12) s (.raises r) := by
  obtain ⟨b, u, rfl, hb, hu, hraises⟩ := attrs_raise sc n h
  rw [List.length_append] at hn
  exact openingAttrs_of_space hb hu hraises (by omega)

end SlotGrammar.Html
