import SlotGrammar.Proofs.Html.Attributes

/-!
# What the rules for elements read

The expression of an element takes what an element is read from, refuses what begins with
none, and raises an error where reading stalls.  How deep it nests is bounded by the number
of symbols.

Main results:

- Theorem `reads_taken`: elements and children are taken where they can be read.
- Theorem `stalls_raised`: where reading them stalls, an error is raised.
- Theorems `template_takes`, `template_refuses` and `template_raises`: what the expression of
  templates does to a whole input.
-/

namespace SlotGrammar.Html

open Template (Tag Attr Node)
open SlotGrammar.Expr (ReadsAll ReadsFirst ReadsOn)

variable {V : Type} {sc : Scene V (Piece V)} {n : Nat} {s u r : List Symbol} {b t : Text}
  {tag : Tag} {as : List Attr} {v : Verdict V (Piece V)} {tree : Rules.Tree V}

variable [SoundLexicon]

/-! ## Tags -/

/-- The expression of a tag takes what is a tag. -/
theorem tag_takes (h : TagReads tag s r) :
    (Rules.tag : Rules.Expr V).Reads sc (n + 4) s (.takes (.made (.tag tag)) r) := by
  cases h with
  | name hw hs => exact .required (.choice (.here ((scans_tagName.takes hw hs).map _) nofun))
  | slot =>
    exact .required (.choice (.later ((scans_tagName.refuses (stops_slot _ _ _)).map _)
      (.here (Expr.Reads.nextSlot.map _) nofun)))

/-- Where there is no tag, the expression of a tag raises an error. -/
theorem tag_raises (h : NoTag s) : (Rules.tag : Rules.Expr V).Reads sc (n + 4) s (.raises s) :=
  .required (.choice (.later ((scans_tagName.refuses h.1).map _)
    (.later ((Expr.Reads.nextSlot_refuses h.2).map _) .nil)))

omit [SoundLexicon] in
/-- What a tag is read from does not begin with a slash. -/
theorem TagReads.not_slash (h : TagReads tag s r) (u : List Symbol) : s ≠ .char '/' :: u := by
  cases h with
  | slot => exact nofun
  | name hw _ =>
    obtain ⟨c, t, rfl, hc, -⟩ := scans_tagName.isToken_iff.1 hw
    intro heq
    cases heq
    cases hc

/-! ## White space -/

variable (sc n) in
/-- Optional white space is taken as far as it goes. -/
theorem optionalSpace_takes (hb : ∀ c ∈ b, Text.isBlank c = true) (hs : Stops Text.isBlank s) :
    ∃ tree, (Rules.optionalSpace : Rules.Expr V).Reads sc (n + 2) (chars b ++ s)
      (.takes tree s) := by
  cases b with
  | nil => exact ⟨_, (scans_whiteSpace.refuses hs).optional⟩
  | cons c b =>
    have hspace : IsToken Token.whiteSpace (c :: b) :=
      isToken_whiteSpace_iff.2 ⟨List.cons_ne_nil c b, hb⟩
    exact ⟨_, (scans_whiteSpace.takes hspace hs).optional⟩

/-! ## Closing tags -/

/-- The name in a closing tag, or a slot for it. -/
def closingName : Rules.Expr V := .choice [Rules.token .tagName, .nextSlot]

variable (sc n) in
/-- The name in a closing tag is taken like a tag. -/
theorem closingName_takes (h : TagReads tag s r) :
    ∃ tree, (closingName : Rules.Expr V).Reads sc (n + 2) s (.takes tree r) := by
  cases h with
  | name hw hs => exact ⟨_, .choice (.here (scans_tagName.takes hw hs) nofun)⟩
  | slot =>
    exact ⟨_, .choice (.later (scans_tagName.refuses (stops_slot _ _ _)) (.here .nextSlot nofun))⟩

/-- Where there is no tag, there is no name in a closing tag. -/
theorem closingName_refuses (h : NoTag s) :
    (closingName : Rules.Expr V).Reads sc (n + 2) s .refuses :=
  .choice (.later (scans_tagName.refuses h.1) (.later (.nextSlot_refuses h.2) .nil))

omit [SoundLexicon] in
theorem stops_close (s : List Symbol) : Stops Text.isBlank (.char '>' :: s) :=
  stops_char (by decide) s

variable (sc n) in
/-- The expression of a closing tag takes what is one. -/
theorem closingTag_takes (h : ClosingReads s r) :
    ∃ tree, (Rules.closingTag : Rules.Expr V).Reads sc (n + 4) s (.takes tree r) := by
  cases h with
  | mk htag hb =>
    obtain ⟨name, hname⟩ := closingName_takes sc n htag
    obtain ⟨space, hspace⟩ := optionalSpace_takes sc n hb (stops_close r)
    exact ⟨_, .required (.sequence
      (.cons .literal (.cons hname (.cons hspace (.cons .literal .nil)))))⟩

variable (sc n) in
/-- What is no closing tag is an error. -/
theorem closingTag_total (s : List Symbol) :
    (∃ r, ClosingReads s r) ∨
      (Rules.closingTag : Rules.Expr V).Reads sc (n + 4) s (.raises s) := by
  by_cases hopen : ∃ u, s = .char '<' :: .char '/' :: u
  · obtain ⟨u, rfl⟩ := hopen
    rcases tag_split u with ⟨tag, r, htag⟩ | hno
    · obtain ⟨b, r, rfl, hb, hr⟩ := exists_run Text.isBlank r
      rcases next_or_stops '>' r with ⟨r, rfl⟩ | hclose
      · exact .inl ⟨r, .mk htag hb⟩
      · obtain ⟨name, hname⟩ := closingName_takes sc n htag
        obtain ⟨space, hspace⟩ := optionalSpace_takes sc n hb hr
        exact .inr (.required (.sequence (.later .literal (.later hname (.later hspace
          (.here (.literal_char_refuses hclose) rfl) rfl) rfl) rfl)))
    · exact .inr (.required (.sequence (.later .literal (.here (closingName_refuses hno) rfl) rfl)))
  · exact .inr (.required (.sequence
      (.here (.literal_refuses fun u heq => hopen ⟨u, heq⟩) rfl)))

/-! ## Children -/

section Children

variable {e : Rules.Expr V}

/-- White space in front of anything else is a child of its own. -/
theorem child_blank (hb : IsToken Token.whiteSpace b) (hs : Stops Text.isBlank s) :
    (Rules.child e).Reads sc (n + 3) (chars b ++ s) (.takes (.made (.node (.text b))) s) :=
  .choice (.here ((scans_whiteSpace.takes hb hs).map _) nofun)

/-- A slot is a child. -/
theorem child_slot {i : Nat} :
    (Rules.child e).Reads sc (n + 3) (.slot i :: s) (.takes (.made (.node (.slot i))) s) :=
  .choice (.later ((scans_whiteSpace.refuses (stops_slot _ _ _)).map _)
    (.here (Expr.Reads.nextSlot.map _) nofun))

/-- A run of text is a child. -/
theorem child_text (ht : IsToken Token.textRun t) (hfirst : Stops Text.isBlank (chars t ++ s))
    (hs : Stops (· != '<') s) :
    (Rules.child e).Reads sc (n + 3) (chars t ++ s) (.takes (.made (.node (.text t))) s) :=
  .choice (.later ((scans_whiteSpace.refuses hfirst).map _)
    (.later ((Expr.Reads.nextSlot_refuses (scans_textRun.ne_slot ht s)).map _)
      (.here ((scans_textRun.takes ht hs).map _) nofun)))

/-- What is no text and no slot is left to the expression of elements. -/
theorem child_of_element (hblank : Stops Text.isBlank s) (hslot : ∀ i u, s ≠ .slot i :: u)
    (htext : Stops (· != '<') s) (h : e.Reads sc (n + 1) s v) :
    (Rules.child e).Reads sc (n + 3) s (v.map fun tree => Rules.toChild tree sc.values) := by
  refine .choice (.later ((scans_whiteSpace.refuses hblank).map _)
    (.later ((Expr.Reads.nextSlot_refuses hslot).map _)
      (.later ((scans_textRun.refuses htext).map _) ?_)))
  cases v with
  | refuses => exact .later (h.map _) .nil
  | _ => exact .here (h.map _) nofun

/-- At a bracket, a child is what an element is. -/
theorem child_of_bracket (h : e.Reads sc (n + 1) (.char '<' :: s) v) :
    (Rules.child e).Reads sc (n + 3) (.char '<' :: s)
      (v.map fun tree => Rules.toChild tree sc.values) :=
  child_of_element (stops_char (by decide) s) (by simp) (stops_char rfl s) h

end Children

/-! ## Opening tags -/

/-- The rest of an element from the end of its opening tag. -/
def elementRest (e : Rules.Expr V) : Rules.Expr V :=
  .required (.choice [Rules.selfClosing, Rules.body e])

section Opening

variable {e : Rules.Expr V}

/-- The bracket of an element. -/
def openBracket : Rules.Expr V := .butNot (.literal ['<']) (.literal ['<', '/'])

omit [SoundLexicon] in
/-- A bracket opens an element unless a slash follows. -/
theorem openBracket_takes (h : ∀ u, s ≠ .char '/' :: u) :
    (openBracket : Rules.Expr V).Reads sc (n + 2) (.char '<' :: s) (.takes (.text ['<']) s) := by
  refine .butNot (.literal_refuses fun u heq => ?_) .literal
  cases heq
  exact h u rfl

omit [SoundLexicon] in
/-- What does not open an element is refused. -/
theorem openBracket_refuses (h : NoElement s) :
    (openBracket : Rules.Expr V).Reads sc (n + 2) s .refuses := by
  rcases h with h | ⟨u, rfl⟩
  · refine .butNot (.literal_refuses fun u heq => ?_) (.literal_char_refuses h)
    have := h _ _ heq
    cases this
  · exact .butNot_refuses .literal

/-- What does not begin an element is refused. -/
theorem elementOver_refuses (h : NoElement s) :
    (Rules.elementOver e).Reads sc (n + 4) s .refuses :=
  (Expr.Reads.sequence (.here (openBracket_refuses h) rfl)).map _

/-- An element is taken when the rest of it is after its opening tag. -/
theorem elementOver_takes (h : OpeningReads tag as s u) (hn : s.length ≤ n + 8)
    (hrest : (elementRest e).Reads sc (n + 12) u (.takes tree r)) :
    (Rules.elementOver e).Reads sc (n + 14) s
      (.takes (.made (.template ⟨tag, as, Rules.nodesOf tree⟩)) r) := by
  cases h with
  | mk htag has hb hu =>
    have := htag.length_lt
    rw [List.length_cons] at hn
    obtain ⟨attrs, hattrs, hreads⟩ := openingAttrs_take sc n has (by omega)
    obtain ⟨space, hspace⟩ := optionalSpace_takes sc (n + 10) hb hu
    subst hattrs
    exact (Expr.Reads.sequence (.cons (openBracket_takes htag.not_slash) (.cons (tag_takes htag)
      (.cons hreads (.cons hspace (.cons hrest .nil)))))).map _

/-- An error of the rest of an element is an error of the element. -/
theorem elementOver_raises (h : OpeningReads tag as s u) (hn : s.length ≤ n + 8)
    (hrest : (elementRest e).Reads sc (n + 12) u (.raises r)) :
    (Rules.elementOver e).Reads sc (n + 14) s (.raises r) := by
  cases h with
  | mk htag has hb hu =>
    have := htag.length_lt
    rw [List.length_cons] at hn
    obtain ⟨attrs, hattrs, hreads⟩ := openingAttrs_take sc n has (by omega)
    obtain ⟨space, hspace⟩ := optionalSpace_takes sc (n + 10) hb hu
    exact (Expr.Reads.sequence (.later (openBracket_takes htag.not_slash) (.later (tag_takes htag)
      (.later hreads (.later hspace (.here hrest rfl) rfl) rfl) rfl) rfl)).map _

/-- Where reading the opening tag stalls, an error is raised. -/
theorem elementOver_raises_opening (h : OpeningStalls s r) (hn : s.length ≤ n + 8) :
    (Rules.elementOver e).Reads sc (n + 14) s (.raises r) := by
  cases h with
  | tag hslash hno =>
    exact (Expr.Reads.sequence (.later (openBracket_takes hslash)
      (.here (tag_raises hno) rfl) rfl)).map _
  | attrs htag hstalls =>
    have := htag.length_lt
    rw [List.length_cons] at hn
    exact (Expr.Reads.sequence (.later (openBracket_takes htag.not_slash) (.later (tag_takes htag)
      (.here (openingAttrs_raise hstalls (by omega)) rfl) rfl) rfl)).map _

/-! ## The rest of an element -/

/-- A tag may close itself. -/
theorem elementRest_selfClosed :
    (elementRest e).Reads sc (n + 4) (.char '/' :: .char '>' :: s) (.takes .absent s) :=
  .required (.choice (.here (Expr.Reads.literal.map _) nofun))

/-- What does not end the opening tag at once is left to the children. -/
theorem elementRest_of_body (hs : ∀ u, s ≠ .char '/' :: .char '>' :: u)
    (h : ReadsAll sc (n + 8)
      [.required (.literal ['>']), .optional (.repeated (Rules.child e)), Rules.closingTag] s v) :
    (elementRest e).Reads sc (n + 12) s
      ((v.map fun tree => Rules.member 1 tree sc.values).required s) := by
  refine .required (.choice (.later ((Expr.Reads.literal_refuses hs).map _) ?_))
  cases v with
  | refuses => exact .later ((Expr.Reads.sequence h).map _) .nil
  | _ => exact .here ((Expr.Reads.sequence h).map _) nofun

/-- After its bracket the opening tag is followed by children and a closing tag. -/
theorem elementRest_closed
    (h : (Rules.child e).repeated.optional.Reads sc (n + 8) s (.takes tree u))
    (hclosing : ClosingReads u r) :
    (elementRest e).Reads sc (n + 12) (.char '>' :: s) (.takes tree r) := by
  obtain ⟨closing, hclosing⟩ := closingTag_takes sc (n + 4) hclosing
  exact elementRest_of_body (by simp)
    (.cons (Expr.Reads.required .literal) (.cons h (.cons hclosing .nil)))

/-- An error among the children of an element is raised. -/
theorem elementRest_raises (h : (Rules.child e).repeated.optional.Reads sc (n + 8) s (.raises r)) :
    (elementRest e).Reads sc (n + 12) (.char '>' :: s) (.raises r) :=
  elementRest_of_body (by simp) (.later (Expr.Reads.required .literal) (.here h rfl) rfl)

/-- Where no closing tag follows the children, an error is raised. -/
theorem elementRest_unclosed
    (h : (Rules.child e).repeated.optional.Reads sc (n + 8) s (.takes tree u))
    (hclosing : ¬ ∃ r, ClosingReads u r) :
    (elementRest e).Reads sc (n + 12) (.char '>' :: s) (.raises u) := by
  have hclosing := (closingTag_total sc (n + 4) u).resolve_left hclosing
  exact elementRest_of_body (by simp)
    (.later (Expr.Reads.required .literal) (.later h (.here hclosing rfl) rfl) rfl)

/-- Where a tag is not ended, an error is raised. -/
theorem elementRest_unended (hs : ∀ u, s ≠ .char '/' :: .char '>' :: u) (h : Stops (· == '>') s) :
    (elementRest e).Reads sc (n + 12) s (.raises s) :=
  elementRest_of_body hs (.here (Expr.Reads.required (.literal_char_refuses h)) rfl)

end Opening

/-! ## Elements -/

/-- The trees of children. -/
def nodeTrees (ns : List Node) : List (Rules.Tree V) := ns.map fun node => .made (.node node)

omit [SoundLexicon] in
/-- The nodes of a tree of children are those that it was made of. -/
theorem nodesOf_eq {ns : List Node} (h : tree.items = nodeTrees ns) : Rules.nodesOf tree = ns := by
  unfold Rules.nodesOf
  rw [h]
  induction ns generalizing tree with
  | nil => rfl
  | cons node ns ih => exact congrArg (node :: ·) (@ih (.list (nodeTrees ns)) rfl)

/-- Whether an expression stands for the elements inside of elements. -/
def StandsForElement (sc : Scene V (Piece V)) (e : Rules.Expr V) : Prop :=
  ∀ limit s v, (Rules.elementOver e).Reads sc limit s v → e.Reads sc (limit + 1) s v

variable {e : Rules.Expr V}

/-- What no child begins with is refused. -/
theorem child_refuses (he : StandsForElement sc e) (h : NoChild s) :
    (Rules.child e).Reads sc (n + 7) s .refuses := by
  have helement : (Rules.elementOver e).Reads sc (n + 4) s .refuses := by
    rcases h with rfl | ⟨u, rfl⟩
    · exact elementOver_refuses (.inl (stops_nil _))
    · exact elementOver_refuses (.inr ⟨u, rfl⟩)
  rcases h with rfl | ⟨u, rfl⟩
  · exact child_of_element (stops_nil _) (by simp) (stops_nil _) (he _ _ _ helement)
  · exact child_of_bracket (he _ _ _ helement)

/-- What an element or children are taken as, where attempts may nest so deep. -/
def Part.Taken (sc : Scene V (Piece V)) (e : Rules.Expr V) (s r : List Symbol) : Part → Prop
  | .element t => ∀ n ≥ 11 * s.length, (Rules.elementOver e).Reads sc (n + 14) s
      (.takes (.made (.template t)) r)
  | .children ns => ∀ n ≥ 11 * s.length, ReadsOn ((Rules.child e).Reads sc (n + 17)) s
      (.takes (.list (nodeTrees ns)) r)

/-- Elements and children are taken where they can be read. -/
theorem reads_taken (he : StandsForElement sc e) {p : Part} (h : Reads p s r) :
    p.Taken sc e s r := by
  induction h with
  | selfClosed h =>
    intro n hn
    exact elementOver_takes h (by omega) elementRest_selfClosed
  | @closed tag as ns s u v r h hns hclosing ih =>
    intro n hn
    have hlt := h.length_lt
    rw [List.length_cons] at hlt
    obtain ⟨m, rfl⟩ : ∃ m, n = m + 11 := ⟨n - 11, by omega⟩
    obtain ⟨tree, htree, hreads⟩ := Expr.Reads.optional_repeated (ih m (by omega)) (by omega)
    rw [← nodesOf_eq htree]
    exact elementOver_takes (n := m + 11) h (by omega) (elementRest_closed hreads hclosing)
  | nil h =>
    intro n _
    exact .refuses (child_refuses he h)
  | @blank b ns s r hb hs _ ih =>
    intro n hn
    have hlt := scans_whiteSpace.length_lt hb s
    exact .takes (child_blank hb hs) hlt (ih n (by omega))
  | @text t ns s r ht hfirst hs _ ih =>
    intro n hn
    have hlt := scans_textRun.length_lt ht s
    exact .takes (child_text ht hfirst hs) hlt (ih n (by omega))
  | slot _ ih =>
    intro n hn
    rw [List.length_cons] at hn
    exact .takes child_slot (Nat.lt_succ_self _) (ih n (by omega))
  | @element t ns s u r ht hns ih ih' =>
    intro n hn
    have hlt := ht.length_le
    rw [Part.least] at hlt
    obtain ⟨s, rfl⟩ := ht.exists_bracket
    exact .takes (child_of_bracket (he _ _ _ (ih n hn))) hlt (ih' n (by omega))

/-- What becomes of an element or of children that are not read to their end, where attempts
may nest so deep. -/
def Goal.Raised (sc : Scene V (Piece V)) (e : Rules.Expr V) (s r : List Symbol) : Goal → Prop
  | .element => ∀ n ≥ 11 * s.length, (Rules.elementOver e).Reads sc (n + 14) s (.raises r)
  | .children => ∀ n ≥ 11 * s.length,
    ReadsOn ((Rules.child e).Reads sc (n + 17)) s (.raises r)

/-- Where reading elements and children stalls, an error is raised. -/
theorem stalls_raised (he : StandsForElement sc e) {goal : Goal} (h : Stalls goal s r) :
    goal.Raised sc e s r := by
  induction h with
  | opening h =>
    intro n hn
    exact elementOver_raises_opening h (by omega)
  | unended h hself hclose =>
    intro n hn
    exact elementOver_raises h (by omega) (elementRest_unended hself hclose)
  | inside h _ ih =>
    intro n hn
    have hlt := h.length_lt
    rw [List.length_cons] at hlt
    obtain ⟨m, rfl⟩ : ∃ m, n = m + 11 := ⟨n - 11, by omega⟩
    exact elementOver_raises h (by omega)
      (elementRest_raises (Expr.Reads.optional_repeated_raises (ih m (by omega)) (by omega)))
  | unclosed h hns hclosing =>
    intro n hn
    have hlt := h.length_lt
    rw [List.length_cons] at hlt
    obtain ⟨m, rfl⟩ : ∃ m, n = m + 11 := ⟨n - 11, by omega⟩
    obtain ⟨tree, -, hreads⟩ := Expr.Reads.optional_repeated
      (reads_taken he hns m (by omega)) (by omega)
    exact elementOver_raises h (by omega) (elementRest_unclosed hreads hclosing)
  | @blank b s r hb hs _ ih =>
    intro n hn
    have hlt := scans_whiteSpace.length_lt hb s
    exact .later (child_blank hb hs) hlt (ih n (by omega))
  | @text t s r ht hfirst hs _ ih =>
    intro n hn
    have hlt := scans_textRun.length_lt ht s
    exact .later (child_text ht hfirst hs) hlt (ih n (by omega))
  | slot _ ih =>
    intro n hn
    rw [List.length_cons] at hn
    exact .later child_slot (Nat.lt_succ_self _) (ih n (by omega))
  | here h ih =>
    intro n hn
    obtain ⟨s, rfl⟩ := h.exists_bracket
    exact .raises (child_of_bracket (he _ _ _ (ih n hn)))
  | later ht _ ih =>
    intro n hn
    have hlt := ht.length_le
    rw [Part.least] at hlt
    have htaken := reads_taken he ht n hn
    obtain ⟨s, rfl⟩ := ht.exists_bracket
    exact .later (child_of_bracket (he _ _ _ htaken)) hlt (ih n (by omega))

/-! ## Whole inputs -/

/-- Inside of an element its name stands for elements. -/
theorem standsForElement (h : sc.Resolves "element" (Rules.elementOver (.ref "element"))) :
    StandsForElement sc (.ref "element") :=
  fun _ _ _ hreads => .ref h hreads

/-- The expression of an element takes what is one. -/
theorem element_takes {template : Template} (h : Reads (.element template) s r)
    (hn : 11 * s.length ≤ n) :
    (Rules.element : Rules.Expr V).Reads sc (n + 15) s (.takes (.made (.template template)) r) :=
  .recursive fun _ hp => reads_taken (standsForElement hp) h n hn

/-- The expression of an element raises an error where an element stalls. -/
theorem element_raises (h : Stalls .element s r) (hn : 11 * s.length ≤ n) :
    (Rules.element : Rules.Expr V).Reads sc (n + 15) s (.raises r) :=
  .recursive fun _ hp => stalls_raised (standsForElement hp) h n hn

/-- The expression of an element refuses what does not begin one. -/
theorem element_refuses (h : NoElement s) :
    (Rules.element : Rules.Expr V).Reads sc (n + 5) s .refuses :=
  .recursive fun _ _ => elementOver_refuses h

/-- The expression of templates ends as its parts do, if one of them takes nothing. -/
theorem template_of_sequence (hv : v.isNoTake = true) (h : ReadsAll sc (n + 15)
    [Rules.optionalSpace, Rules.element, Rules.optionalSpace, .inputEnd] s v) :
    (Rules.template : Rules.Expr V).Reads sc (n + 17) s v := by
  refine .cached ?_ true
  cases v with
  | takes => cases hv
  | refuses => exact (Expr.Reads.sequence h).map _
  | raises => exact (Expr.Reads.sequence h).map _

omit [SoundLexicon] in
theorem stops_bracket (s : List Symbol) : Stops Text.isBlank (.char '<' :: s) :=
  stops_char (by decide) s

variable (sc n) in
/-- The expression of templates takes the input that a template is read from. -/
theorem template_takes {template : Template} (h : ReadsDocument template s)
    (hn : 11 * s.length ≤ n) :
    (Rules.template : Rules.Expr V).Reads sc (n + 17) s
      (.takes (.made (.template template)) []) := by
  cases h with
  | @mk b b' s hb ht hb' =>
    rw [List.length_append] at hn
    obtain ⟨u, rfl⟩ := ht.exists_bracket
    obtain ⟨before, hbefore⟩ := optionalSpace_takes sc (n + 13) hb (stops_bracket u)
    obtain ⟨after, hafter⟩ := optionalSpace_takes sc (n + 13) hb' (stops_nil _)
    rw [List.append_nil] at hafter
    exact .cached ((Expr.Reads.sequence (.cons hbefore (.cons (element_takes ht (by omega))
      (.cons hafter (.cons .inputEnd .nil))))).map _) true

variable (sc n) in
/-- It refuses an input that begins with no element or goes on after one. -/
theorem template_refuses (h : RefusesDocument s) (hn : 11 * s.length ≤ n) :
    (Rules.template : Rules.Expr V).Reads sc (n + 17) s .refuses := by
  cases h with
  | before hb hs hno =>
    obtain ⟨before, hbefore⟩ := optionalSpace_takes sc (n + 13) hb hs
    exact template_of_sequence rfl (.later hbefore
      (.here (element_refuses (n := n + 10) hno) rfl) rfl)
  | @after t b b' s r hb ht hb' hr hne =>
    rw [List.length_append] at hn
    obtain ⟨u, rfl⟩ := ht.exists_bracket
    obtain ⟨before, hbefore⟩ := optionalSpace_takes sc (n + 13) hb (stops_bracket u)
    obtain ⟨after, hafter⟩ := optionalSpace_takes sc (n + 13) hb' hr
    exact template_of_sequence rfl (.later hbefore (.later (element_takes ht (by omega))
      (.later hafter (.here (.inputEnd_refuses hne) rfl) rfl) rfl) rfl)

variable (sc n) in
/-- It raises an error where reading the element stalls. -/
theorem template_raises (h : StallsDocument s r) (hn : 11 * s.length ≤ n) :
    (Rules.template : Rules.Expr V).Reads sc (n + 17) s (.raises r) := by
  cases h with
  | @mk b s r hb h =>
    rw [List.length_append] at hn
    obtain ⟨u, rfl⟩ := h.exists_bracket
    obtain ⟨before, hbefore⟩ := optionalSpace_takes sc (n + 13) hb (stops_bracket u)
    exact template_of_sequence rfl (.later hbefore (.here (element_raises h (by omega)) rfl) rfl)

end SlotGrammar.Html
