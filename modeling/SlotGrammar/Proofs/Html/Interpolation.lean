import Mathlib.Order.Bounds.Defs
import SlotGrammar.Datum
import SlotGrammar.Proofs.Html.Dialect
import SlotGrammar.Proofs.Html.Histories
import SlotGrammar.Proofs.Html.Merging

/-!
# Values of a call

What a parser of elements reads in an input has nothing to do with the values of the call: they
are filled in afterwards.  So the same slots lack a value whatever the values are, values come
out of a call as they went in, and whether they are collected or merged shows in attributes only.

Main results:

- Theorem `exists_settles_values`: a new parser comes to the same answer whatever the values.
- Theorem `Serves.exists_answer`: what the calls of a parser return after any uses of it.
- Theorem `parse?_missing`: the slots that need a value, and the one that is reported.
- Theorem `parse?_map`: changing all values changes them in the element, and nothing else.
- Theorem `parseSpreading?_merges`: how values that are merged differ from collected ones.
-/

namespace SlotGrammar

/-- Whether a slot of an input needs a value: it stands for anything but the name in a closing
tag. -/
def Fragments.NeedsValue (input : Fragments) (i : Nat) : Prop :=
  i < input.slotCount ∧ input.closesAt i = false
deriving Decidable

namespace Html.Parser

variable {V : Type}

/-! ## Values do not show in what is read -/

/-- What the recognizer of an expression that reads no values comes to, it comes to with all
values. -/
theorem Settles.of_values {e : Rules.Expr V} (h : Grammar.Transparent e) {input : Fragments}
    {values : List V} {window : ErrorWindow} {ending : Ending V (Piece V)}
    (hsettles : Settles e ⟨input, values, window⟩ ending) (values' : List V) :
    Settles e ⟨input, values', window⟩ ending := by
  let ρ := (Grammar.addPair e Rules.toResolved "template" "element").target
  obtain ⟨hmakes, -⟩ := Grammar.makes_pair e "template" "element" Rules.toResolved h.closed
    (by decide) fun _ _ => False
  have hmade : MadeFrom ρ Shape.Blind (Grammar.pair e Rules.toResolved).1 := by
    refine ⟨(· = fun _ _ => False), ?_, _, e, rfl, h.blind, hmakes⟩
    rintro S rfl n q hq
    exact hq.elim
  have hblind : ∀ handle shape, MadeFrom ρ Shape.Blind (.node handle shape) → shape.Blind := by
    intro handle shape hnode
    obtain ⟨shape', ps, rfl, hshape, -⟩ := hnode.node
    exact hshape.withParts ps
  intro limit hlimit
  obtain ⟨c, hc, rfl⟩ := Option.map_eq_some_iff.1 (hsettles limit hlimit)
  let st : Setting V := View.plain ⟨input, values, window⟩
  let st' : Setting V := View.plain ⟨input, values', window⟩
  have hinput : st.input = st'.input := rfl
  have hwindow : True → st.window = st'.window := fun _ => rfl
  obtain ⟨c', hc', halike⟩ := course_alike (closed_madeFrom ρ Shape.Blind)
    (fun handle shape hnode => (hblind handle shape hnode).steady)
    (closed_madeFrom ρ Shape.Blind) hblind (Nat.le_refl limit) hinput hwindow hmade hc
  exact Option.map_eq_some_iff.2 ⟨c', hc', (halike.ending.eq (.inr hmade) trivial).symm⟩

/-- A new parser comes to the same answer whatever the values. -/
theorem exists_settles_values [SoundLexicon] (input : Fragments) (window : ErrorWindow) :
    ∃ ending : Ending V (Piece V), Answers input ending ∧
      ∀ values, Settles Rules.template ⟨input, values, window⟩ ending := by
  obtain ⟨ending, hanswers, hsettles⟩ := exists_settles (V := V) input [] window
  exact ⟨ending, hanswers, hsettles.of_values template_transparent⟩

/-! ## Answers with values filled in -/

/-- The element of an answer about a template, with the values of a call. -/
def fillInto (spreading : Spreading V) (values : List V) :
    Except ParseError (Option (Template × Position)) → Except Failure (Element V)
  | .error e => .error (.parse e)
  | .ok none => .error .noMatch
  | .ok (some (t, _)) => (t.resolveWith spreading values).mapError .resolve

/-- Filling values in gives an element when the template is resolved to it. -/
theorem fill_eq_ok_iff {result : Except MissingValue (Element V)} {e : Element V} :
    result.mapError Failure.resolve = .ok e ↔ result = .ok e := by
  cases result <;> simp [Except.mapError]

/-- It fails when resolving does. -/
theorem fill_eq_error_iff {result : Except MissingValue (Element V)} {failure : Failure} :
    result.mapError Failure.resolve = .error failure ↔
      ∃ e, result = .error e ∧ failure = .resolve e := by
  cases result <;> simp [Except.mapError, eq_comm]

theorem elementOf_resolvedWith {input : Fragments} {ending : Ending V (Piece V)}
    (h : Answers input ending) (values : List V) :
    elementOf (resolvedWith values ending) = fillInto .collect values (templateOf ending) := by
  cases h with
  | @found t stop ht =>
    show elementOf (.ok (some ⟨.made (.element (t.resolve values)), stop⟩)) =
      (t.resolve values).mapError .resolve
    cases t.resolve values <;> rfl
  | refused => rfl
  | raised => rfl

/-- Values that are changed are changed in the element, and failures stay. -/
theorem fillInto_map {W : Type} (g : V → W) (values : List V)
    (answer : Except ParseError (Option (Template × Position))) :
    fillInto .collect (values.map g) answer =
      (fillInto .collect values answer).map (Element.map g) := by
  match answer with
  | .error _ => rfl
  | .ok none => rfl
  | .ok (some (t, _)) =>
    show (t.resolve (values.map g)).mapError _ = ((t.resolve values).mapError _).map _
    rw [resolve_map (changes_map g values t.slots)]
    cases t.resolve values <;> rfl

theorem exists_own_of_fillInto {values : List V}
    {answer : Except ParseError (Option (Template × Position))} {e : Element V}
    (h : fillInto .collect values answer = .ok e) :
    ∃ own : Element {v // v ∈ values}, e = own.map Subtype.val := by
  match answer with
  | .error _ => cases h
  | .ok none => cases h
  | .ok (some (t, _)) => exact exists_own_values (fill_eq_ok_iff.1 h)

/-- After any uses of a parser its calls return what a new parser finds, with their values
filled in. -/
theorem Serves.exists_answer [SoundLexicon] {p : Parser V} (hp : p.Serves Rules.template)
    (input : Fragments) (options : ParseOptions) : ∃ answer, ∀ values,
      (∃ q, p.template? input values options = some (answer, q)) ∧
      ∃ q, p.parse? input values options = some (fillInto .collect values answer, q) := by
  obtain ⟨ending, hanswers, hsettles⟩ := exists_settles_values (V := V) input options.errorWindow
  refine ⟨templateOf ending, fun values => ?_⟩
  obtain ⟨q, htemplate, -⟩ := hp.template? template_transparent options (hsettles values)
  obtain ⟨q', hparse, -⟩ := hp.parse? template_transparent options (hsettles values)
  rw [elementOf_resolvedWith hanswers] at hparse
  exact ⟨⟨q, htemplate⟩, ⟨q', hparse⟩⟩

/-- After any uses a parser makes the element of the template that an input is read as. -/
theorem Serves.parse?_of_readsDocument [SoundLexicon] {p : Parser V} (hp : p.Serves Rules.template)
    {input : Fragments} {t : Template} (h : ReadsDocument t input.symbols) (values : List V)
    (options : ParseOptions) :
    ∃ q, p.parse? input values options = some ((t.resolve values).mapError .resolve, q) := by
  obtain ⟨stop, hsettles⟩ := settles_of_readsDocument values options.errorWindow h
  obtain ⟨q, hparse, -⟩ := hp.parse? template_transparent options hsettles
  rw [elementOf_resolvedWith (.found h)] at hparse
  exact ⟨q, hparse⟩

/-! ## Calls after any uses -/

section Calls

variable [AttrSource V] {p : Parser V}

theorem parseSpreading?_eq_map (p : Parser V) (input : Fragments) (values : List V) :
    p.parseSpreading? input values = (p.template? input values .standard).map fun (answer, p) =>
      (fillInto (.merge AttrSource.attrsOf) values answer, p) := rfl

/-- Whatever a parser was called for, it is still one for templates. -/
theorem Serves.of_runAll? [SoundLexicon] (hp : p.Serves Rules.template) {calls : List (Call V)}
    {answers : List (Answer V)} {p' : Parser V} (h : p.runAll? calls = some (answers, p')) :
    p'.Serves Rules.template := by
  induction calls generalizing p answers with
  | nil =>
    cases h
    exact hp
  | cons c calls ih =>
    obtain ⟨answer, mid, hcall, hmid, -⟩ := hp.call c
    rw [runAll?, hcall, Option.bind_some] at h
    obtain ⟨⟨answers', p''⟩, hrest, heq⟩ := Option.map_eq_some_iff.1 h
    cases heq
    exact ih hmid hrest

/-- Every history of a new parser leads to one that is still for templates. -/
theorem exists_reached [SoundLexicon] (calls : List (Call V)) :
    ∃ answers p, create.runAll? calls = some (answers, p) ∧ p.Serves Rules.template := by
  obtain ⟨answers, p, hrun, -⟩ := serves_create.runAll calls
  exact ⟨answers, p, hrun, serves_create.of_runAll? hrun⟩

/-! ## Slots that need values -/

section Missing

variable {input : Fragments} {t : Template}

/-- The slots of a template that is read are those that need a value. -/
theorem mem_slots_iff (h : ReadsDocument t input.symbols) {i : Nat} :
    i ∈ t.slots ↔ input.NeedsValue i := by
  rw [h.slots_eq, openSlots_symbols, List.mem_filter, List.mem_range, Bool.not_eq_true']
  exact Iff.rfl

/-- The first of them without a value is the least one. -/
theorem find?_slots_iff (h : ReadsDocument t input.symbols) {supplied i : Nat} :
    t.slots.find? (supplied ≤ ·) = some i ↔
      IsLeast {j | input.NeedsValue j ∧ supplied ≤ j} i := by
  rw [h.slots_eq, openSlots_symbols, List.find?_filter, List.find?_range_eq_some]
  simp only [decide_eq_true_eq, Bool.not_eq_true', List.mem_range, decide_eq_false_iff_not]
  constructor
  · rintro ⟨⟨hcloses, hi⟩, hlt, hbefore⟩
    refine ⟨⟨⟨hlt, hcloses⟩, hi⟩, fun j ⟨⟨_, hcloses'⟩, hj⟩ => ?_⟩
    exact Nat.not_lt.1 fun hji => hbefore j hji ⟨hcloses', hj⟩
  · rintro ⟨⟨⟨hlt, hcloses⟩, hi⟩, hleast⟩
    refine ⟨⟨hcloses, hi⟩, hlt, fun j hji ⟨hcloses', hj⟩ => ?_⟩
    exact absurd (hleast ⟨⟨Nat.lt_trans hji hlt, hcloses'⟩, hj⟩) (Nat.not_le.2 hji)

variable {values₀ : List V} {options₀ : ParseOptions} {stop : Position} {q₀ : Parser V}

/-- An input that is matched gives an element exactly when every slot has a value that does not
stand for the name in a closing tag.  Otherwise the least slot without one is reported, and
values that no slot needs change nothing. -/
theorem parse?_missing [SoundLexicon]
    (hfound : create.template? input values₀ options₀ = some (.ok (some (t, stop)), q₀))
    (calls : List (Call V)) :
    ∃ answers p, create.runAll? calls = some (answers, p) ∧
      (∀ values options, ∃ result q, p.parse? input values options = some (result, q) ∧
        ((∃ e, result = .ok e) ↔ ∀ i, input.NeedsValue i → i < values.length) ∧
        ∀ failure, result = .error failure ↔
          ∃ i, IsLeast {j | input.NeedsValue j ∧ values.length ≤ j} i ∧
            failure = .resolve ⟨i, values.length⟩) ∧
      ∀ values values' options options',
        (∀ i, input.NeedsValue i → ∃ v, values[i]? = some v ∧ values'[i]? = some v) →
        ∃ e q q', p.parse? input values options = some (.ok e, q) ∧
          p.parse? input values' options' = some (.ok e, q') := by
  have hreads := readsDocument_of_template? hfound
  obtain ⟨answers, p, hrun, hp⟩ := exists_reached calls
  refine ⟨answers, p, hrun, fun values options => ?_, fun values values' options options' h => ?_⟩
  · obtain ⟨q, hparse⟩ := hp.parse?_of_readsDocument hreads values options
    have hresolves := resolveWith_resolves .collect values t
    refine ⟨_, q, hparse, ?_, fun failure => ?_⟩
    · simp only [fill_eq_ok_iff, ← mem_slots_iff hreads]
      exact hresolves.exists_ok_iff
    · rw [fill_eq_error_iff]
      simp only [← find?_slots_iff hreads]
      constructor
      · rintro ⟨e, he, rfl⟩
        obtain ⟨hfirst, hsupplied⟩ := hresolves.error_iff.1 he
        exact ⟨e.index, hfirst, by rw [← hsupplied]⟩
      · rintro ⟨i, hfirst, rfl⟩
        exact ⟨_, hresolves.error_iff.2 ⟨hfirst, rfl⟩, rfl⟩
  · obtain ⟨e, he, he'⟩ := exists_resolve_of_agree fun i hi =>
      h i ((mem_slots_iff hreads).1 hi)
    obtain ⟨q, hparse⟩ := hp.parse?_of_readsDocument hreads values options
    obtain ⟨q', hparse'⟩ := hp.parse?_of_readsDocument hreads values' options'
    rw [he] at hparse
    rw [he'] at hparse'
    exact ⟨e, q, q', hparse, hparse'⟩

/-- An element in a slot, whose closing tag takes a slot as well. -/
def slotTag : Fragments := ⟨[['<'], ['>', '<', '/'], ['>']]⟩

/-- The first slot is missed, the second one is not. -/
theorem parse?_missing_slotTag : ∃ stop q₀,
    create.template? slotTag ([] : List Datum) .standard =
      some (.ok (some (⟨.slot 0, [], []⟩, stop)), q₀) ∧
    ∃ answers p, create.runAll? ([] : List (Call Datum)) = some (answers, p) ∧
      (∃ q, p.parse? slotTag [] .standard = some (.error (.resolve ⟨0, 0⟩), q)) ∧
      ∃ e q, p.parse? slotTag [.list []] .standard = some (.ok e, q) := by
  have hopening : OpeningReads (.slot 0) []
      [.char '<', .slot 0, .char '>', .char '<', .char '/', .slot 1, .char '>']
      [.char '>', .char '<', .char '/', .slot 1, .char '>'] :=
    .mk (b := []) .slot (.nil_of_end (b := []) (by simp) (.inr rfl) _) (by simp)
      (stops_char (by decide) _)
  have hclosing : ClosingReads [.char '<', .char '/', .slot 1, .char '>'] [] :=
    .mk (b := []) .slot (by simp)
  have hreads : Reads (.element ⟨.slot 0, [], []⟩) _ (chars []) :=
    .closed hopening (.nil (.inr ⟨_, rfl⟩)) hclosing
  have hdocument : ReadsDocument ⟨.slot 0, [], []⟩ slotTag.symbols :=
    .mk (b := []) (by simp) hreads (by simp)
  obtain ⟨stop, q₀, hfound⟩ := template?_of_readsDocument (V := Datum) hdocument [] .standard
  obtain ⟨answers, p, hrun, hresult, -⟩ := parse?_missing hfound []
  refine ⟨stop, q₀, hfound, answers, p, hrun, ?_, ?_⟩
  · obtain ⟨result, q, hparse, -, hfails⟩ := hresult [] .standard
    have hleast : IsLeast {j | slotTag.NeedsValue j ∧ 0 ≤ j} 0 :=
      ⟨⟨by decide, Nat.le_refl 0⟩, fun j _ => Nat.zero_le j⟩
    rw [(hfails (.resolve ⟨0, 0⟩)).2 ⟨0, hleast, rfl⟩] at hparse
    exact ⟨q, hparse⟩
  · obtain ⟨result, q, hparse, hok, -⟩ := hresult [.list []] .standard
    obtain ⟨e, rfl⟩ := hok.2 fun i hi => by
      match i, hi with
      | 0, _ => exact Nat.one_pos
      | 1, hi => cases hi.2
      | i + 2, hi => exact absurd hi.1 (Nat.not_lt.2 (Nat.le_add_left 2 i))
    exact ⟨e, q, hparse⟩

end Missing

/-! ## Values that are changed -/

/-- Values are opaque: whatever a parser was used for before, a call with every value changed
comes to the element with every value changed, or to the same failure, and an element holds
values of its own call only. -/
theorem parse?_map [SoundLexicon] (calls : List (Call V)) (input : Fragments) (values : List V)
    (g : V → V) (options : ParseOptions) :
    ∃ answers p, create.runAll? calls = some (answers, p) ∧
      ∃ result q q', p.parse? input values options = some (result, q) ∧
        p.parse? input (values.map g) options = some (result.map (Element.map g), q') ∧
        ∀ e, result = .ok e → ∃ own : Element {v // v ∈ values}, e = own.map Subtype.val := by
  obtain ⟨answers, p, hrun, hp⟩ := exists_reached calls
  obtain ⟨answer, hanswer⟩ := hp.exists_answer input options
  obtain ⟨-, ⟨q, hparse⟩⟩ := hanswer values
  obtain ⟨-, ⟨q', hparse'⟩⟩ := hanswer (values.map g)
  rw [fillInto_map] at hparse'
  exact ⟨answers, p, hrun, _, q, q', hparse, hparse', fun e => exists_own_of_fillInto⟩

/-! ## Values that are merged -/

/-- Values in place of attributes merged or collected: a call fails for both reasons alike, or
comes to two elements with the same tags and children, of which the one with merged values has
none collected and every attribute as it was last contributed.  The two are the same where no
value stands in place of an attribute. -/
theorem parseSpreading?_merges [SoundLexicon] (calls : List (Call V)) (input : Fragments)
    (values : List V) :
    ∃ answers p, create.runAll? calls = some (answers, p) ∧
      ∃ plain merged q q', p.parse? input values .standard = some (plain, q) ∧
        p.parseSpreading? input values = some (merged, q') ∧
        ((∃ failure, plain = .error failure ∧ merged = .error failure) ∨
          ∃ e e' t stop, plain = .ok e ∧ merged = .ok e' ∧
            (∃ q, p.template? input values .standard = some (.ok (some (t, stop)), q)) ∧
            Merges AttrSource.attrsOf values t e e' ∧
            ((∀ i, .spread i ∉ t.allAttrs) → e' = e)) := by
  obtain ⟨answers, p, hrun, hp⟩ := exists_reached calls
  obtain ⟨answer, hanswer⟩ := hp.exists_answer input .standard
  obtain ⟨⟨q', htemplate⟩, ⟨q, hparse⟩⟩ := hanswer values
  have hspreading : p.parseSpreading? input values =
      some (fillInto (.merge AttrSource.attrsOf) values answer, q') := by
    rw [parseSpreading?_eq_map, htemplate, Option.map_some]
  refine ⟨answers, p, hrun, _, _, q, q', hparse, hspreading, ?_⟩
  match answer with
  | .error e => exact .inl ⟨.parse e, rfl, rfl⟩
  | .ok none => exact .inl ⟨.noMatch, rfl, rfl⟩
  | .ok (some (t, stop)) =>
    have hplain := resolveWith_resolves .collect values t
    have hmerged := resolveWith_resolves (.merge AttrSource.attrsOf) values t
    cases h : t.resolveWith .collect values with
    | error e =>
      have h' := hmerged.error_iff.2 (hplain.error_iff.1 h)
      exact .inl ⟨.resolve e, fill_eq_error_iff.2 ⟨e, h, rfl⟩, fill_eq_error_iff.2 ⟨e, h', rfl⟩⟩
    | ok e =>
      obtain ⟨e', h'⟩ := hmerged.exists_ok_iff.2 (hplain.exists_ok_iff.1 ⟨e, h⟩)
      refine .inr ⟨e, e', t, stop, fill_eq_ok_iff.2 h, fill_eq_ok_iff.2 h', ⟨q', htemplate⟩,
        resolveWith_merges h h', fun hno => ?_⟩
      rw [resolveWith_eq_of_no_spread hno, h] at h'
      exact (Except.ok.inj h').symm

end Calls

end Html.Parser

end SlotGrammar
