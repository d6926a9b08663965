import SlotGrammar.Proofs.Html.Elements
import SlotGrammar.Proofs.Html.Named

/-!
# What a new parser finds

A new parser of elements finds the template that an input is read as, finds nothing in an
input that is refused, and raises an error where reading the input stalls.  One of these
happens on every input.

Main results:

- Theorems `settles_of_readsDocument`, `settles_of_refusesDocument` and
  `settles_of_stallsDocument`: what the recognizer of templates comes to.
- Theorem `exists_settles`: it comes to an answer on every input.
- Theorem `template?_of_readsDocument`: the template is found.
- Theorem `Serves.template?_fresh`: a new parser finds what a used one finds.
-/

namespace SlotGrammar.Html.Parser

variable {V : Type}

/-! ## Inputs without fragments

No symbols lie ahead in an input without fragments, not even none of them, so what is
attempted there is followed by hand. -/

section NoFragments

variable {ρ : Targets V (Piece V)} {view : View V} {limit : Nat} {pos : Position}

/-- Whether every recognizer that an expression makes comes to no match at a position. -/
def Misses (ρ : Targets V (Piece V)) (view : View V) (limit : Nat) (pos : Position)
    (e : Rules.Expr V) : Prop :=
  ∀ S r, e.Makes ρ S r → r.ComesTo ρ view limit pos (.ok none)

/-- No pattern is found in an input without texts. -/
theorem misses_find (h : view.input.texts = []) (pattern : Pattern) :
    Misses ρ view (limit + 1) pos (.make (.leaf (.find pattern))) := by
  intro S r hr
  obtain ⟨handle, ps, hps, rfl⟩ := hr.parts
  cases hps
  have hrest : view.input.rest? pos = none := by
    simp [Fragments.rest?, Fragments.get?, h]
  have houtcome : (Leaf.find pattern : Leaf V (Piece V)).outcome view.input view.values pos =
      none := by
    rw [Leaf.outcome, hrest]
    rfl
  exact .node fun _ _ => houtcome ▸ .done _

/-- A miss is a miss whatever would be made of a match. -/
theorem Misses.map {e : Rules.Expr V} (h : Misses ρ view limit pos e)
    (transform : Rules.Tree V → List V → Rules.Tree V) :
    Misses ρ view (limit + 1) pos (e.map transform) := by
  intro S r hr
  obtain ⟨handle, p, hp, rfl⟩ := hr.one rfl
  refine .node fun limit' hlimit => .onOutcome (h S p hp limit' hlimit) ?_ (by simp)
  rintro outcome heq
  cases heq
  exact .done none

/-- A difference misses where both of its parts miss. -/
theorem Misses.butNot {e e' : Rules.Expr V} (h : Misses ρ view limit pos e)
    (h' : Misses ρ view limit pos e') : Misses ρ view (limit + 1) pos (e.butNot e') := by
  intro S r hr
  obtain ⟨handle, p, p', hp, hp', rfl⟩ := hr.two rfl
  refine .node fun limit' hlimit => .onOutcome (h' S p' hp' limit' hlimit) ?_ (by simp)
  rintro outcome heq
  cases heq
  refine .onOutcome (h S p hp limit' hlimit) ?_ (by simp)
  rintro outcome heq
  cases heq
  exact .done none

/-- A sequence misses where its first part misses. -/
theorem Misses.sequence {e : Rules.Expr V} {es : List (Rules.Expr V)}
    (h : Misses ρ view limit pos e) : Misses ρ view (limit + 1) pos (.sequence (e :: es)) := by
  intro S r hr
  obtain ⟨handle, ps, hps, rfl⟩ := hr.parts
  obtain ⟨p, ps, hp, -, rfl⟩ := List.forall₂_cons_left_iff.1 hps
  refine .node fun limit' hlimit => .onOutcome (h S p hp limit' hlimit) ?_ (by simp)
  rintro outcome heq
  cases heq
  exact .done none

/-- Behind an optional part that misses, a sequence misses with its next part. -/
theorem Misses.sequence_optional {e e' : Rules.Expr V} {es : List (Rules.Expr V)}
    (h : Misses ρ view limit pos e) (h' : Misses ρ view (limit + 1) pos e') :
    Misses ρ view (limit + 2) pos (.sequence (e.optional :: e' :: es)) := by
  intro S r hr
  obtain ⟨handle, ps, hps, rfl⟩ := hr.parts
  obtain ⟨p, _, hp, hrest, rfl⟩ := List.forall₂_cons_left_iff.1 hps
  obtain ⟨p', ps, hp', -, rfl⟩ := List.forall₂_cons_left_iff.1 hrest
  obtain ⟨handle, q, hq, rfl⟩ := hp.one rfl
  have habsent : (Recognizer.node handle (.optional q)).ComesTo ρ view (limit + 1) pos
      (.ok (some ⟨.absent, pos⟩)) := by
    refine .node fun limit' hlimit => .onOutcome (h S q hq limit' hlimit) ?_ (by simp)
    rintro outcome heq
    cases heq
    exact .done _
  refine .node fun limit' hlimit => .onOutcome (habsent limit' hlimit) ?_ (by simp)
  rintro outcome heq
  cases heq
  refine .onOutcome (h' S p' hp' limit' hlimit) ?_ (by simp)
  rintro outcome heq
  cases heq
  exact .done none

/-- A rule misses where its body misses. -/
theorem Misses.recursive {body : Rules.Expr V} (h : Misses ρ view limit pos body) (name : String) :
    Misses ρ view (limit + 1) pos (.recursive name body) := by
  intro S r hr
  cases hr with
  | recursive hl hp => exact .link hl (h _ _ hp)

/-- A miss is a miss with or without a store. -/
theorem Misses.cached {e : Rules.Expr V} (h : Misses ρ view limit pos e) (on : Bool) :
    Misses ρ view limit pos (.cached on e) := by
  intro S r hr
  cases hr with
  | cached hp => exact (h S _ hp).withHandle _

/-- An input without texts is no template. -/
theorem misses_template [SoundLexicon] (h : view.input.texts = []) :
    Misses ρ view 7 pos (Rules.template : Rules.Expr V) := by
  have helement : Misses ρ view 5 pos (Rules.element : Rules.Expr V) :=
    ((Misses.sequence (.butNot (misses_find h _) (misses_find h _))).map _).recursive _
  exact ((Misses.sequence_optional (misses_find h _) helement).map _).cached _

end NoFragments

/-! ## Answers -/

section Answers

variable {input : Fragments} {t : Template}

/-- The limit of a parse leaves room for every symbol of its input. -/
theorem symbols_lt_limit (input : Fragments) :
    11 * input.symbols.length + 17 < Parser.limit input := by
  have := Fragments.length_symbols_le input
  unfold Parser.limit
  omega

variable [SoundLexicon] (values : List V) (window : ErrorWindow)

/-- A new parser comes to the template that an input is read as. -/
theorem settles_of_readsDocument (h : ReadsDocument t input.symbols) :
    ∃ stop, Settles Rules.template ⟨input, values, window⟩
      (.ok (some ⟨.made (.template t), stop⟩)) := by
  have hinput : input.texts ≠ [] := by
    intro hnil
    have hsymbols : input.symbols = [] := by rw [Fragments.symbols, hnil]
    exact h.ne_nil hsymbols
  obtain ⟨_, ⟨-⟩, hsettles⟩ := exists_settles_of_reads hinput (symbols_lt_limit input)
    (template_takes (scene input values window) _ h (Nat.le_refl _))
  exact ⟨_, hsettles⟩

/-- It comes to no match where there are no fragments. -/
theorem settles_of_no_fragments (hinput : input.texts = []) :
    Settles Rules.template ⟨input, values, window⟩ (.ok none) := by
  have hlimit : 7 < Parser.limit input := by
    have := symbols_lt_limit input
    omega
  exact settles_of_makes template_transparent.closed hlimit fun r hr =>
    misses_template hinput _ r hr

/-- It comes to no match in an input that is refused. -/
theorem settles_of_refusesDocument (h : RefusesDocument input.symbols) :
    Settles Rules.template ⟨input, values, window⟩ (.ok none) := by
  by_cases hinput : input.texts = []
  · exact settles_of_no_fragments values window hinput
  · obtain ⟨_, ⟨-⟩, hsettles⟩ := exists_settles_of_reads hinput (symbols_lt_limit input)
      (template_refuses (scene input values window) _ h (Nat.le_refl _))
    exact hsettles

/-- It comes to an error about the position where reading an input stalls. -/
theorem settles_of_stallsDocument (hinput : input.texts ≠ []) {r : List Symbol}
    (h : StallsDocument input.symbols r) :
    ∃ e pos, e.position? = some pos ∧ input.ahead? pos = some r ∧
      Settles Rules.template ⟨input, values, window⟩ (.error e) := by
  obtain ⟨_, hfits, hsettles⟩ := exists_settles_of_reads hinput (symbols_lt_limit input)
    (template_raises (scene input values window) _ h (Nat.le_refl _))
  cases hfits with
  | @raises _ e pos he hahead => exact ⟨e, pos, he, hahead, hsettles⟩

/-- What answers an input: the template that it is read as, no match where it is refused, or
an error about the position where reading it stalls. -/
inductive Answers (input : Fragments) : Ending V (Piece V) → Prop where
  | found {t : Template} {stop : Position} (h : ReadsDocument t input.symbols) :
      Answers input (.ok (some ⟨.made (.template t), stop⟩))
  | refused (h : RefusesDocument input.symbols) : Answers input (.ok none)
  | raised {r : List Symbol} {e : ParseError} {pos : Position}
      (h : StallsDocument input.symbols r) (he : e.position? = some pos)
      (hahead : input.ahead? pos = some r) : Answers input (.error e)

variable (input) in
/-- A new parser comes to an answer on every input. -/
theorem exists_settles : ∃ ending : Ending V (Piece V), Answers input ending ∧
    Settles Rules.template ⟨input, values, window⟩ ending := by
  rcases document_total input.symbols with ⟨t, ht⟩ | hrefuses | ⟨r, hstalls⟩
  · obtain ⟨stop, hsettles⟩ := settles_of_readsDocument values window ht
    exact ⟨_, .found ht, hsettles⟩
  · exact ⟨_, .refused hrefuses, settles_of_refusesDocument values window hrefuses⟩
  · have hinput : input.texts ≠ [] := by
      intro hnil
      rw [Fragments.symbols, hnil] at hstalls
      exact hstalls.ne_nil rfl
    obtain ⟨e, pos, he, hahead, hsettles⟩ := settles_of_stallsDocument values window hinput hstalls
    exact ⟨_, .raised hstalls he hahead, hsettles⟩

end Answers

/-! ## Templates -/

section Templates

variable [SoundLexicon] {input : Fragments} {values : List V} {options : ParseOptions}

/-- A reading of the input settles which template is answered. -/
theorem Settles.create_template? {ending : Ending V (Piece V)}
    (h : Settles Rules.template ⟨input, values, options.errorWindow⟩ ending) :
    ∃ p, create.template? input values options = some (templateOf ending, p) := by
  obtain ⟨p, hfound, -⟩ := serves_create.template? template_transparent options h
  exact ⟨p, hfound⟩

/-- A reading of the input settles which element is answered. -/
theorem Settles.create_parse? {ending : Ending V (Piece V)}
    (h : Settles Rules.template ⟨input, values, options.errorWindow⟩ ending) :
    ∃ p, create.parse? input values options = some (elementOf (resolvedWith values ending), p) := by
  obtain ⟨p, hfound, -⟩ := serves_create.parse? template_transparent options h
  exact ⟨p, hfound⟩

/-- What a parser finds after any uses, a new one finds under other options that report errors
in the same window. -/
theorem Serves.template?_fresh {p : Parser V} (hp : p.Serves Rules.template) (input : Fragments)
    (values : List V) {options fresh : ParseOptions} (h : fresh.errorWindow = options.errorWindow) :
    ∃ answer p' q, p.template? input values options = some (answer, p') ∧
      p'.Serves Rules.template ∧ create.template? input values fresh = some (answer, q) := by
  obtain ⟨ending, -, hsettles⟩ := exists_settles input values options.errorWindow
  obtain ⟨p', hfound, hp'⟩ := hp.template? template_transparent options hsettles
  obtain ⟨q, hfresh⟩ := Settles.create_template? (h ▸ hsettles)
  exact ⟨_, p', q, hfound, hp', hfresh⟩

/-- The same with values filled in. -/
theorem Serves.parse?_fresh {p : Parser V} (hp : p.Serves Rules.template) (input : Fragments)
    (values : List V) {options fresh : ParseOptions} (h : fresh.errorWindow = options.errorWindow) :
    ∃ result p' q, p.parse? input values options = some (result, p') ∧
      p'.Serves Rules.template ∧ create.parse? input values fresh = some (result, q) := by
  obtain ⟨ending, -, hsettles⟩ := exists_settles input values options.errorWindow
  obtain ⟨p', hfound, hp'⟩ := hp.parse? template_transparent options hsettles
  obtain ⟨q, hfresh⟩ := Settles.create_parse? (h ▸ hsettles)
  exact ⟨_, p', q, hfound, hp', hfresh⟩

/-- Whatever a new parser comes to answers the input. -/
theorem answers_of_template? {answer : Except ParseError (Option (Template × Position))}
    {p : Parser V} (h : create.template? input values options = some (answer, p)) :
    ∃ ending : Ending V (Piece V), Answers input ending ∧ templateOf ending = answer := by
  obtain ⟨ending, hanswers, hsettles⟩ := exists_settles input values options.errorWindow
  obtain ⟨p', hfound⟩ := hsettles.create_template?
  rw [h] at hfound
  cases hfound
  exact ⟨ending, hanswers, rfl⟩

/-- A new parser finds the template that an input is read as. -/
theorem template?_of_readsDocument {t : Template} (h : ReadsDocument t input.symbols)
    (values : List V) (options : ParseOptions) :
    ∃ stop p, create.template? input values options = some (.ok (some (t, stop)), p) := by
  obtain ⟨stop, hsettles⟩ := settles_of_readsDocument values options.errorWindow h
  obtain ⟨p, hfound⟩ := hsettles.create_template?
  exact ⟨stop, p, hfound⟩

/-- A new parser finds no template in an input that is read as none. -/
theorem template?_of_not_readsDocument (h : ¬ ∃ t, ReadsDocument t input.symbols)
    (values : List V) (options : ParseOptions) :
    ∃ result p, create.template? input values options = some (result, p) ∧
      ∀ found, result ≠ .ok (some found) := by
  obtain ⟨ending, hanswers, hsettles⟩ := exists_settles input values options.errorWindow
  obtain ⟨p, hfound⟩ := hsettles.create_template?
  refine ⟨_, p, hfound, fun found => ?_⟩
  cases hanswers with
  | found ht => exact absurd ⟨_, ht⟩ h
  | refused => exact nofun
  | raised => exact nofun

end Templates

end SlotGrammar.Html.Parser
