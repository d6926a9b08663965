import SlotGrammar.Proofs.Lazy.Transport

/-!
# Confluence

Deferrals may be built in any order: whatever two ways a grammar unfolds in, it can go on in
both until it has the same under other numbers.  So what one unfolding has, an extension of
the other one includes.

Main results:

- Theorem `Same.supplied`: grammars that are the same stay so when matching deferrals are built.
- Theorem `Tidy.diamond`: two deferrals may be built in either order.
- Theorem `Tidy.confluent`: two unfoldings of a grammar unfold to the same.
- Theorem `Tidy.exists_includes`: one unfolding is included in an extension of another one.
-/

namespace SlotGrammar

open Grammar

variable {V α : Type}

/-! ## Matchings there and back -/

namespace Matching

/-- The matching from the numbers of the second grammar to those of the first. -/
def flip (M : Matching) : Matching := fun k i j => M k j i

/-- One matching after another. -/
def comp (M M' : Matching) : Matching := fun k i j => ∃ n, M k i n ∧ M' k n j

/-- Whether a matching goes both ways from one number to one. -/
def OneToOne (M : Matching) : Prop :=
  ∀ k i i' j j', M k i j → M k i' j' → (i = i' ↔ j = j')

/-- A matching that is one to one is so from the other side. -/
theorem OneToOne.flip {M : Matching} (h : M.OneToOne) : M.flip.OneToOne :=
  fun k i i' j j' hi hi' => (h k j j' i i' hi hi').symm

/-- Two matchings that are one to one come to one that is. -/
theorem OneToOne.comp {M M' : Matching} (h : M.OneToOne) (h' : M'.OneToOne) :
    (M.comp M').OneToOne := by
  rintro k i i' j j' ⟨n, hn, hn'⟩ ⟨m, hm, hm'⟩
  exact (h k i i' n m hn hm).trans (h' k n m j j' hn' hm')

/-- The numbers that a grammar has given out match themselves one to one. -/
theorem oneToOne_below (g : Grammar V α) : (below g).OneToOne := by
  rintro k i i' j j' ⟨rfl, -⟩ ⟨rfl, -⟩
  exact Iff.rfl

/-- Whether a matching pairs off the numbers that two grammars have given out. -/
structure Pairs (M : Matching) (a b : Grammar V α) : Prop where
  left : ∀ k i, i < a.count k ↔ ∃ j, M k i j
  right : ∀ k j, j < b.count k ↔ ∃ i, M k i j
  oneToOne : M.OneToOne

variable {M M' : Matching} {g a a' b b' : Grammar V α}

/-- Numbers that match themselves below the counters of a grammar pair it with itself. -/
theorem pairs_below (g : Grammar V α) : (below g).Pairs g g := by
  refine ⟨fun k i => ⟨fun hi => ⟨i, rfl, hi⟩, fun ⟨_, hi⟩ => hi.2⟩, ?_, oneToOne_below g⟩
  intro k j
  constructor
  · exact fun hj => ⟨j, rfl, hj⟩
  · rintro ⟨_, rfl, hi⟩
    exact hi

/-- A pairing can be read from the other side. -/
theorem Pairs.flip (h : M.Pairs a b) : M.flip.Pairs b a :=
  ⟨h.right, h.left, h.oneToOne.flip⟩

/-- Two pairings with a grammar in common pair the outer ones. -/
theorem Pairs.comp (h : M.Pairs a a') (h' : M'.Pairs a' b) : (M.comp M').Pairs a b := by
  refine ⟨?_, ?_, h.oneToOne.comp h'.oneToOne⟩
  · intro k i
    rw [h.left]
    constructor
    · rintro ⟨n, hn⟩
      obtain ⟨j, hj⟩ := (h'.left k n).1 ((h.right k n).2 ⟨i, hn⟩)
      exact ⟨j, n, hn, hj⟩
    · rintro ⟨j, n, hn, -⟩
      exact ⟨n, hn⟩
  · intro k j
    rw [h'.right]
    constructor
    · rintro ⟨n, hn⟩
      obtain ⟨i, hi⟩ := (h.right k n).1 ((h'.left k n).2 ⟨j, hn⟩)
      exact ⟨i, n, hi, hn⟩
    · rintro ⟨i, n, -, hn⟩
      exact ⟨n, hn⟩

/-- What is paired has been given out on both sides. -/
theorem Pairs.lt (h : M.Pairs a b) {k : Numbered} {i j : Nat} (hij : M k i j) :
    i < a.count k ∧ j < b.count k :=
  ⟨(h.left k i).2 ⟨j, hij⟩, (h.right k j).2 ⟨i, hij⟩⟩

/-- Numbers that two grammars give out one after the other are paired off with those before. -/
theorem Pairs.grown (h : M.Pairs a b) (hleft : ∀ k, a.count k ≤ a'.count k)
    (hright : ∀ k, b.count k ≤ b'.count k)
    (hcount : ∀ k, a'.count k + b.count k = b'.count k + a.count k) :
    (M.grown a a' b).Pairs a' b' := by
  refine ⟨?_, ?_, ?_⟩
  · intro k i
    have := hleft k
    constructor
    · intro hi
      by_cases hold : i < a.count k
      · obtain ⟨j, hj⟩ := (h.left k i).1 hold
        exact ⟨j, .inl hj⟩
      · exact ⟨i - a.count k + b.count k, .inr ⟨by omega, hi, by omega⟩⟩
    · rintro ⟨j, hij | ⟨-, hi, -⟩⟩
      · exact Nat.lt_of_lt_of_le (h.lt hij).1 (hleft k)
      · exact hi
  · intro k j
    have := hcount k
    have := hleft k
    have := hright k
    constructor
    · intro hj
      by_cases hold : j < b.count k
      · obtain ⟨i, hi⟩ := (h.right k j).1 hold
        exact ⟨i, .inl hi⟩
      · exact ⟨j - b.count k + a.count k, .inr ⟨by omega, by omega, by omega⟩⟩
    · rintro ⟨i, hij | ⟨hi, hi', hsum⟩⟩
      · exact Nat.lt_of_lt_of_le (h.lt hij).2 (hright k)
      · omega
  · rintro k i i' j j' (hij | ⟨hi, -, hsum⟩) (hij' | ⟨hi', -, hsum'⟩)
    · exact h.oneToOne k i i' j j' hij hij'
    · have := h.lt hij
      omega
    · have := h.lt hij'
      omega
    · omega

/-- The numbers of a grammar, and those that are given out for two deferrals when one or the
other is built first. -/
def inOrders (g a b a' : Grammar V α) : Matching := ((below g).grown g a b).grown a a' g

/-- The matching of both orders extends what was made first on one side. -/
theorem le_inOrders (g a b a' : Grammar V α) : (below g).grown g a b ≤ inOrders g a b a' :=
  le_grown _ a a' g

/-- The matching of both orders extends what was made first on the other side. -/
theorem le_inOrders_right (g a b a' : Grammar V α) :
    (below g).grown a a' g ≤ inOrders g a b a' :=
  fun _ _ _ h => h.imp_left .inl

/-- Numbers that are given out in two orders are paired off. -/
theorem pairs_inOrders (ha : ∀ k, g.count k ≤ a.count k) (ha' : ∀ k, a.count k ≤ a'.count k)
    (hcount : ∀ k, a.count k + b.count k = b'.count k + g.count k)
    (hcount' : ∀ k, a'.count k + g.count k = b.count k + a.count k) :
    (inOrders g a b a').Pairs a' b' := by
  refine ⟨?_, ?_, ?_⟩
  · intro k i
    have := ha k
    have := ha' k
    simp only [inOrders, grown, given, below]
    constructor
    · intro hi
      by_cases hold : i < g.count k
      · exact ⟨i, .inl (.inl ⟨rfl, hold⟩)⟩
      · by_cases hmid : i < a.count k
        · exact ⟨i - g.count k + b.count k, .inl (.inr ⟨by omega, hmid, by omega⟩)⟩
        · exact ⟨i - a.count k + g.count k, .inr ⟨by omega, hi, by omega⟩⟩
    · rintro ⟨j, h⟩
      omega
  · intro k j
    have := ha k
    have := ha' k
    have := hcount k
    have := hcount' k
    simp only [inOrders, grown, given, below]
    constructor
    · intro hj
      by_cases hold : j < g.count k
      · exact ⟨j, .inl (.inl ⟨rfl, hold⟩)⟩
      · by_cases hmid : j < b.count k
        · exact ⟨j - g.count k + a.count k, .inr ⟨by omega, by omega, by omega⟩⟩
        · exact ⟨j - b.count k + g.count k, .inl (.inr ⟨by omega, by omega, by omega⟩)⟩
    · rintro ⟨i, h⟩
      omega
  · intro k i i' j j' hij hij'
    have := ha k
    have := ha' k
    have := hcount k
    have := hcount' k
    simp only [inOrders, grown, given, below] at hij hij'
    omega

end Matching

section There

variable {M M' : Matching} {T : Shape V α Unit → Prop}

/-- Pointwise relations compose. -/
theorem forall₂_comp {β γ δ : Type} {R : β → γ → Prop} {S : γ → δ → Prop} {Q : β → δ → Prop}
    {xs : List β} {ys : List γ} {zs : List δ} (hxs : List.Forall₂ R xs ys)
    (hys : List.Forall₂ S ys zs) (h : ∀ x y z, R x y → S y z → Q x z) : List.Forall₂ Q xs zs := by
  induction hxs generalizing zs with
  | nil =>
    cases hys
    exact .nil
  | cons hxy _ ih =>
    cases hys with
    | cons hyz hrest => exact .cons (h _ _ _ hxy hyz) (ih hrest)

/-- Relations of optional values compose. -/
theorem rel_comp {β γ δ : Type} {R : β → γ → Prop} {S : γ → δ → Prop} {Q : β → δ → Prop}
    {x : Option β} {y : Option γ} {z : Option δ} (hxy : Option.Rel R x y) (hyz : Option.Rel S y z)
    (h : ∀ x y z, R x y → S y z → Q x z) : Option.Rel Q x z := by
  cases hxy with
  | none =>
    cases hyz
    exact .none
  | some hxy =>
    cases hyz with
    | some hyz => exact .some (h _ _ _ hxy hyz)

/-- A relation of optional values can be turned around. -/
theorem rel_flip {β γ : Type} {R : β → γ → Prop} {S : γ → β → Prop} {x : Option β} {y : Option γ}
    (hxy : Option.Rel R x y) (h : ∀ x y, R x y → S y x) : Option.Rel S y x := by
  cases hxy with
  | none => exact .none
  | some hxy => exact .some (h _ _ hxy)

/-- Lists that are related by members on both sides are so the other way around. -/
theorem Mutual.flip {β γ : Type} {R : β → γ → Prop} {S : γ → β → Prop} {xs : List β} {ys : List γ}
    (hxs : Mutual R xs ys) (h : ∀ x y, R x y → S y x) : Mutual S ys xs := by
  constructor
  · intro y hy
    obtain ⟨x, hx, hxy⟩ := hxs.2 y hy
    exact ⟨x, hx, h x y hxy⟩
  · intro x hx
    obtain ⟨y, hy, hxy⟩ := hxs.1 x hx
    exact ⟨y, hy, h x y hxy⟩

/-- Lists that are related by members on both sides compose. -/
theorem Mutual.comp {β γ δ : Type} {R : β → γ → Prop} {S : γ → δ → Prop} {Q : β → δ → Prop}
    {xs : List β} {ys : List γ} {zs : List δ} (hxs : Mutual R xs ys) (hys : Mutual S ys zs)
    (h : ∀ x y z, R x y → S y z → Q x z) : Mutual Q xs zs := by
  constructor
  · intro x hx
    obtain ⟨y, hy, hxy⟩ := hxs.1 x hx
    obtain ⟨z, hz, hyz⟩ := hys.1 y hy
    exact ⟨z, hz, h x y z hxy hyz⟩
  · intro z hz
    obtain ⟨y, hy, hyz⟩ := hys.2 z hz
    obtain ⟨x, hx, hxy⟩ := hxs.2 y hy
    exact ⟨x, hx, h x y z hxy hyz⟩

namespace Link.Matches

variable {l l' l'' : Link}

/-- Links that match do so the other way around. -/
theorem flip (h : l.Matches M l') : l'.Matches M.flip l := by
  cases h with
  | definition hc => exact .definition hc
  | self hc => exact .self hc
  | deferred hc => exact .deferred hc
  | unbound => exact .unbound

/-- Links that match through a third one match. -/
theorem comp (h : l.Matches M l') (h' : l'.Matches M' l'') : l.Matches (M.comp M') l'' := by
  cases h with
  | definition hc =>
    cases h' with
    | definition hc' => exact .definition ⟨_, hc, hc'⟩
  | self hc =>
    cases h' with
    | self hc' => exact .self ⟨_, hc, hc'⟩
  | deferred hc =>
    cases h' with
    | deferred hc' => exact .deferred ⟨_, hc, hc'⟩
  | unbound =>
    cases h'
    exact .unbound

/-- A link matches one link at most. -/
theorem unique (hM : M.OneToOne) (h : l.Matches M l') (h' : l.Matches M l'') : l' = l'' := by
  cases h with
  | definition hc =>
    cases h' with
    | definition hc' => rw [(hM _ _ _ _ _ hc hc').1 rfl]
  | self hc =>
    cases h' with
    | self hc' => rw [(hM _ _ _ _ _ hc hc').1 rfl]
  | deferred hc =>
    cases h' with
    | deferred hc' => rw [(hM _ _ _ _ _ hc hc').1 rfl]
  | unbound =>
    cases h'
    rfl

end Link.Matches

/-- Cachings that match do so the other way around. -/
theorem Caching.Matches.flip {caching caching' : Caching} (h : caching.Matches M caching') :
    caching'.Matches M.flip caching := by
  cases h with
  | never => exact .never
  | paused hs => exact .paused hs
  | active hs => exact .active hs

/-- Cachings that match through a third one match. -/
theorem Caching.Matches.comp {caching caching' caching'' : Caching}
    (h : caching.Matches M caching') (h' : caching'.Matches M' caching'') :
    caching.Matches (M.comp M') caching'' := by
  cases h with
  | never =>
    cases h'
    exact .never
  | paused hs =>
    cases h' with
    | paused hs' => exact .paused ⟨_, hs, hs'⟩
  | active hs =>
    cases h' with
    | active hs' => exact .active ⟨_, hs, hs'⟩

/-- Handles that match do so the other way around. -/
theorem Handle.Matches.flip {handle handle' : Handle} (h : handle.Matches M handle') :
    handle'.Matches M.flip handle :=
  ⟨h.id, h.node, h.caching.flip, h.held.flip fun _ _ => Link.Matches.flip⟩

/-- Handles that match through a third one match. -/
theorem Handle.Matches.comp {handle handle' handle'' : Handle} (h : handle.Matches M handle')
    (h' : handle'.Matches M' handle'') : handle.Matches (M.comp M') handle'' :=
  ⟨⟨_, h.id, h'.id⟩, ⟨_, h.node, h'.node⟩, h.caching.comp h'.caching,
    h.held.comp h'.held fun _ _ _ hl hl' => hl.comp hl'⟩

/-- A shape over its own parts is the shape. -/
theorem Shape.withParts_parts {ρ : Type} (shape : Shape V α ρ) :
    shape.withParts shape.parts = shape := by
  cases shape <;> rfl

namespace Recognizer.Matches

variable {r r' r'' : Recognizer V α}

/-- Recognizers that match do so the other way around. -/
theorem flip (h : r.Matches T M r') : r'.Matches T M.flip r := by
  induction h with
  | @node handle handle' shape ps hhandle hkind hlength _ ih =>
    -- what is matched must be written as a shape over other parts, which here are its own
    have hback : (shape.withParts ps).withParts shape.parts = shape := by
      rw [shape.withParts_withParts hlength, shape.withParts_parts]
    have hparts := shape.parts_withParts hlength
    have hnode : Recognizer.Matches T M.flip (.node handle' (shape.withParts ps))
        (.node handle ((shape.withParts ps).withParts shape.parts)) := by
      refine .node hhandle.flip ?_ (by rw [hparts, hlength]) ?_
      · rw [shape.outline_withParts hlength]
        exact hkind
      · rw [hparts]
        have hps : List.Forall₂ (fun p q => Recognizer.Matches T M.flip q p) shape.parts ps :=
          List.forall₂_iff_zip.2 ⟨hlength.symm, fun hx => ih _ hx⟩
        exact fun x hx => List.forall₂_zip hps.flip hx
    rw [hback] at hnode
    exact hnode
  | link hhandle hlink => exact .link hhandle.flip hlink.flip

/-- Recognizers that match through a third one match. -/
theorem comp (h : r.Matches T M r') (h' : r'.Matches T M' r'') : r.Matches T (M.comp M') r'' := by
  induction h generalizing r'' with
  | @node handle handle' shape ps hhandle hkind hlength _ ih =>
    obtain ⟨handle'', qs, rfl, hhandle', -, hqs⟩ := h'.parts
    rw [shape.parts_withParts hlength] at hqs
    rw [shape.withParts_withParts hlength]
    have hps : List.Forall₂ (fun p q => ∀ q', Recognizer.Matches T M' q q' →
        p.Matches T (M.comp M') q') shape.parts ps :=
      List.forall₂_iff_zip.2 ⟨hlength.symm, fun hx _ hq => ih _ hx hq⟩
    have hparts : List.Forall₂ (Recognizer.Matches T (M.comp M')) shape.parts qs :=
      forall₂_comp hps hqs fun _ _ _ hp hq => hp _ hq
    exact .node (hhandle.comp hhandle') hkind hparts.length_eq.symm
      fun x hx => List.forall₂_zip hparts hx
  | link hhandle hlink =>
    cases h' with
    | link hhandle' hlink' => exact .link (hhandle.comp hhandle') (hlink.comp hlink')

end Recognizer.Matches

namespace Bind

variable {xs ys zs : List (String × Recognizer V α)}

theorem flip (h : Bind T M xs ys) : Bind T M.flip ys xs :=
  List.Forall₂.flip (h.imp fun _ _ hxy => ⟨hxy.1.symm, hxy.2.flip⟩)

theorem comp (h : Bind T M xs ys) (h' : Bind T M' ys zs) : Bind T (M.comp M') xs zs :=
  forall₂_comp h h' fun _ _ _ hxy hyz => ⟨hxy.1.trans hyz.1, hxy.2.comp hyz.2⟩

end Bind

/-- Whether two deferrals await the same in matching scopes, or are settled with recognizers
that match. -/
inductive Deferral.Matches (T : Shape V α Unit → Prop) (M : Matching) :
    Deferral V α → Deferral V α → Prop where
  | awaiting {label : String} {e : Expr V α} {scope scope' : Scope V α} (he : e.Proper T false)
      (hscope : Bind T M scope scope') :
      Matches T M (.awaiting label e scope) (.awaiting label e scope')
  | settled {r r' : Recognizer V α} (h : r.Matches T M r') : Matches T M (.settled r) (.settled r')

namespace Deferral.Matches

variable {d d' d'' : Deferral V α}

/-- Deferrals that match do so under a greater matching. -/
theorem mono (hM : M ≤ M') (h : d.Matches T M d') : d.Matches T M' d' := by
  cases h with
  | awaiting he hscope => exact .awaiting he (hscope.mono hM)
  | settled hr => exact .settled (hr.mono hM)

/-- Deferrals that match do so the other way around. -/
theorem flip (h : d.Matches T M d') : d'.Matches T M.flip d := by
  cases h with
  | awaiting he hscope => exact .awaiting he hscope.flip
  | settled hr => exact .settled hr.flip

/-- Deferrals that match through a third one match. -/
theorem comp (h : d.Matches T M d') (h' : d'.Matches T M' d'') : d.Matches T (M.comp M') d'' := by
  cases h with
  | awaiting he hscope =>
    cases h' with
    | awaiting _ hscope' => exact .awaiting he (hscope.comp hscope')
  | settled hr =>
    cases h' with
    | settled hr' => exact .settled (hr.comp hr')

end Deferral.Matches

end There

namespace Grammar

variable {T : Shape V α Unit → Prop} {M : Matching} {g a a' b b' : Grammar V α} {c c' : Nat}
  {label : String} {e : Expr V α} {scope scope' : Scope V α}

/-! ## Building the same deferral in two grammars -/

/-- Cells that await alike hold deferrals that match. -/
theorem AwaitAlike.rel {d d' : Option (Deferral V α)} (h : AwaitAlike T M d d') :
    Option.Rel (Deferral.Matches T M) d d' := by
  obtain ⟨label, e, scope, scope', rfl, rfl, he, hscope⟩ := h
  exact .some (.awaiting he hscope)

/-- Whether a deferral of one grammar and one of another have been built alike: under as many
numbers, and so that all that is new matches. -/
structure SuppliedAlike (T : Shape V α Unit → Prop) (M : Matching) (a b a' b' : Grammar V α)
    (c c' : Nat) : Prop where
  left : a.Precedes a'
  right : b.Precedes b'
  count_eq : ∀ k, a'.count k + b.count k = b'.count k + a.count k
  definitions : ∀ x x', Matching.given a a' b .definition x x' →
    Option.Rel (Recognizer.Matches T (M.grown a a' b)) a'.definitions[x]?.join
      b'.definitions[x']?.join
  deferrals : ∀ x x', Matching.given a a' b .deferral x x' →
    Option.Rel (Deferral.Matches T (M.grown a a' b)) a'.deferrals[x]? b'.deferrals[x']?
  cell : Option.Rel (Deferral.Matches T (M.grown a a' b)) a'.deferrals[c]? b'.deferrals[c']?
  left_cells : ∀ x < a.deferrals.size, x ≠ c → a'.deferrals[x]? = a.deferrals[x]?
  right_cells : ∀ x < b.deferrals.size, x ≠ c' → b'.deferrals[x]? = b.deferrals[x]?

/-- What is given to match a new number has been given out. -/
theorem SuppliedAlike.given_lt (h : SuppliedAlike T M a b a' b' c c') {k : Numbered} {i j : Nat}
    (hij : Matching.given a a' b k i j) : j < b'.count k := by
  have := h.count_eq k
  obtain ⟨hle, hlt, hsum⟩ := hij
  omega

/-- Other deferrals are left as they are when one is built. -/
theorem Tidy.deferrals_eq (ha : a.Tidy T) (hc : a.deferrals[c]? = some (.awaiting label e scope))
    {x : Nat} (hx : x < a.deferrals.size) (hne : x ≠ c) :
    (a.supplied c e scope).deferrals[x]? = a.deferrals[x]? := by
  obtain ⟨he, hscope⟩ := ha.whole.awaiting c label e scope hc
  rw [deferrals_supplied ha.whole hc, if_neg hne, (ha.whole.build he hscope).1.deferrals x hx]

/-- What deferrals await the same in matching scopes is built alike. -/
theorem supplied_alike (ha : a.Tidy T) (hb : b.Tidy T)
    (hnames : Bind T M a.names.entries b.names.entries)
    (hc : a.deferrals[c]? = some (.awaiting label e scope))
    (hc' : b.deferrals[c']? = some (.awaiting label e scope')) (hscope : Bind T M scope scope') :
    SuppliedAlike T M a b (a.supplied c e scope) (b.supplied c' e scope') c c' := by
  have he := (ha.whole.awaiting c label e scope hc).1
  obtain ⟨hparallel, hr⟩ := build_alike he scope scope' M a b hscope hnames
  have hgrown : M.grown a (a.supplied c e scope) b = M.grown a (build scope e a).2 b := by
    unfold Matching.grown Matching.given
    rw [count_supplied]
  have hlt : c < a.deferrals.size := (Array.getElem?_eq_some_iff.1 hc).1
  have hlt' : c' < b.deferrals.size := (Array.getElem?_eq_some_iff.1 hc').1
  refine ⟨.supplied ha hc, .supplied hb hc', ?_, ?_, ?_, ?_, fun x => ha.deferrals_eq hc,
    fun x => hb.deferrals_eq hc'⟩
  · intro k
    rw [count_supplied, count_supplied]
    exact hparallel.count_eq k
  · rintro x x' ⟨hle, hlt, hsum⟩
    rw [hgrown]
    rw [count_supplied] at hlt
    exact hparallel.definitions x x' ⟨hle, hlt, hsum⟩
  · rintro x x' ⟨hle, hltx, hsum⟩
    rw [count_supplied] at hltx
    have hle : a.deferrals.size ≤ x := hle
    have hsum' : x + b.deferrals.size = x' + a.deferrals.size := hsum
    rw [hgrown, deferrals_supplied ha.whole hc, deferrals_supplied hb.whole hc',
      if_neg (by omega), if_neg (by omega)]
    exact (hparallel.deferrals x x' ⟨hle, hltx, hsum⟩).rel
  · rw [hgrown, deferrals_supplied ha.whole hc, deferrals_supplied hb.whole hc', if_pos rfl,
      if_pos rfl]
    exact .some (.settled hr)

/-! ## Grammars that are the same -/

/-- Whether two grammars are the same up to numbers. -/
structure Same (T : Shape V α Unit → Prop) (M : Matching) (a b : Grammar V α) : Prop where
  pairs : M.Pairs a b
  names : Bind T M a.names.entries b.names.entries
  definitions : ∀ x x', M .definition x x' →
    Option.Rel (Recognizer.Matches T M) a.definitions[x]?.join b.definitions[x']?.join
  deferrals : ∀ x x', M .deferral x x' →
    Option.Rel (Deferral.Matches T M) a.deferrals[x]? b.deferrals[x']?

/-- A grammar is the same as itself. -/
theorem Whole.same (h : g.Whole T) : Same T (.below g) g g := by
  refine ⟨Matching.pairs_below g, h.bind_names, ?_, ?_⟩
  · rintro x _ ⟨rfl, -⟩
    cases hr : g.definitions[x]?.join with
    | none => exact .none
    | some r => exact .some (h.definitions x r (Option.join_eq_some_iff.1 hr))
  · rintro x _ ⟨rfl, hx⟩
    have hd := Array.getElem?_eq_getElem hx
    rw [hd]
    cases hcell : g.deferrals[x] with
    | awaiting label e scope =>
      obtain ⟨he, hscope⟩ := h.awaiting x label e scope (hcell ▸ hd)
      exact .some (.awaiting he hscope)
    | settled r => exact .some (.settled (h.settled x r (hcell ▸ hd)))

namespace Same

/-- Grammars that are the same up to numbers are so the other way around. -/
theorem flip (h : Same T M a b) : Same T M.flip b a :=
  ⟨h.pairs.flip, h.names.flip,
    fun x x' hx => rel_flip (h.definitions x' x hx) fun _ _ => Recognizer.Matches.flip,
    fun x x' hx => rel_flip (h.deferrals x' x hx) fun _ _ => Deferral.Matches.flip⟩

/-- Grammars that are the same up to numbers as a third one are so to each other. -/
theorem comp {M' : Matching} (h : Same T M a a') (h' : Same T M' a' b) :
    Same T (M.comp M') a b := by
  refine ⟨h.pairs.comp h'.pairs, h.names.comp h'.names, ?_, ?_⟩
  · rintro x x' ⟨n, hn, hn'⟩
    exact rel_comp (h.definitions x n hn) (h'.definitions n x' hn')
      fun _ _ _ => Recognizer.Matches.comp
  · rintro x x' ⟨n, hn, hn'⟩
    exact rel_comp (h.deferrals x n hn) (h'.deferrals n x' hn') fun _ _ _ => Deferral.Matches.comp

/-- Grammars that are the same stay so when deferrals that match are built alike. -/
theorem of_supplied (h : Same T M a b) (hc : M .deferral c c')
    (hboth : SuppliedAlike T M a b a' b' c c') : Same T (M.grown a a' b) a' b' := by
  have hle := M.le_grown a a' b
  refine ⟨h.pairs.grown hboth.left.count_le hboth.right.count_le hboth.count_eq, ?_, ?_, ?_⟩
  · rw [hboth.left.names, hboth.right.names]
    exact h.names.mono hle
  · rintro x x' (hold | hnew)
    · obtain ⟨hlt, hlt'⟩ := h.pairs.lt hold
      rw [hboth.left.definitions x hlt, hboth.right.definitions x' hlt']
      exact rel_mono (fun _ _ hr => hr.mono hle) (h.definitions x x' hold)
    · exact hboth.definitions x x' hnew
  · rintro x x' (hold | hnew)
    · obtain ⟨hlt, hlt'⟩ := h.pairs.lt hold
      have hiff := h.pairs.oneToOne _ _ _ _ _ hold hc
      by_cases hsame : x = c
      · obtain rfl := hsame
        obtain rfl := hiff.1 rfl
        exact hboth.cell
      · rw [hboth.left_cells x hlt hsame, hboth.right_cells x' hlt' (hiff.not.1 hsame)]
        exact rel_mono (fun _ _ hd => hd.mono hle) (h.deferrals x x' hold)
    · exact hboth.deferrals x x' hnew

/-- What one of two grammars that are the same turns into, the other one does. -/
theorem supplies (h : Same T M a b) (ha : a.Tidy T) (hb : b.Tidy T) (ha' : a.Supplies a') :
    ∃ b' M', b.Supplies b' ∧ M ≤ M' ∧ Same T M' a' b' := by
  obtain ⟨c, label, e, scope, hc, rfl⟩ := ha'
  obtain ⟨c', hmatch⟩ := (h.pairs.left .deferral c).1 (Array.getElem?_eq_some_iff.1 hc).1
  have hd := h.deferrals c c' hmatch
  rw [hc] at hd
  obtain ⟨d, hcell, hd⟩ := exists_of_rel_some hd
  cases hd with
  | @awaiting _ _ _ scope' _ hscope =>
    exact ⟨_, _, ⟨c', label, e, scope', hcell, rfl⟩, M.le_grown _ _ _,
      h.of_supplied hmatch (supplied_alike ha hb h.names hc hcell hscope)⟩

end Same

/-! ## Confluence -/

section Orders

variable (hg : g.Whole T) (hfirst : SuppliedAlike T (.below g) g b a b' c c)
  (hsecond : SuppliedAlike T (.below g) a g a' b c' c')

include hg hfirst hsecond

/-- Definitions are the same in whatever order two deferrals have been built. -/
theorem Whole.definitions_inOrders {x x' : Nat}
    (hx : Matching.inOrders g a b a' .definition x x') :
    Option.Rel (Recognizer.Matches T (.inOrders g a b a')) a'.definitions[x]?.join
      b'.definitions[x']?.join := by
  have hle := Matching.le_inOrders g a b a'
  have hle' := Matching.le_inOrders_right g a b a'
  rcases hx with (hold | hnew) | hnew
  · obtain ⟨rfl, hlt⟩ := hold
    rw [hsecond.left.definitions x (Nat.lt_of_lt_of_le hlt (hfirst.left.count_le .definition)),
      hfirst.left.definitions x hlt,
      hfirst.right.definitions x (Nat.lt_of_lt_of_le hlt (hsecond.right.count_le .definition)),
      hsecond.right.definitions x hlt]
    exact rel_mono (fun _ _ hr => (hr.mono (Matching.le_grown _ _ _ _)).mono hle)
      (hg.same.definitions x x ⟨rfl, hlt⟩)
  · rw [hsecond.left.definitions x hnew.2.1]
    exact rel_mono (fun _ _ hr => hr.mono hle) (hfirst.definitions x x' hnew)
  · rw [hfirst.right.definitions x' (hsecond.given_lt hnew)]
    exact rel_mono (fun _ _ hr => hr.mono hle') (hsecond.definitions x x' hnew)

/-- So are deferrals, those two among them. -/
theorem Whole.deferrals_inOrders (hne : c ≠ c') (hlt : c < g.deferrals.size)
    (hlt' : c' < g.deferrals.size) {x x' : Nat} (hx : Matching.inOrders g a b a' .deferral x x') :
    Option.Rel (Deferral.Matches T (.inOrders g a b a')) a'.deferrals[x]? b'.deferrals[x']? := by
  have hle := Matching.le_inOrders g a b a'
  have hle' := Matching.le_inOrders_right g a b a'
  rcases hx with (hold | hnew) | hnew
  · obtain ⟨rfl, hold⟩ := hold
    have hlta : x < a.deferrals.size :=
      Nat.lt_of_lt_of_le hold (hfirst.left.count_le .deferral)
    have hltb : x < b.deferrals.size :=
      Nat.lt_of_lt_of_le hold (hsecond.right.count_le .deferral)
    by_cases hc : x = c
    · subst hc
      rw [hsecond.left_cells x hlta hne]
      exact rel_mono (fun _ _ hd => hd.mono hle) hfirst.cell
    · rw [hfirst.right_cells x hltb hc]
      by_cases hc' : x = c'
      · subst hc'
        exact rel_mono (fun _ _ hd => hd.mono hle') hsecond.cell
      · rw [hsecond.left_cells x hlta hc', hfirst.left_cells x hold hc,
          hsecond.right_cells x hold hc']
        exact rel_mono (fun _ _ hd => (hd.mono (Matching.le_grown _ _ _ _)).mono hle)
          (hg.same.deferrals x x ⟨rfl, hold⟩)
  · have hge : g.deferrals.size ≤ x := hnew.1
    rw [hsecond.left_cells x hnew.2.1 (by omega)]
    exact rel_mono (fun _ _ hd => hd.mono hle) (hfirst.deferrals x x' hnew)
  · have hge : a.deferrals.size ≤ x := hnew.1
    have hsum : x + g.deferrals.size = x' + a.deferrals.size := hnew.2.2
    rw [hfirst.right_cells x' (hsecond.given_lt hnew) (by omega)]
    exact rel_mono (fun _ _ hd => hd.mono hle') (hsecond.deferrals x x' hnew)

/-- Grammars in which two deferrals have been built in different orders are the same. -/
theorem Whole.same_of_orders (hne : c ≠ c') (hlt : c < g.deferrals.size)
    (hlt' : c' < g.deferrals.size) : Same T (.inOrders g a b a') a' b' := by
  refine ⟨Matching.pairs_inOrders hfirst.left.count_le hsecond.left.count_le hfirst.count_eq
    hsecond.count_eq, ?_, fun _ _ => hg.definitions_inOrders hfirst hsecond,
    fun _ _ => hg.deferrals_inOrders hfirst hsecond hne hlt hlt'⟩
  rw [hsecond.left.names, hfirst.left.names, hfirst.right.names, hsecond.right.names]
  exact (hg.bind_names.mono (Matching.le_grown _ _ _ _)).mono (Matching.le_inOrders g a b a')

end Orders

/-- Two deferrals may be built in either order. -/
theorem Tidy.diamond (hg : g.Tidy T) (ha : g.Supplies a) (hb : g.Supplies b) :
    a = b ∨ ∃ a' b' M, a.Supplies a' ∧ b.Supplies b' ∧ Matching.below g ≤ M ∧ Same T M a' b' := by
  have hta := hg.supplies ha
  have htb := hg.supplies hb
  obtain ⟨c, label, e, scope, hc, rfl⟩ := ha
  obtain ⟨c', label', e', scope', hc', rfl⟩ := hb
  by_cases hsame : c = c'
  · left
    subst hsame
    rw [hc] at hc'
    cases hc'
    rfl
  right
  have hlt := (Array.getElem?_eq_some_iff.1 hc).1
  have hlt' := (Array.getElem?_eq_some_iff.1 hc').1
  have hca := (hg.deferrals_eq hc hlt' (Ne.symm hsame)).trans hc'
  have hcb := (hg.deferrals_eq hc' hlt hsame).trans hc
  have hnames := hg.whole.bind_names
  -- the first deferral is built in the grammar and after the second, and the other way round
  have hfirst := supplied_alike hg htb
    (by rw [(Precedes.supplied hg hc').names]; exact hnames) hc hcb
    (hg.whole.awaiting c label e scope hc).2
  have hsecond := supplied_alike hta hg
    (by rw [(Precedes.supplied hg hc).names]; exact hnames) hca hc'
    (hg.whole.awaiting c' label' e' scope' hc').2
  exact ⟨_, _, _, ⟨c', label', e', scope', hca, rfl⟩, ⟨c, label, e, scope, hcb, rfl⟩,
    (Matching.le_grown _ _ _ _).trans (Matching.le_inOrders _ _ _ _),
    hg.whole.same_of_orders hfirst hsecond hsame hlt hlt'⟩

/-- A grammar that goes on with one deferral and one that goes on with many go on to the same,
the latter with one deferral at most. -/
theorem Tidy.strip (hg : g.Tidy T) (ha : g.Supplies a) (hb : g.Unfolds b) :
    ∃ a' b' M, a.Unfolds a' ∧ Relation.ReflGen Supplies b b' ∧ Matching.below g ≤ M ∧
      Same T M a' b' := by
  have hta := hg.supplies ha
  induction hb with
  | refl =>
    exact ⟨a, a, _, .refl, .single ha,
      Matching.below_mono (Precedes.unfolds hg (.single ha)).count_le, hta.whole.same⟩
  | @tail b d hb hd ih =>
    obtain ⟨a', b', M, ha', hb', hle, hsame⟩ := ih
    have htb := hg.unfolds hb
    have hta' := hta.unfolds ha'
    -- the deferral of the first grammar has been built among the many, or is still to be
    cases hb' with
    | refl =>
      obtain ⟨a'', M', ha'', hle', hsame'⟩ := hsame.flip.supplies htb hta' hd
      exact ⟨a'', d, M'.flip, ha'.tail ha'', .refl, hle.trans fun k i j h => hle' k j i h,
        hsame'.flip⟩
    | single hb' =>
      rcases htb.diamond hb' hd with rfl | ⟨x, y, M', hx, hy, hle', hsame'⟩
      · exact ⟨a', b', M, ha', .refl, hle, hsame⟩
      · obtain ⟨a'', N, ha'', hleN, hsameN⟩ := hsame.flip.supplies (htb.supplies hb') hta' hx
        refine ⟨a'', y, N.flip.comp M', ha'.tail ha'', .single hy, ?_, hsameN.flip.comp hsame'⟩
        intro k i j h
        obtain ⟨rfl, hi⟩ := h
        have hib := Nat.lt_of_lt_of_le hi ((Precedes.unfolds hg hb).count_le k)
        exact ⟨i, hleN k i i (hle k i i ⟨rfl, hi⟩), hle' k i i ⟨rfl, hib⟩⟩

/-- Two unfoldings of a grammar unfold to the same. -/
theorem Tidy.confluent (hg : g.Tidy T) (ha : g.Unfolds a) (hb : g.Unfolds b) :
    ∃ a' b' M, a.Unfolds a' ∧ b.Unfolds b' ∧ Matching.below g ≤ M ∧ Same T M a' b' := by
  induction ha with
  | refl => exact ⟨b, b, _, hb, .refl, Matching.below_mono (Precedes.unfolds hg hb).count_le,
      (hg.unfolds hb).whole.same⟩
  | @tail a d ha hd ih =>
    obtain ⟨a', b', M, ha', hb', hle, hsame⟩ := ih
    have hta := hg.unfolds ha
    obtain ⟨d', a'', N, hd', ha'', hleN, hsameN⟩ := hta.strip hd ha'
    have hbelow : ∀ k i, i < g.count k → N k i i := fun k i hi =>
      hleN k i i ⟨rfl, Nat.lt_of_lt_of_le hi ((Precedes.unfolds hg ha).count_le k)⟩
    cases ha'' with
    | refl =>
      refine ⟨d', b', N.comp M, hd', hb', ?_, hsameN.comp hsame⟩
      rintro k i _ ⟨rfl, hi⟩
      exact ⟨i, hbelow k i hi, hle k i i ⟨rfl, hi⟩⟩
    | single ha'' =>
      obtain ⟨b'', M', hb'', hle', hsame'⟩ :=
        hsame.supplies (hta.unfolds ha') (hg.unfolds (hb.trans hb')) ha''
      refine ⟨d', b'', N.comp M', hd', hb'.tail hb'', ?_, hsameN.comp hsame'⟩
      rintro k i _ ⟨rfl, hi⟩
      exact ⟨i, hbelow k i hi, hle' k i i (hle k i i ⟨rfl, hi⟩)⟩

/-! ## What is the same is kept alike -/

namespace Same

/-- Deferrals that match are settled alike. -/
theorem settled (h : Same T M a b) {x x' : Nat} (hx : M .deferral x x') {r : Recognizer V α}
    (hr : a.deferrals[x]? = some (.settled r)) :
    ∃ r', b.deferrals[x']? = some (.settled r') ∧ r.Matches T M r' := by
  have hrel := h.deferrals x x' hx
  rw [hr] at hrel
  obtain ⟨d, hd, hrel⟩ := exists_of_rel_some hrel
  cases hrel with
  | settled hrel => exact ⟨_, hd, hrel⟩

/-- A link that leads anywhere matches another one. -/
theorem exists_matches (h : Same T M a b) {l k : Link} (hlk : a.Holds l k) :
    ∃ l', l.Matches M l' := by
  rcases List.mem_append.1 (mem_allLinks_of_holds hlk) with hl | hl
  · obtain ⟨x, hx, rfl⟩ := List.mem_map.1 hl
    obtain ⟨x', hx'⟩ := (h.pairs.left .definition x).1 (List.mem_range.1 hx)
    exact ⟨_, .definition hx'⟩
  · obtain ⟨x, hx, rfl⟩ := List.mem_map.1 hl
    obtain ⟨x', hx'⟩ := (h.pairs.left .deferral x).1 (List.mem_range.1 hx)
    exact ⟨_, .deferred hx'⟩

/-- Links that match lead to links that match. -/
theorem holds (h : Same T M a b) {l l' k : Link} (hl : l.Matches M l') (hlk : a.Holds l k) :
    ∃ k', k.Matches M k' ∧ b.Holds l' k' := by
  unfold Holds linksBehind at hlk ⊢
  cases hl with
  | @definition x x' hx =>
    dsimp only at hlk ⊢
    split at hlk
    next r hr =>
      have hrel := h.definitions x x' hx
      rw [hr] at hrel
      obtain ⟨r', hr', hrel⟩ := exists_of_rel_some hrel
      obtain ⟨k', hk', hmatch⟩ := hrel.handle.held.1 k hlk
      rw [Option.join_eq_some_iff.1 hr']
      exact ⟨k', hmatch, hk'⟩
    · cases hlk
  | @deferred x x' hx =>
    dsimp only at hlk ⊢
    split at hlk
    next r hr =>
      obtain ⟨r', hr', hrel⟩ := h.settled hx hr
      obtain ⟨k', hk', hmatch⟩ := hrel.handle.held.1 k hlk
      rw [hr']
      exact ⟨k', hmatch, hk'⟩
    · cases hlk
  | self _ => cases hlk
  | unbound => cases hlk

/-- In grammars that are the same up to numbers, matching links reach matching links. -/
theorem reaches (h : Same T M a b) {l l' k : Link} (hl : l.Matches M l') (hlk : a.Reaches l k) :
    ∃ k', k.Matches M k' ∧ b.Reaches l' k' := by
  induction hlk with
  | refl => exact ⟨l', hl, .refl⟩
  | tail _ hkx ih =>
    obtain ⟨k', hk', hreach⟩ := ih
    obtain ⟨x', hx', hholds⟩ := h.holds hk' hkx
    exact ⟨x', hx', hreach.tail hholds⟩

/-- What a link matches that is kept is kept. -/
theorem kept (h : Same T M a b) {l l' : Link} (hl : l.Matches M l') (hkept : a.Kept l) :
    b.Kept l' := by
  obtain ⟨top, htop, hreach⟩ := hkept
  have hfound : ∃ top', top.Matches M top' ∧ b.Kept top' := by
    rcases htop with ⟨r, hr, hheld⟩ | hself
    · obtain ⟨x, hx, rfl⟩ := List.mem_map.1 hr
      obtain ⟨y, hy, hxy⟩ := (mutual_of_forall₂ h.names).1 x hx
      obtain ⟨top', htop', hmatch⟩ := hxy.2.handle.held.1 top hheld
      exact ⟨top', hmatch, top', .inl ⟨y.2, List.mem_map_of_mem hy, htop'⟩, .refl⟩
    · obtain ⟨k, hk, hback⟩ := Relation.TransGen.head'_iff.1 hself
      obtain ⟨top', hmatch⟩ := h.exists_matches hk
      obtain ⟨k', hk', hholds⟩ := h.holds hmatch hk
      obtain ⟨last, hlast, hreach⟩ := h.reaches hk' hback
      obtain rfl := hmatch.unique h.pairs.oneToOne hlast
      exact ⟨top', hmatch, top', .inr (.head' hholds hreach), .refl⟩
  obtain ⟨top', hmatch, hkept⟩ := hfound
  obtain ⟨last, hlast, hreach⟩ := h.reaches hmatch hreach
  obtain rfl := hl.unique h.pairs.oneToOne hlast
  exact hkept.reaches hreach

/-- A grammar includes those that are the same. -/
theorem includes (h : Same T M a b) : a.Includes T M b :=
  ⟨fun _ _ => h.pairs.lt, fun _ _ => h.pairs.lt, h.definitions, fun _ _ _ hx => h.settled hx,
    fun _ _ hx => ⟨h.flip.kept (.definition hx), h.kept (.definition hx)⟩⟩

end Same

/-- A grammar that is included in one that is included in a third is included in it. -/
theorem Includes.comp {M' : Matching} (h : a.Includes T M a') (h' : a'.Includes T M' b) :
    a.Includes T (M.comp M') b := by
  refine ⟨?_, ?_, ?_, ?_, ?_⟩
  · rintro x x' ⟨n, hn, hn'⟩
    exact ⟨(h.definition_lt x n hn).1, (h'.definition_lt n x' hn').2⟩
  · rintro x x' ⟨n, hn, hn'⟩
    exact ⟨(h.deferral_lt x n hn).1, (h'.deferral_lt n x' hn').2⟩
  · rintro x x' ⟨n, hn, hn'⟩
    exact rel_comp (h.definitions x n hn) (h'.definitions n x' hn')
      fun _ _ _ => Recognizer.Matches.comp
  · rintro x x' r ⟨n, hn, hn'⟩ hr
    obtain ⟨q, hq, hrq⟩ := h.settled x n r hn hr
    obtain ⟨r', hr', hqr'⟩ := h'.settled n x' q hn' hq
    exact ⟨r', hr', hrq.comp hqr'⟩
  · rintro x x' ⟨n, hn, hn'⟩
    exact (h'.kept_iff n x' hn').trans (h.kept_iff x n hn)

/-- One unfolding of a grammar is included in an extension of another one. -/
theorem Tidy.exists_includes (hg : g.Tidy T) (ha : g.Unfolds a) (hb : g.Unfolds b) :
    ∃ b' M, b.Unfolds b' ∧ Matching.below g ≤ M ∧ M.OneToOne ∧ a.Includes T M b' := by
  obtain ⟨a', b', M, ha', hb', hle, hsame⟩ := hg.confluent ha hb
  refine ⟨b', (Matching.below a).comp M, hb', ?_,
    (Matching.oneToOne_below a).comp hsame.pairs.oneToOne,
    ((hg.unfolds ha).includes ha').comp hsame.includes⟩
  rintro k i _ ⟨rfl, hi⟩
  exact ⟨i, ⟨rfl, Nat.lt_of_lt_of_le hi ((Precedes.unfolds hg ha).count_le k)⟩, hle k i i ⟨rfl, hi⟩⟩

end Grammar

end SlotGrammar
