import SlotGrammar.Proofs.Usage

/-!
# Renumbering

Recognizers, stores and cells are numbered in the order in which they are made.  So what is
built in two grammars from one expression is the same up to numbers, as long as names stand
for the same up to numbers in both.  A matching says which number of one grammar stands for
which of the other, and grows as both grammars do.

Main results:

- Theorem `Recognizer.Matches.mono`: what matches still does when more numbers are matched.
- Theorem `build_alike`: building an expression in two grammars makes matching recognizers.
-/

namespace SlotGrammar

variable {V α : Type}

/-! ## Matchings -/

/-- What a grammar numbers. -/
inductive Numbered where
  | node
  | store
  | definition
  | deferral

/-- The number for the next one of a sort in a grammar. -/
def Grammar.count (g : Grammar V α) : Numbered → Nat
  | .node => g.nextNode
  | .store => g.stores.size
  | .definition => g.definitions.size
  | .deferral => g.deferrals.size

/-- Which numbers of one grammar stand for which of another one. -/
abbrev Matching := Numbered → Nat → Nat → Prop

/-- Whether each member of two lists goes with one of the other. -/
def Mutual {β γ : Type} (R : β → γ → Prop) (xs : List β) (ys : List γ) : Prop :=
  (∀ x ∈ xs, ∃ y ∈ ys, R x y) ∧ ∀ y ∈ ys, ∃ x ∈ xs, R x y

/-- A weaker relation of members relates the same lists. -/
theorem Mutual.mono {β γ : Type} {R R' : β → γ → Prop} (h : ∀ x y, R x y → R' x y) {xs : List β}
    {ys : List γ} (hxs : Mutual R xs ys) : Mutual R' xs ys := by
  constructor
  · intro x hx
    obtain ⟨y, hy, hxy⟩ := hxs.1 x hx
    exact ⟨y, hy, h x y hxy⟩
  · intro y hy
    obtain ⟨x, hx, hxy⟩ := hxs.2 y hy
    exact ⟨x, hx, h x y hxy⟩

/-- Lists that are related one by one are related by members on both sides. -/
theorem mutual_of_forall₂ {β γ : Type} {R : β → γ → Prop} {xs : List β} {ys : List γ}
    (h : List.Forall₂ R xs ys) : Mutual R xs ys := by
  induction h with
  | nil => simp [Mutual]
  | cons hxy _ ih =>
    constructor
    · intro x hx
      rcases List.mem_cons.1 hx with rfl | hx
      · exact ⟨_, List.mem_cons_self, hxy⟩
      · obtain ⟨y, hy, hxy⟩ := ih.1 x hx
        exact ⟨y, List.mem_cons_of_mem _ hy, hxy⟩
    · intro y hy
      rcases List.mem_cons.1 hy with rfl | hy
      · exact ⟨_, List.mem_cons_self, hxy⟩
      · obtain ⟨x, hx, hxy⟩ := ih.2 y hy
        exact ⟨x, List.mem_cons_of_mem _ hx, hxy⟩

/-- A weaker relation relates the same optional values. -/
theorem rel_mono {β γ : Type} {R R' : β → γ → Prop} (h : ∀ x y, R x y → R' x y) {x : Option β}
    {y : Option γ} (hxy : Option.Rel R x y) : Option.Rel R' x y := by
  cases hxy with
  | some hxy => exact .some (h _ _ hxy)
  | none => exact .none

/-- What is related to a value is a value. -/
theorem exists_of_rel_some {β γ : Type} {R : β → γ → Prop} {x : β} {y : Option γ}
    (h : Option.Rel R (some x) y) : ∃ y', y = some y' ∧ R x y' := by
  cases h with
  | some h => exact ⟨_, rfl, h⟩

/-- Only a value is related to a value. -/
theorem exists_of_rel_some_right {β γ : Type} {R : β → γ → Prop} {x : Option β} {y : γ}
    (h : Option.Rel R x (some y)) : ∃ x', x = some x' ∧ R x' y := by
  cases h with
  | some h => exact ⟨_, rfl, h⟩

/-- Nothing is related to nothing only. -/
theorem eq_none_of_rel_none {β γ : Type} {R : β → γ → Prop} {y : Option γ}
    (h : Option.Rel R none y) : y = none := by
  cases h with
  | none => rfl

/-- Whether two links are to matching cells. -/
inductive Link.Matches (M : Matching) : Link → Link → Prop where
  | definition {c c' : Nat} (h : M .definition c c') : Matches M (.definition c) (.definition c')
  | self {c c' : Nat} (h : M .definition c c') : Matches M (.self c) (.self c')
  | deferred {c c' : Nat} (h : M .deferral c c') : Matches M (.deferred c) (.deferred c')
  | unbound : Matches M .unbound .unbound

/-- Whether two handles keep their outcomes alike, in matching stores. -/
inductive Caching.Matches (M : Matching) : Caching → Caching → Prop where
  | never : Matches M .never .never
  | paused {s s' : StoreId} (h : M .store s s') : Matches M (.paused s) (.paused s')
  | active {s s' : StoreId} (h : M .store s s') : Matches M (.active s) (.active s')

/-- Whether two handles have matching numbers and hold matching links. -/
structure Handle.Matches (M : Matching) (h h' : Handle) : Prop where
  id : M .node h.id h'.id
  node : M .node h.node h'.node
  caching : h.caching.Matches M h'.caching
  held : Mutual (Link.Matches M) h.held h'.held

/-- Whether two recognizers are the same up to numbers, with shapes of some kind. -/
inductive Recognizer.Matches (T : Shape V α Unit → Prop) (M : Matching) :
    Recognizer V α → Recognizer V α → Prop where
  | node {handle handle' : Handle} {shape : Shape V α (Recognizer V α)}
      {ps : List (Recognizer V α)} (hhandle : handle.Matches M handle') (hkind : T shape.outline)
      (hlength : ps.length = shape.parts.length)
      (hparts : ∀ x ∈ shape.parts.zip ps, Matches T M x.1 x.2) :
      Matches T M (.node handle shape) (.node handle' (shape.withParts ps))
  | link {handle handle' : Handle} {l l' : Link} (hhandle : handle.Matches M handle')
      (hlink : l.Matches M l') : Matches T M (.link handle l) (.link handle' l')

section Matches

variable {T : Shape V α Unit → Prop} {M M' : Matching}

/-- Links that match do so under a greater matching. -/
theorem Link.Matches.mono (h : M ≤ M') {l l' : Link} (hl : l.Matches M l') : l.Matches M' l' := by
  cases hl with
  | definition hc => exact .definition (h _ _ _ hc)
  | self hc => exact .self (h _ _ _ hc)
  | deferred hc => exact .deferred (h _ _ _ hc)
  | unbound => exact .unbound

/-- Matching links hold matching links. -/
theorem Link.Matches.held {l l' : Link} (hl : l.Matches M l') :
    Mutual (Link.Matches M) l.held l'.held := by
  cases hl with
  | definition hc => exact ⟨by simpa [Link.held] using .definition hc,
      by simpa [Link.held] using .definition hc⟩
  | self hc => simp [Mutual, Link.held]
  | deferred hc => exact ⟨by simpa [Link.held] using .deferred hc,
      by simpa [Link.held] using .deferred hc⟩
  | unbound => simp [Mutual, Link.held]

/-- Cachings that match do so under a greater matching. -/
theorem Caching.Matches.mono (h : M ≤ M') {caching caching' : Caching}
    (hc : caching.Matches M caching') : caching.Matches M' caching' := by
  cases hc with
  | never => exact .never
  | paused hs => exact .paused (h _ _ _ hs)
  | active hs => exact .active (h _ _ _ hs)

/-- Cachings that match are active together. -/
theorem Caching.Matches.isActive_eq {caching caching' : Caching}
    (h : caching.Matches M caching') : caching'.isActive = caching.isActive := by
  cases h <;> rfl

/-- Matching handles have matching stores, if any. -/
theorem Caching.Matches.store? {caching caching' : Caching} (h : caching.Matches M caching') :
    caching.store? = none ∧ caching'.store? = none ∨
      ∃ s s', caching.store? = some s ∧ caching'.store? = some s' ∧ M .store s s' := by
  cases h with
  | never => exact .inl ⟨rfl, rfl⟩
  | paused hs => exact .inr ⟨_, _, rfl, rfl, hs⟩
  | active hs => exact .inr ⟨_, _, rfl, rfl, hs⟩

/-- Handles that match do so under a greater matching. -/
theorem Handle.Matches.mono (h : M ≤ M') {handle handle' : Handle}
    (hh : handle.Matches M handle') : handle.Matches M' handle' :=
  ⟨h _ _ _ hh.id, h _ _ _ hh.node, hh.caching.mono h, hh.held.mono fun _ _ hl => hl.mono h⟩

namespace Recognizer.Matches

variable {r r' : Recognizer V α}

/-- What matches still does when more numbers are matched. -/
theorem mono (h : M ≤ M') (hr : r.Matches T M r') : r.Matches T M' r' := by
  induction hr with
  | node hhandle hkind hlength _ ih => exact .node (hhandle.mono h) hkind hlength ih
  | link hhandle hlink => exact .link (hhandle.mono h) (hlink.mono h)

/-- Recognizers that match have handles that do. -/
theorem handle (h : r.Matches T M r') : r.handle.Matches M r'.handle := by
  cases h with
  | node hhandle _ _ _ => exact hhandle
  | link hhandle _ => exact hhandle

/-- Recognizers that match still do under matching handles. -/
theorem withHandle (h : r.Matches T M r') {handle handle' : Handle}
    (hhandle : handle.Matches M handle') :
    (r.withHandle handle).Matches T M (r'.withHandle handle') := by
  cases h with
  | node _ hkind hlength hparts => exact .node hhandle hkind hlength hparts
  | link _ hlink => exact .link hhandle hlink

/-- Recognizers that match have a cache together. -/
theorem isCached_eq (h : r.Matches T M r') : r'.isCached = r.isCached :=
  h.handle.caching.isActive_eq

/-- What matches a recognizer with a shape has that shape, over matching parts. -/
theorem parts {handle : Handle} {shape : Shape V α (Recognizer V α)}
    (h : Recognizer.Matches T M (.node handle shape) r') :
    ∃ handle' ps, r' = .node handle' (shape.withParts ps) ∧ handle.Matches M handle' ∧
      T shape.outline ∧ List.Forall₂ (Recognizer.Matches T M) shape.parts ps := by
  cases h with
  | node hhandle hkind hlength hparts =>
    exact ⟨_, _, rfl, hhandle, hkind,
      List.forall₂_iff_zip.2 ⟨hlength.symm, fun hx => hparts _ hx⟩⟩

end Recognizer.Matches

/-- Shapes over matching parts hold matching links. -/
theorem Shape.held_matches {shape : Shape V α (Recognizer V α)} {ps : List (Recognizer V α)}
    (h : List.Forall₂ (Recognizer.Matches T M) shape.parts ps) :
    Mutual (Link.Matches M) shape.held (shape.withParts ps).held := by
  have hparts := shape.parts_withParts h.length_eq.symm
  have hmutual := mutual_of_forall₂ h
  constructor
  · intro l hl
    obtain ⟨p, hp, hl⟩ := Shape.mem_held_iff.1 hl
    obtain ⟨q, hq, hpq⟩ := hmutual.1 p hp
    obtain ⟨l', hl', hmatch⟩ := hpq.handle.held.1 l hl
    exact ⟨l', Shape.mem_held_iff.2 ⟨q, by rwa [hparts], hl'⟩, hmatch⟩
  · intro l' hl'
    obtain ⟨q, hq, hl'⟩ := Shape.mem_held_iff.1 hl'
    obtain ⟨p, hp, hpq⟩ := hmutual.2 q (by rwa [hparts] at hq)
    obtain ⟨l, hl, hmatch⟩ := hpq.handle.held.2 l' hl'
    exact ⟨l, Shape.mem_held_iff.2 ⟨p, hp, hl⟩, hmatch⟩

end Matches

/-- Only the last parts that a shape is given count. -/
theorem Shape.withParts_withParts {ρ σ τ : Type} (shape : Shape V α ρ) {ps : List σ}
    (h : ps.length = shape.parts.length) (ps' : List τ) :
    (shape.withParts ps).withParts ps' = shape.withParts ps' := by
  cases shape <;> simp only [parts, List.length_cons, List.length_nil] at h
  case sequence => rfl
  case choice => rfl
  all_goals
    first
    | obtain rfl := List.eq_nil_of_length_eq_zero h
    | obtain ⟨p, rfl⟩ := List.length_eq_one_iff.1 h
    | obtain ⟨p, q, rfl⟩ := List.length_eq_two.1 h
    | obtain ⟨p, q, r, rfl⟩ := List.length_eq_three.1 h
    rcases ps' with _ | ⟨p', _ | ⟨q', _ | ⟨r', _ | _⟩⟩⟩ <;> rfl

/-! ## Names -/

/-- Whether the same names stand for matching recognizers. -/
def Bind (T : Shape V α Unit → Prop) (M : Matching) (xs ys : List (String × Recognizer V α)) :
    Prop :=
  List.Forall₂ (fun x y => x.1 = y.1 ∧ x.2.Matches T M y.2) xs ys

namespace Bind

variable {T : Shape V α Unit → Prop} {M M' : Matching} {xs ys : List (String × Recognizer V α)}
  {r r' : Recognizer V α}

theorem mono (hM : M ≤ M') (h : Bind T M xs ys) : Bind T M' xs ys :=
  h.imp fun _ _ hxy => ⟨hxy.1, hxy.2.mono hM⟩

/-- Tables that match have matching recognizers at every name, or none. -/
theorem lookup (h : Bind T M xs ys) (name : String) :
    Option.Rel (Recognizer.Matches T M) (Table.lookup name xs) (Table.lookup name ys) := by
  induction h with
  | nil => exact .none
  | @cons x y xs ys hxy _ ih =>
    rw [Table.lookup, Table.lookup, ← hxy.1]
    split
    · exact .some hxy.2
    · exact ih

/-- Tables that match still do when a name gets matching recognizers. -/
theorem replace (h : Bind T M xs ys) (name : String) (hr : r.Matches T M r') :
    Bind T M (Table.replace name r xs) (Table.replace name r' ys) := by
  induction h with
  | nil => exact .cons ⟨rfl, hr⟩ .nil
  | @cons x y xs ys hxy hrest ih =>
    rw [Table.replace, Table.replace, ← hxy.1]
    split
    · exact .cons ⟨rfl, hr⟩ hrest
    · exact .cons hxy ih

end Bind

/-! ## Expressions -/

/-- Whether all shapes in an expression are of some kind, and nothing that is built later
binds a name; and nothing does that is built at once, unless it may. -/
inductive Expr.Proper (T : Shape V α Unit → Prop) : Bool → Expr V α → Prop where
  | make {binds : Bool} {shape : Shape V α (Expr V α)} (h : T shape.outline)
      (hparts : ∀ p ∈ shape.parts, Proper T binds p) : Proper T binds (.make shape)
  | cached {binds on : Bool} {e : Expr V α} (h : Proper T binds e) : Proper T binds (.cached on e)
  | deferred {binds : Bool} {label : String} {e : Expr V α} (h : Proper T false e) :
      Proper T binds (.deferred label e)
  | recursive {binds : Bool} {name : String} {body : Expr V α} (h : Proper T binds body) :
      Proper T binds (.recursive name body)
  | named {name : String} {e : Expr V α} (h : Proper T true e) : Proper T true (.named name e)
  | ref {binds : Bool} (name : String) : Proper T binds (.ref name)

/-! ## Building in two grammars -/

/-- The numbers that two grammars give out one after the other, as one of them grows. -/
def Matching.given (a a' b : Grammar V α) : Matching := fun k i j =>
  a.count k ≤ i ∧ i < a'.count k ∧ i + b.count k = j + a.count k

/-- A matching with the numbers that two grammars give out one after the other. -/
def Matching.grown (M : Matching) (a a' b : Grammar V α) : Matching := fun k i j =>
  M k i j ∨ given a a' b k i j

namespace Grammar

/-- Whether a grammar gets more nodes, stores and cells, and keeps those that it has. -/
structure Advances (a a' : Grammar V α) : Prop where
  count_le : ∀ k, a.count k ≤ a'.count k
  definitions : ∀ c < a.definitions.size, a'.definitions[c]? = a.definitions[c]?
  deferrals : ∀ c < a.deferrals.size, a'.deferrals[c]? = a.deferrals[c]?
  enlarges : a.Enlarges a'

theorem Advances.trans {a a' a'' : Grammar V α} (h : a.Advances a') (h' : a'.Advances a'') :
    a.Advances a'' where
  count_le k := Nat.le_trans (h.count_le k) (h'.count_le k)
  definitions c hc :=
    (h'.definitions c (Nat.lt_of_lt_of_le hc (h.count_le .definition))).trans (h.definitions c hc)
  deferrals c hc :=
    (h'.deferrals c (Nat.lt_of_lt_of_le hc (h.count_le .deferral))).trans (h.deferrals c hc)
  enlarges := h.enlarges.trans h'.enlarges

theorem Advances.refl (a : Grammar V α) : a.Advances a :=
  ⟨fun _ => Nat.le_refl _, fun _ _ => rfl, fun _ _ => rfl, .refl a⟩

/-- A new handle comes with a new store or with none. -/
theorem Advances.more (a : Grammar V α) {stores : Stores V α}
    (h : stores = a.stores ∨ stores = a.stores.push {}) :
    a.Advances { a with nextNode := a.nextNode + 1, stores } := by
  refine ⟨?_, fun _ _ => rfl, fun _ _ => rfl, ?_⟩
  · intro k
    cases k
    case node => exact Nat.le_succ _
    case store =>
      rcases h with rfl | rfl
      · exact Nat.le_refl _
      · exact Nat.le_of_lt (by simp [count])
    all_goals exact Nat.le_refl _
  · rcases h with rfl | rfl
    · exact .of_eq rfl rfl
    · exact .push a _

/-- A new definition leaves what a grammar has as it is. -/
theorem Advances.newDefinition (a : Grammar V α) : a.Advances (Grammar.newDefinition a).2 := by
  refine ⟨?_, ?_, fun _ _ => rfl, .of_eq rfl rfl⟩
  · intro k
    cases k
    case definition => exact Nat.le_of_lt (by simp [count, Grammar.newDefinition])
    all_goals exact Nat.le_refl _
  · intro c hc
    exact (Array.getElem?_push_lt hc).trans (Array.getElem?_eq_getElem hc).symm

/-- A new deferral leaves what a grammar has as it is. -/
theorem Advances.newDeferral (a : Grammar V α) (d : Deferral V α) :
    a.Advances (Grammar.newDeferral d a).2 := by
  refine ⟨?_, fun _ _ => rfl, ?_, .of_eq rfl rfl⟩
  · intro k
    cases k
    case deferral => exact Nat.le_of_lt (by simp [count, Grammar.newDeferral])
    all_goals exact Nat.le_refl _
  · intro c hc
    exact (Array.getElem?_push_lt hc).trans (Array.getElem?_eq_getElem hc).symm

/-- Whether two cells await the same expression in matching scopes. -/
def AwaitAlike (T : Shape V α Unit → Prop) (M : Matching) (d d' : Option (Deferral V α)) : Prop :=
  ∃ label e scope scope', d = some (.awaiting label e scope) ∧
    d' = some (.awaiting label e scope') ∧ e.Proper T false ∧ Bind T M scope scope'

/-- Cells that await alike do so under a greater matching. -/
theorem AwaitAlike.mono {T : Shape V α Unit → Prop} {M M' : Matching} (hM : M ≤ M')
    {d d' : Option (Deferral V α)} (h : AwaitAlike T M d d') : AwaitAlike T M' d d' := by
  obtain ⟨label, e, scope, scope', hd, hd', he, hscope⟩ := h
  exact ⟨label, e, scope, scope', hd, hd', he, hscope.mono hM⟩

/-- Whether two grammars have advanced alike: they gave out as many numbers, and what was
made under them matches. -/
structure Parallel (T : Shape V α Unit → Prop) (M : Matching) (a b a' b' : Grammar V α) :
    Prop where
  left : a.Advances a'
  right : b.Advances b'
  count_eq : ∀ k, a'.count k + b.count k = b'.count k + a.count k
  names : Bind T (M.grown a a' b) a'.names.entries b'.names.entries
  definitions : ∀ c c', Matching.given a a' b .definition c c' →
    Option.Rel (Recognizer.Matches T (M.grown a a' b)) a'.definitions[c]?.join
      b'.definitions[c']?.join
  deferrals : ∀ c c', Matching.given a a' b .deferral c c' →
    AwaitAlike T (M.grown a a' b) a'.deferrals[c]? b'.deferrals[c']?

end Grammar

namespace Matching

variable {M : Matching} {a a' a'' b b' : Grammar V α}

/-- A matching that grows keeps what it had. -/
theorem le_grown (M : Matching) (a a' b : Grammar V α) : M ≤ M.grown a a' b :=
  fun _ _ _ h => .inl h

/-- Numbers that are given out in two turns are given out in one. -/
theorem grown_grown (hle : ∀ k, a.count k ≤ a'.count k) (hle' : ∀ k, a'.count k ≤ a''.count k)
    (hcount : ∀ k, a'.count k + b.count k = b'.count k + a.count k) :
    (M.grown a a' b).grown a' a'' b' = M.grown a a'' b := by
  funext k i j
  have := hle k
  have := hle' k
  have := hcount k
  simp only [grown, given, eq_iff_iff]
  constructor
  · rintro ((h | h) | h)
    · exact .inl h
    · exact .inr (by omega)
    · exact .inr (by omega)
  · rintro (h | h)
    · exact .inl (.inl h)
    · by_cases hi : i < a'.count k
      · exact .inl (.inr (by omega))
      · exact .inr (by omega)

/-- Where nothing is made, a matching does not grow. -/
theorem grown_self (M : Matching) (a b : Grammar V α) : M.grown a a b = M := by
  funext k i j
  simp only [grown, given, eq_iff_iff, or_iff_left_iff_imp]
  omega

end Matching

namespace Grammar

namespace Parallel

variable {T : Shape V α Unit → Prop} {M : Matching} {a a' a'' b b' b'' : Grammar V α}

/-- What is done in two turns is done in one. -/
theorem trans (h : Parallel T M a b a' b') (h' : Parallel T (M.grown a a' b) a' b' a'' b'') :
    Parallel T M a b a'' b'' := by
  have hgrown := Matching.grown_grown (M := M) h.left.count_le h'.left.count_le h.count_eq
  have hle := hgrown ▸ Matching.le_grown (M.grown a a' b) a' a'' b'
  refine ⟨h.left.trans h'.left, h.right.trans h'.right, ?_, hgrown ▸ h'.names, ?_, ?_⟩
  · intro k
    have := h.count_eq k
    have := h'.count_eq k
    have := h.left.count_le k
    have := h'.left.count_le k
    omega
  · intro c c' hc
    by_cases hlt : c < a'.definitions.size
    · have hold : Matching.given a a' b .definition c c' := ⟨hc.1, hlt, hc.2.2⟩
      have hlt' : c' < b'.definitions.size := by
        have hcount : a'.definitions.size + b.definitions.size =
          b'.definitions.size + a.definitions.size := h.count_eq .definition
        have hsum : c + b.definitions.size = c' + a.definitions.size := hc.2.2
        omega
      rw [h'.left.definitions c hlt, h'.right.definitions c' hlt']
      exact rel_mono (fun _ _ hr => hr.mono hle) (h.definitions c c' hold)
    · rw [← hgrown]
      refine h'.definitions c c' ⟨Nat.le_of_not_lt hlt, hc.2.1, ?_⟩
      have := h.count_eq .definition
      have := hc.2.2
      omega
  · intro c c' hc
    by_cases hlt : c < a'.deferrals.size
    · have hold : Matching.given a a' b .deferral c c' := ⟨hc.1, hlt, hc.2.2⟩
      have hlt' : c' < b'.deferrals.size := by
        have hcount : a'.deferrals.size + b.deferrals.size =
          b'.deferrals.size + a.deferrals.size := h.count_eq .deferral
        have hsum : c + b.deferrals.size = c' + a.deferrals.size := hc.2.2
        omega
      rw [h'.left.deferrals c hlt, h'.right.deferrals c' hlt']
      exact (h.deferrals c c' hold).mono hle
    · rw [← hgrown]
      refine h'.deferrals c c' ⟨Nat.le_of_not_lt hlt, hc.2.1, ?_⟩
      have := h.count_eq .deferral
      have := hc.2.2
      omega

/-- What makes no cells advances alike when it makes as many nodes and stores. -/
theorem of_sizes (hleft : a.Advances a') (hright : b.Advances b')
    (hcount : ∀ k, a'.count k + b.count k = b'.count k + a.count k)
    (hnames : Bind T (M.grown a a' b) a'.names.entries b'.names.entries)
    (hdefinitions : a'.definitions.size = a.definitions.size)
    (hdeferrals : a'.deferrals.size = a.deferrals.size) : Parallel T M a b a' b' := by
  refine ⟨hleft, hright, hcount, hnames, ?_, ?_⟩
  · rintro c c' ⟨hle, hlt, -⟩
    exact absurd (Nat.lt_of_lt_of_eq hlt hdefinitions) (Nat.not_lt_of_le hle)
  · rintro c c' ⟨hle, hlt, -⟩
    exact absurd (Nat.lt_of_lt_of_eq hlt hdeferrals) (Nat.not_lt_of_le hle)

/-- New handles have matching numbers. -/
theorem more (hnames : Bind T M a.names.entries b.names.entries) (stores stores' : Stores V α)
    (h : stores = a.stores ∧ stores' = b.stores ∨
      stores = a.stores.push {} ∧ stores' = b.stores.push {}) :
    Parallel T M a b { a with nextNode := a.nextNode + 1, stores }
        { b with nextNode := b.nextNode + 1, stores := stores' } ∧
      M.grown a { a with nextNode := a.nextNode + 1, stores } b .node a.nextNode b.nextNode := by
  refine ⟨.of_sizes (.more a (h.imp And.left And.left)) (.more b (h.imp And.right And.right)) ?_
    (hnames.mono (M.le_grown _ _ _)) rfl rfl, ?_⟩
  · intro k
    cases k
    case node =>
      show a.nextNode + 1 + b.nextNode = b.nextNode + 1 + a.nextNode
      omega
    case store =>
      show stores.size + b.stores.size = stores'.size + a.stores.size
      rcases h with ⟨rfl, rfl⟩ | ⟨rfl, rfl⟩
      · exact Nat.add_comm _ _
      · simp only [Array.size_push]
        omega
    all_goals exact Nat.add_comm _ _
  · exact .inr ⟨Nat.le_refl _, Nat.lt_succ_self _, Nat.add_comm _ _⟩

end Parallel

/-- Whether two constructions make the same up to numbers from grammars in which names stand
for the same up to numbers. -/
def Alike {β γ : Type} (T : Shape V α Unit → Prop) (P : Matching → Prop) (m : GrammarM V α β)
    (m' : GrammarM V α γ) (R : Matching → β → γ → Prop) : Prop :=
  ∀ (M : Matching) (a b : Grammar V α), P M → Bind T M a.names.entries b.names.entries →
    Parallel T M a b (m a).2 (m' b).2 ∧ R (M.grown a (m a).2 b) (m a).1 (m' b).1

namespace Alike

variable {T : Shape V α Unit → Prop} {P : Matching → Prop} {β γ δ ε : Type}

/-- Two constructions in two parts are alike when both parts are. -/
theorem bind (hP : ∀ M M', M ≤ M' → P M → P M') {m : GrammarM V α β} {m' : GrammarM V α γ}
    {R : Matching → β → γ → Prop} {next : β → GrammarM V α δ} {next' : γ → GrammarM V α ε}
    {R' : Matching → δ → ε → Prop} (h : Alike T P m m' R)
    (hnext : ∀ x y, Alike T (fun M => P M ∧ R M x y) (next x) (next' y) R') :
    Alike T P (m >>= next) (m' >>= next') R' := by
  intro M a b hM hnames
  obtain ⟨hparallel, hR⟩ := h M a b hM hnames
  obtain ⟨hparallel', hR'⟩ := hnext _ _ _ (m a).2 (m' b).2
    ⟨hP _ _ (M.le_grown a (m a).2 b) hM, hR⟩ hparallel.names
  rw [Matching.grown_grown hparallel.left.count_le hparallel'.left.count_le hparallel.count_eq]
    at hR'
  exact ⟨hparallel.trans hparallel', hR'⟩

/-- Nothing is made alike when what is given back is. -/
theorem pure {x : β} {y : γ} {R : Matching → β → γ → Prop} (h : ∀ M, P M → R M x y) :
    Alike T P (Pure.pure x) (Pure.pure y) R := by
  intro M a b hM hnames
  have hsame := Matching.grown_self M a b
  refine ⟨.of_sizes (.refl a) (.refl b) (fun k => Nat.add_comm _ _) ?_ rfl rfl, ?_⟩
  · exact hnames.mono (M.le_grown a a b)
  · show R (M.grown a a b) x y
    rw [hsame]
    exact h M hM

/-- New handles have matching numbers. -/
theorem newHandle (make : Handle → β) (make' : Handle → γ) {R : Matching → β → γ → Prop}
    {ls ls' : List Link} (hheld : ∀ M, P M → Mutual (Link.Matches M) ls ls')
    (hP : ∀ M M', M ≤ M' → P M → P M')
    (h : ∀ M handle handle', P M → Handle.Matches M handle handle' →
      R M (make handle) (make' handle')) :
    Alike T P (do return make (← Grammar.newHandle ls)) (do return make' (← Grammar.newHandle ls'))
      R := by
  intro M a b hM hnames
  obtain ⟨hparallel, hnew⟩ := Parallel.more hnames a.stores b.stores (.inl ⟨rfl, rfl⟩)
  have hle := M.le_grown a { a with nextNode := a.nextNode + 1 } b
  exact ⟨hparallel, h _ _ _ (hP _ _ hle hM)
    ⟨hnew, hnew, .never, (hheld M hM).mono fun _ _ hl => hl.mono hle⟩⟩

/-- Constructions that are alike are so in fewer states. -/
theorem weaken {Q : Matching → Prop} {m : GrammarM V α β} {m' : GrammarM V α γ}
    {R : Matching → β → γ → Prop} (h : Alike T P m m' R) (hQ : ∀ M, Q M → P M) :
    Alike T Q m m' R :=
  fun M a b hM hnames => h M a b (hQ M hM) hnames

variable {r r' : Recognizer V α}

/-- A node over matching parts matches. -/
theorem newNode {shape : Shape V α (Recognizer V α)} {ps : List (Recognizer V α)}
    (hkind : T shape.outline) :
    Alike T (fun M => List.Forall₂ (Recognizer.Matches T M) shape.parts ps)
      (Grammar.newNode shape) (Grammar.newNode (shape.withParts ps)) (Recognizer.Matches T) := by
  have hmono : ∀ M M' : Matching, M ≤ M' → List.Forall₂ (Recognizer.Matches T M) shape.parts ps →
      List.Forall₂ (Recognizer.Matches T M') shape.parts ps :=
    fun M M' hM h => h.imp fun _ _ hp => hp.mono hM
  refine newHandle (Recognizer.node · shape) (Recognizer.node · (shape.withParts ps))
    (fun M => Shape.held_matches) hmono ?_
  intro M handle handle' hps hhandle
  exact .node hhandle hkind hps.length_eq.symm fun x hx => List.forall₂_zip hps hx

/-- Links to matching cells match. -/
theorem newLink (l l' : Link) :
    Alike T (fun M => l.Matches M l') (Grammar.newLink l) (Grammar.newLink l')
      (Recognizer.Matches T) :=
  newHandle (Recognizer.link · l) (Recognizer.link · l') (fun _ => Link.Matches.held)
    (fun _ _ hM h => h.mono hM) fun _ _ _ hl hhandle => .link hhandle hl

/-- Toggling matching recognizers gives matching ones. -/
theorem withCaching (on : Bool) :
    Alike T (fun M => r.Matches T M r') (Grammar.withCaching r on) (Grammar.withCaching r' on)
      (Recognizer.Matches T) := by
  intro M a b hr hnames
  unfold Grammar.withCaching
  rw [hr.isCached_eq]
  split
  · rw [Matching.grown_self]
    exact ⟨.of_sizes (.refl a) (.refl b) (fun k => Nat.add_comm _ _)
      (hnames.mono (M.le_grown a a b)) rfl rfl, hr⟩
  · have hhandle : ∀ {a' : Grammar V α} {caching caching' : Caching},
        M.grown a a' b .node a.nextNode b.nextNode → caching.Matches (M.grown a a' b) caching' →
        (r.withHandle { r.handle with node := a.nextNode, caching }).Matches T (M.grown a a' b)
          (r'.withHandle { r'.handle with node := b.nextNode, caching := caching' }) := by
      intro a' caching caching' hnode hcaching
      have hold := hr.mono (M.le_grown a a' b)
      exact hold.withHandle ⟨hold.handle.id, hnode, hcaching, hold.handle.held⟩
    have hkept := Parallel.more hnames a.stores b.stores (.inl ⟨rfl, rfl⟩)
    have hpushed := Parallel.more hnames (a.stores.push {}) (b.stores.push {}) (.inr ⟨rfl, rfl⟩)
    have hle := M.le_grown a { a with nextNode := a.nextNode + 1 } b
    rcases hr.handle.caching.store? with ⟨hs, hs'⟩ | ⟨s, s', hs, hs', hmatch⟩ <;> cases on <;>
      simp only [hs, hs']
    · exact ⟨hkept.1, hhandle hkept.2 .never⟩
    · refine ⟨hpushed.1, hhandle hpushed.2 (.active (.inr ⟨Nat.le_refl _, ?_, Nat.add_comm _ _⟩))⟩
      simp [count]
    · exact ⟨hkept.1, hhandle hkept.2 (.paused (hle _ _ _ hmatch))⟩
    · exact ⟨hkept.1, hhandle hkept.2 (.active (hle _ _ _ hmatch))⟩

/-- Empty cells for definitions match. -/
theorem newDefinition :
    Alike T P (Grammar.newDefinition : GrammarM V α Nat) Grammar.newDefinition
      fun M => M .definition := by
  intro M a b _ hnames
  have hsize : ∀ g : Grammar V α, (Grammar.newDefinition g).2.definitions.size =
      g.definitions.size + 1 := fun g => Array.size_push _
  refine ⟨⟨.newDefinition a, .newDefinition b, ?_, hnames.mono (M.le_grown _ _ _), ?_, ?_⟩, ?_⟩
  · intro k
    cases k
    case definition =>
      show (Grammar.newDefinition a).2.definitions.size + b.definitions.size =
        (Grammar.newDefinition b).2.definitions.size + a.definitions.size
      rw [hsize, hsize]
      omega
    all_goals exact Nat.add_comm _ _
  · rintro c c' ⟨hle, hlt, hsum⟩
    have hle : a.definitions.size ≤ c := hle
    have hlt : c < (Grammar.newDefinition a).2.definitions.size := hlt
    have hsum : c + b.definitions.size = c' + a.definitions.size := hsum
    rw [hsize] at hlt
    obtain rfl : c = a.definitions.size := by omega
    obtain rfl : c' = b.definitions.size := by omega
    show Option.Rel _ (a.definitions.push none)[a.definitions.size]?.join
      (b.definitions.push none)[b.definitions.size]?.join
    rw [Array.getElem?_push_size, Array.getElem?_push_size]
    exact .none
  · rintro c c' ⟨hle, hlt, -⟩
    exact absurd hlt (Nat.not_lt_of_le hle)
  · refine .inr ⟨Nat.le_refl _, ?_, Nat.add_comm _ _⟩
    show a.definitions.size < (Grammar.newDefinition a).2.definitions.size
    rw [hsize]
    exact Nat.lt_succ_self _

/-- Cells for the same expression in matching scopes match. -/
theorem newDeferral {scope scope' : Scope V α} (label : String) {e : Expr V α}
    (he : e.Proper T false) :
    Alike T (fun M => Bind T M scope scope') (Grammar.newDeferral (.awaiting label e scope))
      (Grammar.newDeferral (.awaiting label e scope')) fun M => M .deferral := by
  intro M a b hscope hnames
  have hsize : ∀ (g : Grammar V α) (d : Deferral V α),
      (Grammar.newDeferral d g).2.deferrals.size = g.deferrals.size + 1 :=
    fun g d => Array.size_push _
  refine ⟨⟨.newDeferral a _, .newDeferral b _, ?_, hnames.mono (M.le_grown _ _ _), ?_, ?_⟩, ?_⟩
  · intro k
    cases k
    case deferral =>
      show (Grammar.newDeferral _ a).2.deferrals.size + b.deferrals.size =
        (Grammar.newDeferral _ b).2.deferrals.size + a.deferrals.size
      rw [hsize, hsize]
      omega
    all_goals exact Nat.add_comm _ _
  · rintro c c' ⟨hle, hlt, -⟩
    exact absurd hlt (Nat.not_lt_of_le hle)
  · rintro c c' ⟨hle, hlt, hsum⟩
    have hle : a.deferrals.size ≤ c := hle
    have hlt : c < (Grammar.newDeferral (.awaiting label e scope) a).2.deferrals.size := hlt
    have hsum : c + b.deferrals.size = c' + a.deferrals.size := hsum
    rw [hsize] at hlt
    obtain rfl : c = a.deferrals.size := by omega
    obtain rfl : c' = b.deferrals.size := by omega
    exact ⟨label, e, scope, scope', Array.getElem?_push_size, Array.getElem?_push_size, he,
      hscope.mono (M.le_grown _ _ _)⟩
  · refine .inr ⟨Nat.le_refl _, ?_, Nat.add_comm _ _⟩
    show a.deferrals.size < (Grammar.newDeferral _ a).2.deferrals.size
    rw [hsize]
    exact Nat.lt_succ_self _

/-- A name may be bound to matching recognizers. -/
theorem bindName (name : String) :
    Alike T (fun M => r.Matches T M r') (modify fun g : Grammar V α => g.bind name r)
      (modify fun g : Grammar V α => g.bind name r') fun _ _ _ => True := by
  intro M a b hr hnames
  refine ⟨.of_sizes ⟨?_, fun _ _ => rfl, fun _ _ => rfl, .of_eq rfl rfl⟩
    ⟨?_, fun _ _ => rfl, fun _ _ => rfl, .of_eq rfl rfl⟩ ?_ ?_ rfl rfl, trivial⟩
  · exact fun k => by cases k <;> exact Nat.le_refl _
  · exact fun k => by cases k <;> exact Nat.le_refl _
  · exact fun k => by cases k <;> exact Nat.add_comm _ _
  · exact (hnames.replace name hr).mono (M.le_grown _ _ _)

/-- A name stands for matching recognizers, or for nothing. -/
theorem ref {scope scope' : Scope V α} (name : String) :
    Alike T (fun M => Bind T M scope scope') (build scope (.ref name)) (build scope' (.ref name))
      (Recognizer.Matches T) := by
  intro M a b hscope hnames
  have hresolve : Option.Rel (Recognizer.Matches T M) (a.resolve? scope name)
      (b.resolve? scope' name) := by
    have hlookup := hscope.lookup name
    have hfind := hnames.lookup name
    unfold resolve? find? Table.find?
    generalize Table.lookup name scope = found at hlookup ⊢
    generalize Table.lookup name scope' = found' at hlookup ⊢
    cases hlookup with
    | some hr => exact .some hr
    | none => exact hfind
  cases ha : a.resolve? scope name with
  | none =>
    rw [ha] at hresolve
    rw [build_unresolved ha, build_unresolved (eq_none_of_rel_none hresolve)]
    exact newLink .unbound .unbound M a b .unbound hnames
  | some r =>
    rw [ha] at hresolve
    obtain ⟨r', hb, hr⟩ := exists_of_rel_some hresolve
    rw [build_ref ha, build_ref hb]
    exact Alike.pure (P := fun M => r.Matches T M r') (fun _ h => h) M a b hr hnames

/-- The parts of a list are built alike one after the other. -/
theorem buildParts {scope scope' : Scope V α} {es : List (Expr V α)}
    (h : ∀ e ∈ es, Alike T (fun M => Bind T M scope scope') (build scope e) (build scope' e)
      (Recognizer.Matches T)) :
    Alike T (fun M => Bind T M scope scope') (Grammar.buildParts scope es)
      (Grammar.buildParts scope' es) fun M rs rs' =>
        rs.length = es.length ∧ List.Forall₂ (Recognizer.Matches T M) rs rs' := by
  induction es with
  | nil =>
    rw [Grammar.buildParts, Grammar.buildParts]
    exact pure fun _ _ => ⟨rfl, .nil⟩
  | cons e es ih =>
    rw [Grammar.buildParts, Grammar.buildParts]
    have hscope : ∀ M M' : Matching, M ≤ M' → Bind T M scope scope' → Bind T M' scope scope' :=
      fun _ _ hM h => h.mono hM
    refine (h e List.mem_cons_self).bind hscope fun r r' => ?_
    refine ((ih fun e' he' => h e' (List.mem_cons_of_mem _ he')).weaken fun _ h => h.1).bind
      (fun _ _ hM h => ⟨h.1.mono hM, h.2.mono hM⟩) fun rs rs' => ?_
    exact pure fun _ h => ⟨congrArg (· + 1) h.2.1, .cons h.1.2 h.2.2⟩

end Alike

/-! ## Building an expression -/

/-- A new recognizer is built after its parts. -/
theorem build_make (scope : Scope V α) (shape : Shape V α (Expr V α)) :
    build scope (.make shape) =
      buildParts scope shape.parts >>= fun ps => newNode (shape.withParts ps) := by
  rw [build, buildShape_eq, bind_assoc]
  rfl

section Define

variable {T : Shape V α Unit → Prop} {M : Matching} {a a' b b' : Grammar V α} {c c' : Nat}
  {r r' : Recognizer V α}

/-- Filling a cell gives out no number. -/
theorem count_define (c : Nat) (r : Recognizer V α) (g : Grammar V α) :
    (Grammar.define c r g).2.count = g.count := by
  funext k
  cases k
  case definition => exact Array.size_setIfInBounds
  all_goals rfl

/-- Settling a deferral gives out no number. -/
theorem count_settle (c : Nat) (r : Recognizer V α) (g : Grammar V α) :
    (Grammar.settle c r g).2.count = g.count := by
  funext k
  cases k
  case deferral => exact Array.size_setIfInBounds
  all_goals rfl

/-- To fill a cell of a definition makes no number. -/
theorem grown_define (M : Matching) (a a' b : Grammar V α) (c : Nat)
    (r : Recognizer V α) : M.grown a (Grammar.define c r a').2 b = M.grown a a' b := by
  unfold Matching.grown Matching.given
  rw [count_define]

/-- Filling cells that are new and match keeps what has advanced alike so. -/
theorem Parallel.define (h : Parallel T M a b a' b')
    (hc : Matching.given a a' b .definition c c') (hr : r.Matches T (M.grown a a' b) r') :
    Parallel T M a b (Grammar.define c r a').2 (Grammar.define c' r' b').2 := by
  have hgrown := grown_define M a a' b c r
  have hle : a.definitions.size ≤ c := hc.1
  have hlt : c < a'.definitions.size := hc.2.1
  have hsum : c + b.definitions.size = c' + a.definitions.size := hc.2.2
  have hcount : a'.definitions.size + b.definitions.size =
    b'.definitions.size + a.definitions.size := h.count_eq .definition
  have hother : ∀ {c x : Nat} (r : Recognizer V α) (g : Grammar V α), x ≠ c →
      (Grammar.define c r g).2.definitions[x]? = g.definitions[x]? :=
    fun r g hne => Array.getElem?_setIfInBounds_ne (Ne.symm hne)
  refine ⟨⟨?_, ?_, h.left.deferrals, h.left.enlarges.trans (.of_eq rfl rfl)⟩,
    ⟨?_, ?_, h.right.deferrals, h.right.enlarges.trans (.of_eq rfl rfl)⟩, ?_, ?_, ?_, ?_⟩
  · exact fun k => (count_define c r a').symm ▸ h.left.count_le k
  · exact fun x hx => (hother r a' (by omega)).trans (h.left.definitions x hx)
  · exact fun k => (count_define c' r' b').symm ▸ h.right.count_le k
  · exact fun x hx => (hother r' b' (by omega)).trans (h.right.definitions x hx)
  · intro k
    rw [count_define, count_define]
    exact h.count_eq k
  · rw [hgrown]
    exact h.names
  · intro x x' hx
    rw [hgrown]
    have hx : Matching.given a a' b .definition x x' :=
      ⟨hx.1, by simpa only [count_define] using hx.2.1, hx.2.2⟩
    have hxsum : x + b.definitions.size = x' + a.definitions.size := hx.2.2
    by_cases hsame : x = c
    · obtain rfl := hsame
      obtain rfl : x' = c' := by omega
      have hfilled : ∀ (r : Recognizer V α) (g : Grammar V α) (x : Nat), x < g.definitions.size →
          (Grammar.define x r g).2.definitions[x]? = some (some r) :=
        fun r g x hlt => Array.getElem?_setIfInBounds_self_of_lt hlt
      rw [hfilled r a' x hlt, hfilled r' b' x' (by omega)]
      exact .some hr
    · rw [hother r a' hsame, hother r' b' (by omega)]
      exact h.definitions x x' hx
  · intro x x' hx
    rw [hgrown]
    exact h.deferrals x x' hx

end Define

/-- A recursive expression is built alike when its body is: its cell, which is filled in the
end, stands for itself in the scope of the body. -/
theorem Alike.recursive {T : Shape V α Unit → Prop} (name : String) {body : Expr V α}
    (ih : ∀ scope scope', Alike T (fun M => Bind T M scope scope') (build scope body)
      (build scope' body) (Recognizer.Matches T)) (scope scope' : Scope V α) :
    Alike T (fun M => Bind T M scope scope') (build scope (.recursive name body))
      (build scope' (.recursive name body)) (Recognizer.Matches T) := by
  intro M a b hM hnames
  have hopened : Alike T (fun M => Bind T M scope scope')
      (Grammar.newDefinition >>= fun c => Grammar.newLink (.self c))
      (Grammar.newDefinition >>= fun c => Grammar.newLink (.self c))
      (Recognizer.Matches (V := V) (α := α) T) :=
    (Alike.newDefinition.bind (fun _ _ hM h => h.mono hM) fun c c' =>
      (Alike.newLink _ _).weaken fun _ h => .self h.2)
  obtain ⟨hopen, hself⟩ : Parallel T M a b a.opened.2 b.opened.2 ∧
      a.opened.1.Matches T (M.grown a a.opened.2 b) b.opened.1 := hopened M a b hM hnames
  obtain ⟨hbody, hr⟩ : Parallel T (M.grown a a.opened.2 b) a.opened.2 b.opened.2
        (a.bodyBuilt scope name body).2 (b.bodyBuilt scope' name body).2 ∧
      (a.bodyBuilt scope name body).1.Matches T
        ((M.grown a a.opened.2 b).grown a.opened.2 (a.bodyBuilt scope name body).2 b.opened.2)
        (b.bodyBuilt scope' name body).1 :=
    ih _ _ _ _ _ (.cons ⟨rfl, hself⟩ (hM.mono (M.le_grown _ _ _))) hopen.names
  rw [Matching.grown_grown hopen.left.count_le hbody.left.count_le hopen.count_eq] at hr
  -- the two cells were the first that were given out, so they match when they are filled
  have hbuilt := hopen.trans hbody
  have hlt : a.definitions.size < (a.bodyBuilt scope name body).2.definitions.size := by
    have hle : a.opened.2.definitions.size ≤ (a.bodyBuilt scope name body).2.definitions.size :=
      hbody.left.count_le .definition
    rw [opened_definitions, Array.size_push] at hle
    exact hle
  have hcell : Matching.given a (a.bodyBuilt scope name body).2 b .definition a.definitions.size
      b.definitions.size := ⟨Nat.le_refl _, hlt, Nat.add_comm _ _⟩
  have hfilled := hbuilt.define hcell hr
  rw [build_recursive, build_recursive]
  have hlink : Link.Matches (M.grown a (Grammar.define a.definitions.size
      (a.bodyBuilt scope name body).1 (a.bodyBuilt scope name body).2).2 b)
      (.definition a.definitions.size) (.definition b.definitions.size) := by
    rw [grown_define]
    exact .definition (.inr hcell)
  obtain ⟨hlast, hmatch⟩ := Alike.newLink _ _ _ _ _ hlink hfilled.names
  rw [Matching.grown_grown hfilled.left.count_le hlast.left.count_le hfilled.count_eq] at hmatch
  exact ⟨hfilled.trans hlast, hmatch⟩

/-- Building an expression in two grammars makes matching recognizers. -/
theorem build_alike {T : Shape V α Unit → Prop} {binds : Bool} {e : Expr V α}
    (he : e.Proper T binds) (scope scope' : Scope V α) :
    Alike T (fun M => Bind T M scope scope') (build scope e) (build scope' e)
      (Recognizer.Matches T) := by
  have hscope : ∀ (scope scope' : Scope V α) (M M' : Matching), M ≤ M' → Bind T M scope scope' →
      Bind T M' scope scope' := fun _ _ _ _ hM h => h.mono hM
  induction he generalizing scope scope' with
  | @make binds shape hkind hparts ih =>
    rw [build_make, build_make]
    refine (Alike.buildParts fun p hp => ih p hp scope scope').bind (hscope _ _) fun ps ps' => ?_
    by_cases hlength : ps.length = shape.parts.length
    · rw [← shape.withParts_withParts hlength ps']
      refine (Alike.newNode ?_).weaken fun M h => ?_
      · rw [shape.outline_withParts hlength]
        exact hkind
      · rw [shape.parts_withParts hlength]
        exact h.2.2
    · exact fun M a b h _ => absurd h.2.1 hlength
  | @cached binds on e _ ih =>
    rw [build, build]
    refine (ih scope scope').bind (hscope _ _) fun r r' => ?_
    exact (Alike.withCaching on).weaken fun _ h => h.2
  | @deferred binds label e he _ =>
    rw [build, build]
    refine (Alike.newDeferral label he).bind (hscope _ _) fun c c' => ?_
    exact (Alike.newLink _ _).weaken fun _ h => .deferred h.2
  | @recursive binds name body _ ih => exact Alike.recursive name ih scope scope'
  | @named name e _ ih =>
    rw [build, build]
    refine (ih scope scope').bind (hscope _ _) fun r r' => ?_
    refine ((Alike.bindName name).weaken fun _ h => h.2).bind
      (fun _ _ hM h => ⟨h.1.mono hM, h.2.mono hM⟩) fun _ _ => ?_
    exact Alike.pure fun _ h => h.1.2
  | ref name => exact Alike.ref name

end Grammar

end SlotGrammar
