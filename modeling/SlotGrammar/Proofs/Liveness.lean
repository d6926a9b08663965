import Mathlib.Data.Finset.Card
import Mathlib.Data.Finset.Dedup
import Mathlib.Logic.Relation
import SlotGrammar.Grammar.Liveness

/-!
# Living cells

The search of `reachedFrom` follows every link once.  It finds exactly what is
reached through the contents of cells, so a definition is alive exactly when a
chain of contents leads to it from a name, from a recognizer that is running, or
from a cell that holds itself.

Building a deferred recognizer fills a cell.  As long as that recognizer was kept
before, no cell comes to life and none dies.

Main results:

- Theorem `mem_reachedFrom_iff`: the search is sound and complete.
- Theorem `isAlive_iff_kept`: recognizers that are kept anyway keep nothing more.
- Theorem `kept_settle_iff`: building a deferred recognizer keeps what was kept.
-/

namespace SlotGrammar.Grammar

variable {V α : Type}

/-! ## Reached links -/

/-- Whether the cell of one link holds another one. -/
def Holds (g : Grammar V α) (l k : Link) : Prop := k ∈ g.linksBehind l

/-- Whether a chain of contents leads from one link to another. -/
def Reaches (g : Grammar V α) : Link → Link → Prop := Relation.ReflTransGen g.Holds

/-- Only links to cells lead anywhere. -/
theorem mem_allLinks_of_holds {g : Grammar V α} {l k : Link} (h : g.Holds l k) :
    l ∈ g.allLinks := by
  unfold Holds linksBehind at h
  rw [allLinks, List.mem_append]
  cases l with
  | definition cell =>
    left
    cases hcell : g.definitions[cell]? with
    | none => simp [hcell] at h
    | some content =>
      obtain ⟨hlt, -⟩ := Array.getElem?_eq_some_iff.1 hcell
      exact List.mem_map_of_mem (List.mem_range.2 hlt)
  | self cell => simp at h
  | deferred cell =>
    right
    cases hcell : g.deferrals[cell]? with
    | none => simp [hcell] at h
    | some content =>
      obtain ⟨hlt, -⟩ := Array.getElem?_eq_some_iff.1 hcell
      exact List.mem_map_of_mem (List.mem_range.2 hlt)
  | unbound => simp at h

/-- A search finds only what is reached. -/
theorem reaches_of_mem_follow {g : Grammar V α} {depth : Nat} {reached : List Link} {l k : Link}
    (h : k ∈ g.follow depth reached l) : k ∈ reached ∨ g.Reaches l k := by
  induction depth generalizing reached l k with
  | zero =>
    rcases List.mem_cons.1 h with rfl | hmem
    · exact .inr .refl
    · exact .inl hmem
  | succ depth ih =>
    rw [follow] at h
    split at h
    · exact .inl h
    have hfold : ∀ (ls : List Link) (found : List Link), (∀ m ∈ ls, g.Holds l m) →
        k ∈ ls.foldl (g.follow depth) found → k ∈ found ∨ g.Reaches l k := by
      intro ls
      induction ls with
      | nil => exact fun found _ hk => .inl hk
      | cons m ms ihs =>
        intro found hls hk
        rcases ihs _ (fun m' hm' => hls m' (List.mem_cons_of_mem _ hm')) hk with hfound | hreach
        · rcases ih hfound with hold | hnew
          · exact .inl hold
          · exact .inr (.head (hls m List.mem_cons_self) hnew)
        · exact .inr hreach
    rcases hfold _ _ (fun m hm => hm) h with hmem | hreach
    · rcases List.mem_cons.1 hmem with rfl | hold
      · exact .inr .refl
      · exact .inl hold
    · exact .inr hreach

/-- The number of cells that a search has not met yet. -/
def unmet (g : Grammar V α) (reached : List Link) : Nat :=
  (g.allLinks.toFinset \ reached.toFinset).card

theorem unmet_le_of_subset (g : Grammar V α) {reached reached' : List Link}
    (h : ∀ l ∈ reached, l ∈ reached') : g.unmet reached' ≤ g.unmet reached := by
  apply Finset.card_le_card
  intro l hl
  simp only [Finset.mem_sdiff, List.mem_toFinset] at hl ⊢
  exact ⟨hl.1, fun hmem => hl.2 (h l hmem)⟩

theorem unmet_cons_lt (g : Grammar V α) {reached : List Link} {l : Link} (hcell : l ∈ g.allLinks)
    (hnew : l ∉ reached) : g.unmet (l :: reached) < g.unmet reached := by
  unfold unmet
  rw [List.toFinset_cons, Finset.sdiff_insert]
  exact Finset.card_erase_lt_of_mem (by simp [hcell, hnew])

/-- A search that is deep enough follows everything that it finds. -/
theorem holds_mem_follow {g : Grammar V α} {depth : Nat} {reached : List Link} {l m k : Link}
    (hdeep : g.unmet reached < depth) (hm : m ∈ g.follow depth reached l) (hk : g.Holds m k) :
    m ∈ reached ∨ k ∈ g.follow depth reached l := by
  induction depth generalizing reached l m k with
  | zero => exact absurd hdeep (Nat.not_lt_zero _)
  | succ depth ih =>
    rw [follow] at hm ⊢
    split at hm
    · exact .inl hm
    next hnew =>
    rw [if_neg hnew]
    have hl : l ∉ reached := by simpa using hnew
    have hfold : ∀ (ls : List Link) (found : List Link),
        (ls ≠ [] → g.unmet found < depth) → m ∈ ls.foldl (g.follow depth) found →
        m ∈ found ∨ k ∈ ls.foldl (g.follow depth) found := by
      intro ls
      induction ls with
      | nil => exact fun found _ hmem => .inl hmem
      | cons x xs ihs =>
        intro found hdepth hmem
        have hfound := hdepth (List.cons_ne_nil _ _)
        have hgrows := fun y (hy : y ∈ found) => g.mem_follow_of_mem depth (l := x) hy
        have hrest : g.unmet (g.follow depth found x) < depth :=
          Nat.lt_of_le_of_lt (g.unmet_le_of_subset hgrows) hfound
        rcases ihs (g.follow depth found x) (fun _ => hrest) hmem with hstep | hlater
        · rcases ih hfound hstep hk with hold | hnow
          · exact .inl hold
          · exact .inr (mem_foldl_of_mem (fun h => g.mem_follow_of_mem depth h) xs hnow)
        · exact .inr hlater
    have hdepth : g.linksBehind l ≠ [] → g.unmet (l :: reached) < depth := by
      intro hne
      obtain ⟨x, hx⟩ := List.exists_mem_of_ne_nil _ hne
      have := g.unmet_cons_lt (mem_allLinks_of_holds hx) hl
      omega
    rcases hfold _ _ hdepth hm with hmem | hfollowed
    · rcases List.mem_cons.1 hmem with rfl | hold
      · -- what the followed link holds is followed in its turn
        right
        obtain ⟨before, after, hsplit⟩ := List.append_of_mem hk
        rw [hsplit, List.foldl_append, List.foldl_cons]
        exact mem_foldl_of_mem (fun h => g.mem_follow_of_mem depth h) after
          (g.mem_follow_self depth _ _)
      · exact .inl hold
    · exact .inr hfollowed

/-- What a search from several links finds is closed under what cells hold. -/
theorem holds_mem_reachedFrom {g : Grammar V α} {held : List Link} {m k : Link}
    (hm : m ∈ g.reachedFrom held) (hk : g.Holds m k) : k ∈ g.reachedFrom held := by
  unfold reachedFrom at hm ⊢
  have hfold : ∀ (ls : List Link) (found : List Link), (m ∈ found → k ∈ found) →
      m ∈ ls.foldl (g.follow (g.cellCount + 1)) found →
      k ∈ ls.foldl (g.follow (g.cellCount + 1)) found := by
    intro ls
    induction ls with
    | nil => exact fun found hclosed hmem => hclosed hmem
    | cons x xs ihs =>
      intro found hclosed hmem
      refine ihs (g.follow (g.cellCount + 1) found x) ?_ hmem
      intro hstep
      have hdeep : g.unmet found < g.cellCount + 1 := by
        have hle : g.unmet found ≤ g.unmet [] := g.unmet_le_of_subset (by simp)
        have hcard : g.unmet [] ≤ g.allLinks.length := by
          rw [unmet, List.toFinset_nil, Finset.sdiff_empty]
          exact List.toFinset_card_le _
        have hlen : g.allLinks.length = g.cellCount := by simp [allLinks, cellCount]
        omega
      rcases holds_mem_follow hdeep hstep hk with hold | hnew
      · exact g.mem_follow_of_mem _ (hclosed hold)
      · exact hnew
  exact hfold held [] (by simp) hm

/-- The search finds exactly what is reached. -/
theorem mem_reachedFrom_iff (g : Grammar V α) {held : List Link} {k : Link} :
    k ∈ g.reachedFrom held ↔ ∃ l ∈ held, g.Reaches l k := by
  constructor
  · intro h
    have hfold : ∀ (ls : List Link) (found : List Link),
        k ∈ ls.foldl (g.follow (g.cellCount + 1)) found →
        k ∈ found ∨ ∃ l ∈ ls, g.Reaches l k := by
      intro ls
      induction ls with
      | nil => exact fun found hk => .inl hk
      | cons x xs ihs =>
        intro found hk
        rcases ihs _ hk with hstep | ⟨l, hl, hreach⟩
        · rcases reaches_of_mem_follow hstep with hold | hreach
          · exact .inl hold
          · exact .inr ⟨x, List.mem_cons_self, hreach⟩
        · exact .inr ⟨l, List.mem_cons_of_mem _ hl, hreach⟩
    rcases hfold held [] h with hnil | hreach
    · simp at hnil
    · exact hreach
  · rintro ⟨l, hl, hreach⟩
    induction hreach with
    | refl => exact g.mem_reachedFrom hl
    | tail _ hstep ih => exact holds_mem_reachedFrom ih hstep

/-! ## Kept links and living definitions -/

/-- Whether a link is kept: a chain of contents leads to it from a name or from a
cell that holds itself. -/
def Kept (g : Grammar V α) (l : Link) : Prop :=
  ∃ k, ((∃ r ∈ g.names.values, k ∈ r.held) ∨ Relation.TransGen g.Holds k k) ∧ g.Reaches k l

/-- Whether everything that a recognizer holds is kept. -/
def Keeps (g : Grammar V α) (r : Recognizer V α) : Prop := ∀ l ∈ r.held, g.Kept l

/-- What a kept cell holds is kept. -/
theorem Kept.holds {g : Grammar V α} {l k : Link} (h : g.Kept l) (hk : g.Holds l k) : g.Kept k := by
  rcases h with ⟨top, htop, hreach⟩
  exact ⟨top, htop, hreach.tail hk⟩

theorem Kept.reaches {g : Grammar V α} {l k : Link} (h : g.Kept l) (hk : g.Reaches l k) :
    g.Kept k := by
  rcases h with ⟨top, htop, hreach⟩
  exact ⟨top, htop, hreach.trans hk⟩

/-- A recognizer with a name is kept with all that it holds. -/
theorem keeps_of_named {g : Grammar V α} {r : Recognizer V α} (h : r ∈ g.names.values) :
    g.Keeps r :=
  fun l hl => ⟨l, .inl ⟨r, h, hl⟩, .refl⟩

/-- A cell holds itself exactly when a chain of contents leads back to it. -/
theorem holdsItself_iff (g : Grammar V α) {l : Link} :
    g.holdsItself l = true ↔ Relation.TransGen g.Holds l l := by
  rw [holdsItself, List.contains_iff_mem, mem_reachedFrom_iff, Relation.TransGen.head'_iff]
  exact Iff.rfl

/-- A definition is alive exactly when it is kept or reached from a recognizer that
is running. -/
theorem isAlive_iff (g : Grammar V α) {holders : List (Recognizer V α)} {cell : Nat} :
    g.isAlive holders cell = true ↔
      g.Kept (.definition cell) ∨
        ∃ r ∈ holders, ∃ l ∈ r.held, g.Reaches l (.definition cell) := by
  rw [isAlive, Bool.or_eq_true, List.contains_iff_mem, List.contains_iff_mem,
    mem_reachedFrom_iff, mem_reachedFrom_iff]
  constructor
  · rintro (⟨l, hl, hreach⟩ | ⟨l, hl, hreach⟩)
    · obtain ⟨r, hr, hheld⟩ := List.mem_flatMap.1 hl
      rcases List.mem_append.1 hr with hname | hholder
      · exact .inl ⟨l, .inl ⟨r, hname, hheld⟩, hreach⟩
      · exact .inr ⟨r, hholder, l, hheld, hreach⟩
    · have hself := (holdsItself_iff g).1 (List.mem_filter.1 hl).2
      exact .inl ⟨l, .inr hself, hreach⟩
  · rintro (⟨l, ⟨r, hr, hheld⟩ | hself, hreach⟩ | ⟨r, hr, l, hheld, hreach⟩)
    · exact .inl ⟨l, List.mem_flatMap.2 ⟨r, List.mem_append_left _ hr, hheld⟩, hreach⟩
    · obtain ⟨k, hk, -⟩ := Relation.TransGen.head'_iff.1 hself
      exact .inr ⟨l, List.mem_filter.2 ⟨mem_allLinks_of_holds hk, (holdsItself_iff g).2 hself⟩,
        hreach⟩
    · exact .inl ⟨l, List.mem_flatMap.2 ⟨r, List.mem_append_right _ hr, hheld⟩, hreach⟩

/-- Recognizers that are kept anyway keep nothing more alive. -/
theorem isAlive_iff_kept {g : Grammar V α} {holders : List (Recognizer V α)}
    (h : ∀ r ∈ holders, g.Keeps r) {cell : Nat} :
    g.isAlive holders cell = true ↔ g.Kept (.definition cell) := by
  rw [isAlive_iff]
  constructor
  · rintro (hkept | ⟨r, hr, l, hl, hreach⟩)
    · exact hkept
    · exact (h r hr l hl).reaches hreach
  · exact .inl

/-! ## Building a deferred recognizer -/

variable {g : Grammar V α} {cell : Nat} {label : String} {e : Expr V α}
  {scope : List (String × Recognizer V α)} {r : Recognizer V α}

/-- What the cells hold once a deferred recognizer has been built. -/
theorem holds_settle_iff (hcell : g.deferrals[cell]? = some (.awaiting label e scope))
    {l k : Link} :
    (settle cell r g).2.Holds l k ↔ g.Holds l k ∨ l = .deferred cell ∧ k ∈ r.held := by
  obtain ⟨hlt, -⟩ := Array.getElem?_eq_some_iff.1 hcell
  unfold Holds linksBehind settle
  cases l with
  | definition c => simp
  | self c => simp
  | unbound => simp
  | deferred c =>
    by_cases hc : c = cell
    · subst hc
      simp only [Array.getElem?_setIfInBounds_self_of_lt hlt, hcell]
      simp
    · simp [Array.getElem?_setIfInBounds_ne (Ne.symm hc), hc]

/-- Building a deferred recognizer that was kept before keeps what was kept, and
nothing more. -/
theorem kept_settle_iff (hcell : g.deferrals[cell]? = some (.awaiting label e scope))
    (hr : g.Keeps r) {l : Link} : (settle cell r g).2.Kept l ↔ g.Kept l := by
  have hstep : ∀ {x y : Link}, (settle cell r g).2.Holds x y → g.Holds x y ∨ g.Kept y := by
    intro x y hxy
    rcases (holds_settle_iff hcell).1 hxy with hold | ⟨-, hmem⟩
    · exact .inl hold
    · exact .inr (hr y hmem)
  constructor
  · rintro ⟨top, htop, hreach⟩
    have hkept : g.Kept top := by
      rcases htop with hname | hself
      · exact ⟨top, .inl hname, .refl⟩
      · -- a chain back to `top` is an old one, or it passes through something kept
        have hchain : ∀ {x y : Link}, Relation.TransGen (settle cell r g).2.Holds x y →
            Relation.TransGen g.Holds x y ∨ g.Kept y := by
          intro x y hxy
          induction hxy with
          | single h => exact (hstep h).imp_left .single
          | tail _ h ih =>
            rcases hstep h with hold | hnew
            · exact ih.imp (fun hxy => hxy.tail hold) (fun hy => hy.holds hold)
            · exact .inr hnew
        rcases hchain hself with hold | hnew
        · exact ⟨top, .inr hold, .refl⟩
        · exact hnew
    induction hreach with
    | refl => exact hkept
    | tail _ h ih =>
      rcases hstep h with hold | hnew
      · exact ih.holds hold
      · exact hnew
  · rintro ⟨top, htop, hreach⟩
    have hmono : ∀ x y, g.Holds x y → (settle cell r g).2.Holds x y :=
      fun x y h => (holds_settle_iff hcell).2 (.inl h)
    exact ⟨top, htop.imp_right fun h => Relation.TransGen.mono hmono _ _ h,
      Relation.ReflTransGen.mono hmono _ _ hreach⟩

end SlotGrammar.Grammar
