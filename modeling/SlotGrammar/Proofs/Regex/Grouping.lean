import SlotGrammar.Proofs.Regex.Machines
import SlotGrammar.Proofs.Regex.Reading
import SlotGrammar.Regex.Dialect

/-!
# Groups of the dialect

What is read in parentheses is one term, whatever stands in them: its alternatives, the flags
that it sets itself and its assertions stay inside.  Taken out of the parentheses it is the same
term again, because the terms that are read are flat: a sequence has no sequence or empty term
among its parts, and a choice no choice among its branches.

So the dialect says of groups, and of an assertion in front of one, what a library has to say.

Main results:

- Theorem `readsFlat`: the readers of terms read flat ones.
- Theorem `alternatives_branches`: a flat choice has the alternatives that it is made of.
- Theorem `read?_groupSource`: a group is read as its inside, but for the numbers of groups.
- Theorem `read?_pinnedSource`: so is a pinned group, behind the assertion.
- Theorem `dialect_lawful`: the dialect is a library.
-/

namespace SlotGrammar.Regex

namespace Term

/-! ## Flat terms -/

/-- Whether a term is one branch of a choice: none itself, and the sequence of its parts. -/
structure IsBranch (t : Term) : Prop where
  branches_eq : t.branches = [t]
  sequence_eq : sequence t.parts = t
  parts_eq : ∀ p ∈ t.parts, p.parts = [p]

/-- Whether some terms are the parts of a sequence that has nothing but branches. -/
structure AreParts (ts : List Term) : Prop where
  parts_eq : ∀ p ∈ ts, p.parts = [p]
  isBranch : ∀ b ∈ (sequence ts).branches, b.IsBranch

section Flat

variable {ts us : List Term} {t : Term}

/-- A sequence of parts has just these parts. -/
theorem parts_sequence_of_parts (h : ∀ p ∈ ts, p.parts = [p]) : (sequence ts).parts = ts := by
  rw [parts_sequence]
  induction ts with
  | nil => rfl
  | cons t ts ih =>
    rw [List.flatMap_cons, h t List.mem_cons_self,
      ih fun p hp => h p (List.mem_cons_of_mem _ hp)]
    rfl

/-- Two parts and more are a branch. -/
theorem isBranch_sequence (h : ∀ p ∈ ts, p.parts = [p]) (hlength : 2 ≤ ts.length) :
    (sequence ts).IsBranch := by
  refine ⟨?_, ?_, ?_⟩
  · match ts, hlength with
    | _ :: _ :: _, _ => rfl
  · rw [parts_sequence_of_parts h]
  · rwa [parts_sequence_of_parts h]

theorem areParts_of_length (h : ∀ p ∈ ts, p.parts = [p]) (hlength : 2 ≤ ts.length) :
    AreParts ts := by
  have hbranch := isBranch_sequence h hlength
  refine ⟨h, ?_⟩
  rw [hbranch.branches_eq]
  exact List.forall_mem_singleton.2 hbranch

theorem areParts_nil : AreParts [] :=
  ⟨by simp, List.forall_mem_singleton.2 ⟨rfl, rfl, by simp [sequence, parts]⟩⟩

/-- A term that is neither a sequence nor a choice is a part. -/
theorem areParts_singleton (hparts : t.parts = [t]) (hbranches : t.branches = [t]) :
    AreParts [t] := by
  have hbranch : t.IsBranch := ⟨hbranches, by rw [hparts]; rfl, by simp [hparts]⟩
  refine ⟨List.forall_mem_singleton.2 hparts, ?_⟩
  rw [sequence, hbranches]
  exact List.forall_mem_singleton.2 hbranch

theorem AreParts.append (hts : AreParts ts) (hus : AreParts us) : AreParts (ts ++ us) := by
  match ts, us with
  | [], us => exact hus
  | ts, [] => rwa [List.append_nil]
  | t :: ts, u :: us =>
    refine areParts_of_length ?_ ?_
    · intro p hp
      exact (List.mem_append.1 hp).elim (hts.parts_eq p) (hus.parts_eq p)
    · simp only [List.length_append, List.length_cons]
      omega

/-! ## Flat choices -/

/-- A choice among branches has just these branches. -/
theorem branches_oneOf (h : ∀ t ∈ ts, t.branches = [t]) (hts : ts ≠ []) :
    (oneOf ts).branches = ts := by
  fun_induction oneOf ts with
  | case1 => exact absurd rfl hts
  | case2 branch => exact h _ List.mem_cons_self
  | case3 branch others hne ih =>
    have hothers := ih (fun t ht => h t (List.mem_cons_of_mem _ ht)) fun heq => hne heq
    rw [branches, h _ List.mem_cons_self, hothers]
    rfl

/-- A choice between two branches and more is one part of a sequence. -/
theorem parts_oneOf (hlength : 2 ≤ ts.length) : (oneOf ts).parts = [oneOf ts] := by
  match ts, hlength with
  | _ :: _ :: _, _ => rfl

/-- What branches share are parts, and so is the choice among the remainders. -/
theorem parts_of_commonLead (h : ∀ t ∈ ts, t.IsBranch) (hlength : 2 ≤ ts.length) (n : Nat) :
    ∀ p ∈ commonLead ts ++ [oneOf (ts.map fun t => sequence (t.parts.drop n))],
      p.parts = [p] := by
  intro p hp
  rcases List.mem_append.1 hp with hp | hp
  · match ts, hlength with
    | first :: _ :: _, _ =>
      have hlead := (commonLead_isPrefix List.mem_cons_self).subset hp
      exact (h first List.mem_cons_self).parts_eq p hlead
  · rw [List.mem_singleton.1 hp]
    exact parts_oneOf (by simpa using hlength)

/-- A flat choice has the alternatives that it is made of, and is one term among the parts of a
sequence. -/
theorem alternatives_branches (h : ∀ t ∈ ts, t.IsBranch) :
    AreParts (alternatives ts).parts ∧
      alternatives (sequence (alternatives ts).parts).branches = alternatives ts := by
  match ts with
  | [] => exact ⟨areParts_nil, rfl⟩
  | [only] =>
    have honly := h only List.mem_cons_self
    show AreParts only.parts ∧ alternatives (sequence only.parts).branches = only
    refine ⟨⟨honly.parts_eq, ?_⟩, ?_⟩
    · rw [honly.sequence_eq, honly.branches_eq]
      exact List.forall_mem_singleton.2 honly
    · rw [honly.sequence_eq, honly.branches_eq]
      rfl
  | first :: second :: others =>
    have hlength : 2 ≤ (first :: second :: others).length := by simp
    have heq := alternatives_eq (show ∀ only, first :: second :: others ≠ [only] by simp)
    by_cases hlead : commonLead (first :: second :: others) = []
    · rw [if_pos hlead] at heq
      have hbranches : (oneOf (first :: second :: others)).branches = first :: second :: others :=
        branches_oneOf (fun t ht => (h t ht).branches_eq) (by simp)
      rw [heq, parts_oneOf hlength, sequence, hbranches, heq]
      exact ⟨⟨List.forall_mem_singleton.2 (parts_oneOf hlength), by rwa [sequence, hbranches]⟩,
        rfl⟩
    · rw [if_neg hlead] at heq
      have hparts := parts_of_commonLead h hlength
        (commonLead (first :: second :: others)).length
      have hlong : ∀ p : Term, 2 ≤ (commonLead (first :: second :: others) ++ [p]).length := by
        intro p
        have hpos := List.length_pos_iff.2 hlead
        simp only [List.length_append, List.length_singleton]
        omega
      have hbranch := isBranch_sequence hparts (hlong _)
      rw [heq, hbranch.sequence_eq, hbranch.branches_eq, parts_sequence_of_parts hparts]
      exact ⟨areParts_of_length hparts (hlong _), rfl⟩

end Flat

end Term

namespace Reader

open Term

/-! ## Readers of flat terms -/

/-- Repetitions of a flat term are flat. -/
theorem areParts_readRepetitions {n : Nat} {body first : Term} {s rest : Text}
    (h : readRepetitions n body s = some (first, rest)) (hbody : AreParts body.parts) :
    AreParts first.parts := by
  have hrepeated : ∀ (greedy : Bool) (least : Nat) (greatest : Option Nat) (t : Term),
      AreParts (repeated greedy least greatest t).parts :=
    fun _ _ _ _ => areParts_singleton rfl rfl
  fun_induction readRepetitions n body s with
  | case1 => cases h
  | case2 n body s greedy s' hgreedy ih => exact ih h (hrepeated _ _ _ _)
  | case3 n body s greedy s' hgreedy ih => exact ih h (hrepeated _ _ _ _)
  | case4 n body s greedy s' hgreedy ih => exact ih h (hrepeated _ _ _ _)
  | case5 n body s hcounts => cases h
  | case6 n body s least greatest s' hcounts greedy s'' hgreedy ih =>
    refine ih h ?_
    unfold between
    split
    · exact areParts_nil
    · split
      · exact hbody
      · exact hrepeated _ _ _ _
  | case7 n body s =>
    cases h
    exact hbody

/-- An atom is flat. -/
theorem areParts_readAtom {flags : Flags} {term : Term} {s rest : Text}
    (h : readAtom flags s = some (term, rest)) : AreParts term.parts := by
  have hchar : ∀ cls, AreParts (char cls).parts := fun _ => areParts_singleton rfl rfl
  have hassertion : ∀ condition, AreParts (assertion condition).parts :=
    fun _ => areParts_singleton rfl rfl
  unfold readAtom at h
  split at h
  · cases h
  · cases h
    exact hchar _
  · cases h
    exact hassertion _
  · cases h
    exact hassertion _
  · obtain ⟨x, -, heq⟩ := Option.map_eq_some_iff.1 h
    cases heq
    exact hchar _
  · split at h <;> cases h
    · exact hchar _
    · exact hchar _
    · exact hassertion _
  · split at h <;> cases h
    exact hchar _

/-- Whether the readers of terms, as deep as they go within a bound, read flat ones. -/
structure ReadsFlat (n : Nat) : Prop where
  alternatives : ∀ {flags : Flags} {s : Text} {branches : List Term} {rest : Text},
    readAlternatives n flags s = some (branches, rest) → ∀ b ∈ branches, b.IsBranch
  sequence : ∀ {flags after : Flags} {s : Text} {parts : List Term} {rest : Text},
    readSequence n flags s = some (parts, after, rest) → AreParts parts
  inside : ∀ {flags : Flags} {s : Text} {body : Term} {rest : Text},
    readInside n flags s = some (body, rest) → AreParts body.parts
  behind : ∀ {flags after : Flags} {body : Term} {s : Text} {parts : List Term} {rest : Text},
    readAfter n flags (body, s) = some (parts, after, rest) → AreParts body.parts → AreParts parts

namespace ReadsFlat

variable {n : Nat} {flags after : Flags} {s rest : Text}

theorem alternatives_succ (h : ReadsFlat n) {branches : List Term}
    (hread : readAlternatives (n + 1) flags s = some (branches, rest)) :
    ∀ b ∈ branches, b.IsBranch := by
  rw [readAlternatives] at hread
  split at hread
  next => cases hread
  next parts inner rest' hsequence =>
    rcases Option.map_eq_some_iff.1 hread with ⟨x, hothers, heq⟩
    cases heq
    intro b hb
    exact (List.mem_append.1 hb).elim ((h.sequence hsequence).isBranch b)
      (h.alternatives hothers b)
  next parts inner rest' hbar hsequence =>
    cases hread
    exact (h.sequence hsequence).isBranch

theorem inside_succ (h : ReadsFlat n) {body : Term}
    (hread : readInside (n + 1) flags s = some (body, rest)) : AreParts body.parts := by
  rw [readInside] at hread
  split at hread
  next branches rest' hbranches =>
    cases hread
    exact (alternatives_branches (h.alternatives hbranches)).1
  next => cases hread

theorem behind_succ (h : ReadsFlat n) {body : Term} {parts : List Term}
    (hread : readAfter (n + 1) flags (body, s) = some (parts, after, rest))
    (hbody : AreParts body.parts) : AreParts parts := by
  rw [readAfter] at hread
  split at hread
  next => cases hread
  next first s' hfirst =>
    rcases Option.map_eq_some_iff.1 hread with ⟨⟨others, after', rest'⟩, hothers, heq⟩
    cases heq
    exact (areParts_readRepetitions hfirst hbody).append (h.sequence hothers)

theorem sequence_succ (h : ReadsFlat n) {parts : List Term}
    (hread : readSequence (n + 1) flags s = some (parts, after, rest)) : AreParts parts := by
  rw [readSequence.eq_def] at hread
  simp only at hread
  split at hread
  next =>
    cases hread
    exact areParts_nil
  next =>
    cases hread
    exact areParts_nil
  next =>
    cases hread
    exact areParts_nil
  next s' =>
    split at hread
    next => cases hread
    next inner rest' hflags => exact h.sequence hread
    next inner rest' hflags =>
      rcases Option.bind_eq_some_iff.1 hread with ⟨⟨body, rest''⟩, hinside, hbehind⟩
      exact h.behind hbehind (h.inside hinside)
  next s' hflags =>
    rcases Option.bind_eq_some_iff.1 hread with ⟨⟨body, rest'⟩, hinside, hbehind⟩
    exact h.behind hbehind (areParts_singleton rfl rfl)
  next =>
    rcases Option.bind_eq_some_iff.1 hread with ⟨⟨body, rest'⟩, hatom, hbehind⟩
    exact h.behind hbehind (areParts_readAtom hatom)

end ReadsFlat

/-- The readers of terms read flat ones. -/
theorem readsFlat (n : Nat) : ReadsFlat n := by
  induction n with
  | zero => exact ⟨nofun, nofun, nofun, nofun⟩
  | succ n ih =>
    exact ⟨ih.alternatives_succ, ih.sequence_succ, ih.inside_succ, ih.behind_succ⟩

/-! ## The written form of a group -/

variable {n : Nat} {source : Text} {body : Term}

/-- Where a term has been read to the end there is nothing behind it. -/
theorem readAfter_nil (n : Nat) (flags : Flags) (body : Term) :
    readAfter (n + 2) flags (body, []) = some (body.parts, flags, []) := by
  have hrepetitions : readRepetitions 1 body [] = some (body, []) := rfl
  have hsequence : readSequence (n + 1) flags [] = some ([], flags, []) := rfl
  rw [readAfter, List.length_nil, hrepetitions]
  simp only [hsequence, Option.map_some, List.append_nil]

/-- A group by itself is a sequence of what is in it. -/
theorem readSequence_group (h : readInside (n + 2) {} (source ++ [')']) = some (body, [])) :
    readSequence (n + 3) {} (groupSource source) = some (body.parts, {}, []) := by
  have hflags : readFlags {} true (':' :: (source ++ [')'])) = some ({}, true, source ++ [')']) :=
    rfl
  show readSequence (n + 3) {} ('(' :: '?' :: ':' :: (source ++ [')'])) = _
  rw [readSequence, hflags]
  simp only [h, Option.bind_some]
  exact readAfter_nil n {} body

/-- A group by itself has the alternatives of what is in it. -/
theorem readAlternatives_groupSource
    (h : readInside (n + 2) {} (source ++ [')']) = some (body, [])) :
    readAlternatives (n + 4) {} (groupSource source) =
      some ((Term.sequence body.parts).branches, []) := by
  rw [readAlternatives, readSequence_group h]

/-- A pinned group is one alternative: the assertion, and then the parts of the group. -/
theorem readAlternatives_pinnedSource
    (h : readInside (n + 2) {} (source ++ [')']) = some (body, [])) :
    readAlternatives (n + 6) {} (pinnedSource source) =
      some ([Term.sequence (.assertion .textStart :: body.parts)], []) := by
  have hbehind : readAfter (n + 4) {} (.assertion .textStart, groupSource source) =
      some (.assertion .textStart :: body.parts, {}, []) := by
    rw [readAfter, groupSource, List.append_assoc, List.cons_append, readRepetitions]
    · simp only
      rw [← List.cons_append, ← List.append_assoc, ← groupSource, readSequence_group h]
      rfl
    all_goals simp
  have hsequence : readSequence (n + 5) {} (pinnedSource source) =
      some (.assertion .textStart :: body.parts, {}, []) := by
    show readSequence (n + 5) {} ('\\' :: 'A' :: groupSource source) = _
    rw [readSequence]
    · exact hbehind
    all_goals simp
  have hbranches : (Term.sequence (.assertion .textStart :: body.parts)).branches =
      [Term.sequence (.assertion .textStart :: body.parts)] := by
    cases body.parts <;> rfl
  rw [readAlternatives, hsequence]
  simp only [hbranches]

end Reader

open Reader

namespace Term

variable {flags : Flags} {source : Text} {term : Term}

theorem read?_eq_some_iff : read? flags source = some term ↔
    ∃ branches, readAlternatives (3 * source.length + 3) flags source = some (branches, []) ∧
      alternatives branches = term := by
  unfold read?
  split
  next branches hread => simp [hread]
  next hread =>
    constructor
    · intro h
      cases h
    · rintro ⟨branches, hbranches, -⟩
      exact (hread branches hbranches).elim

/-- What reads as a term does so in parentheses, at every depth that is no less than it takes
without them. -/
theorem readInside_of_read? (h : read? {} source = some term) {n : Nat}
    (hn : 3 * source.length + 3 ≤ n) :
    readInside (n + 1) {} (source ++ [')']) = some (shifted [')'] term, []) := by
  rcases read?_eq_some_iff.1 h with ⟨branches, hread, rfl⟩
  have hcloses : Closes [')'] := Or.inr ⟨[], rfl⟩
  rcases (readsOn hcloses _).alternatives hread hn {} with ⟨branches', hread', hsame⟩
  rw [readInside, hread', hsame rfl]
  simp only [List.nil_append, shifted, alternatives_map_renumber (fun _ _ => Nat.add_right_cancel)]

/-- What reads as a term reads as the same one in a group.  The numbers of the groups in it are
others. -/
theorem read?_groupSource (h : read? {} source = some term) :
    read? {} (groupSource source) = some (shifted [')'] term) := by
  have hinside := readInside_of_read? h (Nat.le_add_right _ 9)
  have hlength : 3 * (groupSource source).length + 3 = 3 * source.length + 11 + 4 := by
    simp [groupSource]
    omega
  have halternatives := readAlternatives_groupSource hinside
  rw [← hlength] at halternatives
  refine read?_eq_some_iff.2 ⟨_, halternatives, ?_⟩
  -- what is read inside is made of branches, and taken apart it is put together again
  rw [readInside] at hinside
  split at hinside
  next branches rest hbranches =>
    have hbody := (Prod.mk.inj (Option.some.inj hinside)).1
    rw [← hbody]
    exact (alternatives_branches ((readsFlat _).alternatives hbranches)).2
  next => cases hinside

/-- What reads as a term does so when it is pinned, behind the assertion. -/
theorem read?_pinnedSource (h : read? {} source = some term) :
    read? {} (pinnedSource source) =
      some (sequence (.assertion .textStart :: (shifted [')'] term).parts)) := by
  have hinside := readInside_of_read? h (Nat.le_add_right _ 13)
  have hlength : 3 * (pinnedSource source).length + 3 = 3 * source.length + 15 + 6 := by
    simp [pinnedSource, groupSource]
    omega
  have halternatives := readAlternatives_pinnedSource hinside
  rw [← hlength] at halternatives
  exact read?_eq_some_iff.2 ⟨_, halternatives, rfl⟩

/-! ## Machines of groups -/

/-- A sequence is put in front part by part. -/
theorem before_sequence (ts : List Term) (m : Machine) :
    (sequence ts).before m = ts.foldr before m := by
  fun_induction sequence ts with
  | case1 => rfl
  | case2 part => rfl
  | case3 part others hne ih => rw [before, ih, List.foldr_cons]

/-- The numbers of groups do not matter to a machine. -/
theorem machine_renumber (f : Nat → Nat) (t : Term) : (t.renumber f).machine = t.machine :=
  congrFun (before_renumber f t) .done

/-- A pinned term has the machine of the term behind a state that checks where it begins. -/
theorem machine_pinned (f : Nat → Nat) (t : Term) :
    (sequence (.assertion .textStart :: (t.renumber f).parts)).machine =
      t.machine.push (.check .textStart t.machine.entry) := by
  rw [machine, before_sequence, List.foldr_cons, ← before_eq_foldr, before_renumber]
  rfl

end Term

/-! ## The dialect as a library -/

/-- The dialect is a library. -/
theorem dialect_lawful : dialect.Lawful where
  source_eq := by
    intro source r h
    obtain ⟨term, -, rfl⟩ := dialect_build?_eq_some_iff.1 h
    rfl
  group_eq := by
    intro source r group hr hgroup
    obtain ⟨term, hterm, rfl⟩ := dialect_build?_eq_some_iff.1 hr
    obtain ⟨inside, hinside, rfl⟩ := dialect_build?_eq_some_iff.1 hgroup
    cases (Term.read?_groupSource hterm).symm.trans hinside
    rw [shifted, Term.machine_renumber]
    rfl
  pinned_eq := by
    intro source r group pinned hr hgroup hpinned before ahead
    obtain ⟨term, hterm, rfl⟩ := dialect_build?_eq_some_iff.1 hr
    obtain ⟨inside, hinside, rfl⟩ := dialect_build?_eq_some_iff.1 hgroup
    obtain ⟨behind, hbehind, rfl⟩ := dialect_build?_eq_some_iff.1 hpinned
    cases (Term.read?_groupSource hterm).symm.trans hinside
    cases (Term.read?_pinnedSource hterm).symm.trans hbehind
    rw [shifted, Term.machine_renumber, Term.machine_pinned]
    cases before using List.reverseRecOn with
    | nil => exact Machine.matchAt?_push_textStart term.closed_machine ahead
    | append_singleton before c _ =>
      rw [if_neg (by simp)]
      show Machine.matchAt? _ ⟨(before ++ [c]).getLast?, ahead⟩ = none
      rw [List.getLast?_concat]
      exact Machine.matchAt?_push_textStart_behind term.machine c ahead
  exists_group := by
    intro source r pinned hr _
    obtain ⟨term, hterm, rfl⟩ := dialect_build?_eq_some_iff.1 hr
    exact ⟨_, dialect_build?_eq_some_iff.2 ⟨_, Term.read?_groupSource hterm, rfl⟩⟩

end SlotGrammar.Regex
