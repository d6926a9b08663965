import Mathlib.Data.List.TakeDrop
import SlotGrammar.Proofs.Regex.Numbering
import SlotGrammar.Regex.Reader

/-!
# Reading in front of a parenthesis

What reads as a regular expression reads as one under other flags too, and in front of a closing
parenthesis.  Under the same flags it is the same one then, but for the numbers of its groups:
these count the text up to the end, so each of them grows by the length of the text behind.

Main results:

- Theorem `readsOn`: each reader of terms goes on to read what it has read.
-/

namespace SlotGrammar.Regex.Reader

/-! ## Texts behind -/

/-- What may stand behind the inside of a group: nothing, or a closing parenthesis. -/
def Closes (t : Text) : Prop := t = [] ∨ ∃ rest, t = ')' :: rest

section Closes

variable {t : Text} {p : Char → Bool}

/-- A run of other code points stops in front of a closing parenthesis. -/
theorem Closes.takeWhile (ht : Closes t) (hp : p ')' = false) (s : Text) :
    (s ++ t).takeWhile p = s.takeWhile p := by
  induction s with
  | nil => rcases ht with rfl | ⟨rest, rfl⟩ <;> simp [hp]
  | cons c s ih => cases hc : p c <;> simp [hc, ih]

/-- What follows a run of other code points is followed by a closing parenthesis. -/
theorem Closes.dropWhile (ht : Closes t) (hp : p ')' = false) (s : Text) :
    (s ++ t).dropWhile p = s.dropWhile p ++ t := by
  induction s with
  | nil => rcases ht with rfl | ⟨rest, rfl⟩ <;> simp [hp]
  | cons c s ih => cases hc : p c <;> simp [hc, ih]

/-- No other code point begins what stands behind. -/
theorem Closes.not_cons (ht : Closes t) {c : Char} (hc : c ≠ ')') {s : Text}
    (h : ∀ rest, s = c :: rest → False) : ∀ rest, s ++ t = c :: rest → False := by
  intro rest heq
  cases s with
  | nil =>
    rcases ht with rfl | ⟨rest', rfl⟩
    · cases heq
    · exact hc (List.cons.inj heq).1.symm
  | cons d s => exact h s (by rw [(List.cons.inj heq).1])

/-- A closing parenthesis adds no two code points in front that were not there. -/
theorem Closes.not_cons_cons (ht : Closes t) {c d : Char} (hc : c ≠ ')') (hd : d ≠ ')') {s : Text}
    (h : ∀ rest, s = c :: d :: rest → False) : ∀ rest, s ++ t = c :: d :: rest → False := by
  intro rest heq
  cases s with
  | nil => exact ht.not_cons hc (fun rest' heq' => by cases heq') _ heq
  | cons e s =>
    rcases List.cons.inj heq with ⟨rfl, htail⟩
    exact ht.not_cons hd (fun rest' hs => h rest' (by rw [hs])) rest htail

end Closes

/-! ## Escapes and classes -/

section Appended

variable {s rest : Text}

/-- Where a span has ended, what stands behind does not change it. -/
theorem span_append {p : Char → Bool} {digits : Text} {c : Char}
    (h : s.span p = (digits, c :: rest)) (t : Text) :
    (s ++ t).span p = (digits, c :: (rest ++ t)) := by
  rw [List.span_eq_takeWhile_dropWhile, Prod.mk.injEq] at h ⊢
  induction s generalizing digits with
  | nil => cases h.2
  | cons d s ih =>
    cases hd : p d with
    | true =>
      simp only [List.takeWhile_cons, List.dropWhile_cons, hd, if_true] at h
      rcases ih ⟨rfl, h.2⟩ with ⟨htake, hdrop⟩
      simp only [List.cons_append, List.takeWhile_cons, List.dropWhile_cons, hd, if_true, htake,
        hdrop, h.1, and_self]
    | false =>
      simp only [List.takeWhile_cons, List.dropWhile_cons, hd, Bool.false_eq_true, if_false] at h
      rcases h with ⟨rfl, heq⟩
      cases heq
      simp [hd]

/-- The number of a code point is read alike with more text behind. -/
theorem readCodePoint_append {count : Nat} {c : Char} (h : readCodePoint count s = some (c, rest))
    (t : Text) : readCodePoint count (s ++ t) = some (c, rest ++ t) := by
  fun_cases readCodePoint count s with
  | case1 s digits x rest' hspan =>
    rw [readCodePoint, hspan] at h
    rw [List.cons_append, readCodePoint, span_append hspan t]
    have hfound : ∃ n, hexNumber? digits = some n ∧ codePoint? n = some c ∧ rest' = rest := by
      simpa [Option.bind_eq_some_iff] using h
    rcases hfound with ⟨n, hn, hc, rfl⟩
    simp [hn, hc]
  | case2 s digits hspan =>
    rw [readCodePoint, hspan] at h
    cases h
  | case3 s hbrace hlength =>
    rw [readCodePoint, if_pos hlength] at h
    have hfound : ∃ n, hexNumber? (s.take count) = some n ∧ codePoint? n = some c ∧
        s.drop count = rest := by
      simpa [Option.bind_eq_some_iff] using h
    rcases hfound with ⟨n, hn, hc, rfl⟩
    have hle : count ≤ s.length := by
      rw [List.length_take] at hlength
      omega
    have hbrace' : ∀ s', s ++ t ≠ '{' :: s' := by
      cases s with
      | nil => simp [hexNumber?] at hn
      | cons d s =>
        intro s' heq
        cases heq
        exact hbrace _ rfl
    rw [readCodePoint, List.take_append_of_le_length hle, List.drop_append_of_le_length hle,
      if_pos hlength]
    · simp [hn, hc]
    · exact hbrace'
    · exact hbrace
  | case4 s hbrace hlength =>
    rw [readCodePoint, if_neg hlength] at h
    · cases h
    · exact hbrace

/-- An escape is read alike with more text behind. -/
theorem readEscape_append {e : Escape} (h : readEscape s = some (e, rest)) (t : Text) :
    readEscape (s ++ t) = some (e, rest ++ t) := by
  cases s with
  | nil => cases h
  | cons c s =>
    have hpoint : ∀ count, (readCodePoint count s).map (fun x => (Escape.literal x.1, x.2)) =
          some (e, rest) →
        (readCodePoint count (s ++ t)).map (fun x => (Escape.literal x.1, x.2)) =
          some (e, rest ++ t) := by
      intro count h
      rcases Option.map_eq_some_iff.1 h with ⟨x, hx, heq⟩
      cases heq
      rw [readCodePoint_append hx t]
      rfl
    simp only [List.cons_append, readEscape] at h ⊢
    split at h
    any_goals
      cases h
      rfl
    any_goals exact hpoint _ h
    simp_all

/-- An item of a class is read alike with more text behind. -/
theorem readClassItem_append {item : ClassItem} (h : readClassItem s = some (item, rest))
    (t : Text) : readClassItem (s ++ t) = some (item, rest ++ t) := by
  fun_cases readClassItem s with
  | case1 => cases h
  | case2 => cases h
  | case3 s c rest' hescape =>
    rw [readClassItem, hescape] at h
    cases h
    rw [List.cons_append, readClassItem, readEscape_append hescape t]
  | case4 s item' rest' hescape =>
    rw [readClassItem, hescape] at h
    cases h
    rw [List.cons_append, readClassItem, readEscape_append hescape t]
  | case5 s hliteral hitem =>
    rw [readClassItem] at h
    split at h
    next c rest' hescape => exact absurd hescape (hliteral c rest')
    next item' rest' hescape => exact absurd hescape (hitem item' rest')
    next => cases h
  | case6 c s hbracket hescape =>
    rw [readClassItem] at h
    · cases h
      rw [List.cons_append, readClassItem] <;> assumption
    · exact hbracket
    · exact hescape

/-- Whether a text neither ends a class nor begins with a doubled operator. -/
structure BeginsItem (s : Text) : Prop where
  not_close : ∀ rest, s = ']' :: rest → False
  not_and : ∀ rest, s = '&' :: '&' :: rest → False
  not_minus : ∀ rest, s = '-' :: '-' :: rest → False
  not_tilde : ∀ rest, s = '~' :: '~' :: rest → False

namespace BeginsItem

variable {item high range : ClassItem}

/-- What begins an item does so in front of a closing parenthesis. -/
theorem append {t : Text} (h : BeginsItem s) (ht : Closes t) : BeginsItem (s ++ t) where
  not_close := ht.not_cons (by decide) h.not_close
  not_and := ht.not_cons_cons (by decide) (by decide) h.not_and
  not_minus := ht.not_cons_cons (by decide) (by decide) h.not_minus
  not_tilde := ht.not_cons_cons (by decide) (by decide) h.not_tilde

/-- Behind an item without a hyphen the class goes on. -/
theorem readClassItems_item (h : BeginsItem s) (hitem : readClassItem s = some (item, rest))
    (hrest : ∀ more, rest = '-' :: more → False) (n : Nat) :
    readClassItems (n + 1) s = (readClassItems n rest).map fun x => (item :: x.1, x.2) := by
  rw [readClassItems, hitem]
  · split
    next heq => cases heq
    next heq => exact (hrest _ (Prod.mk.inj (Option.some.inj heq)).2).elim
    next heq =>
      cases heq
      rfl
  · exact h.not_close
  · exact h.not_and
  · exact h.not_minus
  · exact h.not_tilde

/-- So it does where the hyphen stands at its end or before another one. -/
theorem readClassItems_hyphen (h : BeginsItem s)
    (hitem : readClassItem s = some (item, '-' :: rest))
    (hrest : rest.head? = some ']' ∨ rest.head? = some '-') (n : Nat) :
    readClassItems (n + 1) s =
      (readClassItems n ('-' :: rest)).map fun x => (item :: x.1, x.2) := by
  rw [readClassItems, hitem]
  · exact if_pos hrest
  · exact h.not_close
  · exact h.not_and
  · exact h.not_minus
  · exact h.not_tilde

/-- Otherwise the item after the hyphen ends a range. -/
theorem readClassItems_range (h : BeginsItem s) (hitem : readClassItem s = some (item, '-' :: rest))
    (hrest : ¬ (rest.head? = some ']' ∨ rest.head? = some '-')) (n : Nat) :
    readClassItems (n + 1) s = (readClassItem rest).bind fun x =>
      (rangeBetween? item x.1).bind fun range =>
        (readClassItems n x.2).map fun y => (range :: y.1, y.2) := by
  rw [readClassItems, hitem]
  · simp only [if_neg hrest, Option.map_eq_bind]
    rfl
  · exact h.not_close
  · exact h.not_and
  · exact h.not_minus
  · exact h.not_tilde

end BeginsItem

/-- The items of a class end with it, so nothing behind it changes them. -/
theorem readClassItems_append {n n' : Nat} (hn : n ≤ n') {items : List ClassItem}
    (h : readClassItems n s = some (items, rest)) {t : Text} (ht : Closes t) :
    readClassItems n' (s ++ t) = some (items, rest ++ t) := by
  induction n, s using readClassItems.induct generalizing n' items rest with
  | case1 => cases h
  | case2 n rest' =>
    cases n' with
    | zero => omega
    | succ n' =>
      cases h
      rfl
  | case3 => cases h
  | case4 => cases h
  | case5 => cases h
  | case6 n s hitem => rw [readClassItems, hitem] at h <;> first | assumption | cases h
  | case7 n s low rest' hitem hhead hclose hand hminus htilde ih =>
    cases n' with
    | zero => omega
    | succ n' =>
      have hs : BeginsItem s := ⟨hclose, hand, hminus, htilde⟩
      have hhead' : (rest' ++ t).head? = some ']' ∨ (rest' ++ t).head? = some '-' := by
        cases rest' <;> simp_all
      rw [hs.readClassItems_hyphen hitem hhead] at h
      rcases Option.map_eq_some_iff.1 h with ⟨x, hx, heq⟩
      cases heq
      have hitem' : readClassItem (s ++ t) = some (low, '-' :: (rest' ++ t)) :=
        readClassItem_append hitem t
      have hmore : readClassItems n' ('-' :: (rest' ++ t)) = some (x.1, x.2 ++ t) :=
        ih (Nat.le_of_succ_le_succ hn) hx
      rw [(hs.append ht).readClassItems_hyphen hitem' hhead', hmore]
      rfl
  | case8 n s low rest' hitem hhead hclose hand hminus htilde ih =>
    cases n' with
    | zero => omega
    | succ n' =>
      have hs : BeginsItem s := ⟨hclose, hand, hminus, htilde⟩
      rw [hs.readClassItems_range hitem hhead] at h
      rcases Option.bind_eq_some_iff.1 h with ⟨x, hhigh, h⟩
      rcases Option.bind_eq_some_iff.1 h with ⟨range, hrange, h⟩
      rcases Option.map_eq_some_iff.1 h with ⟨y, hy, heq⟩
      cases heq
      have hhead' : ¬ ((rest' ++ t).head? = some ']' ∨ (rest' ++ t).head? = some '-') := by
        cases rest' with
        | nil => cases hhigh
        | cons c rest' => exact hhead
      have hitem' : readClassItem (s ++ t) = some (low, '-' :: (rest' ++ t)) :=
        readClassItem_append hitem t
      rw [(hs.append ht).readClassItems_range hitem' hhead', readClassItem_append hhigh t,
        Option.bind_some, hrange, Option.bind_some, ih x.2 (Nat.le_of_succ_le_succ hn) hy]
      rfl
  | case9 n s item rest' hrest hitem hclose hand hminus htilde ih =>
    cases n' with
    | zero => omega
    | succ n' =>
      have hs : BeginsItem s := ⟨hclose, hand, hminus, htilde⟩
      rw [hs.readClassItems_item hitem hrest] at h
      rcases Option.map_eq_some_iff.1 h with ⟨x, hx, heq⟩
      cases heq
      rw [(hs.append ht).readClassItems_item (readClassItem_append hitem t)
        (ht.not_cons (by decide) hrest), ih (Nat.le_of_succ_le_succ hn) hx]
      rfl

/-- The text of a class without the sign that negates it. -/
def afterSign (s : Text) : Text := if s.head? = some '^' then s.drop 1 else s

/-- The items of a class that stand for themselves because they come first, and the text with
the other items. -/
def leadItems (s : Text) : List ClassItem × Text :=
  let lead := (s.takeWhile (· = '-')).map fun c => ClassItem.range c c
  let s := s.dropWhile (· = '-')
  if lead.isEmpty ∧ s.head? = some ']' then ([.range ']' ']'], s.drop 1) else (lead, s)

/-- A class is a sign, the items that may stand only first, and further items. -/
theorem readClass_eq (flags : Flags) (s : Text) :
    readClass flags s = (readClassItems ((leadItems (afterSign s)).2.length + 1)
      (leadItems (afterSign s)).2).map fun x =>
        (⟨s.head? = some '^', flags.ignoreCase, (leadItems (afterSign s)).1 ++ x.1⟩, x.2) := by
  unfold readClass
  simp only [List.span_eq_takeWhile_dropWhile]
  rfl

/-- The sign of a class is read alike with more text behind. -/
theorem afterSign_append (hs : s ≠ []) (t : Text) : afterSign (s ++ t) = afterSign s ++ t := by
  cases s with
  | nil => exact absurd rfl hs
  | cons c s =>
    unfold afterSign
    rw [List.cons_append, List.head?_cons, List.head?_cons]
    split <;> rfl

/-- The first items of a class are read alike in front of a closing parenthesis. -/
theorem leadItems_append {t : Text} (ht : Closes t) (s : Text) :
    leadItems (s ++ t) = ((leadItems s).1, (leadItems s).2 ++ t) := by
  have hhead : ∀ u : Text, (u ++ t).head? = some ']' ↔ u.head? = some ']' := by
    intro u
    cases u with
    | nil => rcases ht with rfl | ⟨rest, rfl⟩ <;> simp
    | cons c u => rfl
  unfold leadItems
  simp only [ht.takeWhile (p := (· = '-')) (by decide), ht.dropWhile (p := (· = '-')) (by decide),
    hhead]
  split
  next hbracket =>
    have hne : s.dropWhile (· = '-') ≠ [] := by
      intro hnil
      rw [hnil] at hbracket
      cases hbracket.2
    rw [List.drop_append_of_le_length (List.length_pos_iff.2 hne)]
  next => rfl

/-- A class ends with its closing bracket.  Its items are the same under other flags. -/
theorem readClass_append {flags : Flags} {cls : CharClass}
    (h : readClass flags s = some (cls, rest)) (flags' : Flags) {t : Text} (ht : Closes t) :
    ∃ cls', readClass flags' (s ++ t) = some (cls', rest ++ t) ∧ (flags' = flags → cls' = cls) := by
  have hs : s ≠ [] := by
    rintro rfl
    cases h
  have hhead : (s ++ t).head? = s.head? := by
    cases s with
    | nil => exact absurd rfl hs
    | cons c s => rfl
  rw [readClass_eq] at h
  rcases Option.map_eq_some_iff.1 h with ⟨x, hx, heq⟩
  cases heq
  have hle : (leadItems (afterSign s)).2.length + 1 ≤
      ((leadItems (afterSign s)).2 ++ t).length + 1 := by
    rw [List.length_append]
    omega
  refine ⟨⟨s.head? = some '^', flags'.ignoreCase, (leadItems (afterSign s)).1 ++ x.1⟩, ?_, ?_⟩
  · rw [readClass_eq, afterSign_append hs, leadItems_append ht, readClassItems_append hle hx ht,
      hhead]
    rfl
  · rintro rfl
    rfl

/-! ## Flags and atoms -/

/-- Flags end with the colon or the parenthesis behind them. -/
theorem readFlags_append {flags inner : Flags} {on colon : Bool}
    (h : readFlags flags on s = some (inner, colon, rest)) (flags' : Flags) (t : Text) :
    ∃ inner', readFlags flags' on (s ++ t) = some (inner', colon, rest ++ t) ∧
      (flags' = flags → inner' = inner) := by
  induction flags, on, s using readFlags.induct generalizing flags' with
  | case1 flags on rest' =>
    cases h
    exact ⟨flags', rfl, id⟩
  | case2 flags on rest' =>
    cases h
    exact ⟨flags', rfl, id⟩
  | case3 flags on rest' ih =>
    rcases ih h { flags' with ignoreCase := on } with ⟨inner', hread, hsame⟩
    exact ⟨inner', hread, fun heq => hsame (by rw [heq])⟩
  | case4 flags on rest' ih =>
    rcases ih h { flags' with multiLine := on } with ⟨inner', hread, hsame⟩
    exact ⟨inner', hread, fun heq => hsame (by rw [heq])⟩
  | case5 flags on rest' ih =>
    rcases ih h { flags' with dotAll := on } with ⟨inner', hread, hsame⟩
    exact ⟨inner', hread, fun heq => hsame (by rw [heq])⟩
  | case6 flags rest' ih => exact ih h flags'
  | case7 flags on rest' hoff => simp [readFlags, hoff] at h
  | case8 s flags on => rw [readFlags] at h <;> first | assumption | cases h

/-- An atom stays the same where something stands behind it. -/
theorem readAtom_append {flags : Flags} {term : Term} (h : readAtom flags s = some (term, rest))
    (flags' : Flags) {t : Text} (ht : Closes t) (f : Nat → Nat) :
    ∃ term', readAtom flags' (s ++ t) = some (term', rest ++ t) ∧
      (flags' = flags → term' = term.renumber f) := by
  fun_cases readAtom flags s with
  | case1 => cases h
  | case2 rest' =>
    cases h
    exact ⟨_, rfl, fun heq => by rw [heq]; rfl⟩
  | case3 rest' =>
    cases h
    exact ⟨_, rfl, fun heq => by rw [heq]; rfl⟩
  | case4 rest' =>
    cases h
    exact ⟨_, rfl, fun heq => by rw [heq]; rfl⟩
  | case5 rest' =>
    rcases Option.map_eq_some_iff.1 h with ⟨⟨cls, rest''⟩, hclass, heq⟩
    cases heq
    rcases readClass_append hclass flags' ht with ⟨cls', hclass', hsame⟩
    refine ⟨.char cls', ?_, fun heq => by rw [hsame heq]; rfl⟩
    rw [List.cons_append, readAtom, hclass']
    rfl
  | case6 rest' hescape => simp [readAtom, hescape] at h
  | case7 rest' c rest'' hescape =>
    rw [readAtom, hescape] at h
    cases h
    refine ⟨.char (.single flags'.ignoreCase c), ?_, fun heq => by rw [heq]; rfl⟩
    rw [List.cons_append, readAtom, readEscape_append hescape t]
  | case8 rest' item rest'' hescape =>
    rw [readAtom, hescape] at h
    cases h
    refine ⟨_, ?_, fun _ => rfl⟩
    rw [List.cons_append, readAtom, readEscape_append hescape t]
    rfl
  | case9 rest' condition rest'' hescape =>
    rw [readAtom, hescape] at h
    cases h
    refine ⟨_, ?_, fun _ => rfl⟩
    rw [List.cons_append, readAtom, readEscape_append hescape t]
    rfl
  | case10 c rest' hdot hcaret hdollar hbracket hslash hspecial =>
    rw [readAtom, if_pos hspecial] at h <;> first | assumption | cases h
  | case11 c rest' hdot hcaret hdollar hbracket hslash hspecial =>
    rw [readAtom, if_neg hspecial] at h <;> try assumption
    cases h
    refine ⟨.char (.single flags'.ignoreCase c), ?_, fun heq => by rw [heq]; rfl⟩
    rw [List.cons_append, readAtom, if_neg hspecial] <;> assumption

/-! ## Repetitions -/

/-- Whether a repetition is lazy is read alike in front of a closing parenthesis. -/
theorem readGreedy_append {t : Text} (ht : Closes t) (s : Text) :
    readGreedy (s ++ t) = ((readGreedy s).1, (readGreedy s).2 ++ t) := by
  fun_cases readGreedy s with
  | case1 s => rfl
  | case2 s hlazy =>
    have hlazy' := ht.not_cons (by decide) hlazy
    unfold readGreedy
    split
    next s' heq => exact (hlazy' s' heq).elim
    next => rfl

/-- A number is read alike in front of a closing parenthesis. -/
theorem readDecimal_append {n : Nat} (h : readDecimal s = some (n, rest)) {t : Text}
    (ht : Closes t) : readDecimal (s ++ t) = some (n, rest ++ t) := by
  have hblank : Text.isBlank ')' = false := by decide
  have hdigit : Char.isDigit ')' = false := by decide
  simp only [readDecimal, List.span_eq_takeWhile_dropWhile, ht.dropWhile hblank,
    ht.takeWhile hdigit, ht.dropWhile hdigit] at h ⊢
  cases hdigits : (s.dropWhile Text.isBlank).takeWhile Char.isDigit with
  | nil => simp [hdigits] at h
  | cons d digits =>
    simp only [hdigits] at h ⊢
    cases h
    rw [ht.dropWhile hblank]

/-- A comma that no brace follows has the greatest count behind it. -/
theorem readCounts_between {least : Nat} {s' : Text}
    (hleast : readDecimal s = some (least, ',' :: s'))
    (hbrace : ∀ rest, s' = '}' :: rest → False) :
    readCounts s = (readDecimal s').bind fun x =>
      match x.2 with
      | '}' :: rest => if least ≤ x.1 then some (least, some x.1, rest) else none
      | _ => none := by
  unfold readCounts
  rw [hleast, Option.bind_eq_bind, Option.bind_some]
  simp only
  rfl

/-- Counts are read alike in front of a closing parenthesis. -/
theorem readCounts_append {least : Nat} {greatest : Option Nat}
    (h : readCounts s = some (least, greatest, rest)) {t : Text} (ht : Closes t) :
    readCounts (s ++ t) = some (least, greatest, rest ++ t) := by
  rcases Option.bind_eq_some_iff.1 h with ⟨⟨n, s'⟩, hleast, h'⟩
  have hleast' := readDecimal_append hleast ht
  simp only at h'
  split at h'
  next rest' =>
    cases h'
    simp [readCounts, hleast']
  next rest' =>
    cases h'
    simp [readCounts, hleast']
  next s' hbrace =>
    have hleast' : readDecimal (s ++ t) = some (n, ',' :: (s' ++ t)) := hleast'
    rw [readCounts_between hleast hbrace] at h
    rcases Option.bind_eq_some_iff.1 h with ⟨⟨most, s''⟩, hgreatest, h⟩
    rw [readCounts_between hleast' (ht.not_cons (by decide) hbrace),
      readDecimal_append hgreatest ht, Option.bind_some]
    simp only at h ⊢
    split at h
    next rest' =>
      split at h
      next hle =>
        cases h
        exact if_pos hle
      next => cases h
    next => cases h
  next => cases h'

/-- Repetitions of another term, in front of more text. -/
theorem readRepetitions_append {n n' : Nat} (hn : n ≤ n') {body first : Term}
    (h : readRepetitions n body s = some (first, rest)) (body' : Term) {t : Text} (ht : Closes t)
    (f : Nat → Nat) :
    ∃ first', readRepetitions n' body' (s ++ t) = some (first', rest ++ t) ∧
      (body' = body.renumber f → first' = first.renumber f) := by
  induction n, body, s using readRepetitions.induct generalizing n' body' with
  | case1 => cases h
  | case2 n body s greedy s' hgreedy ih =>
    cases n' with
    | zero => omega
    | succ n' =>
      rw [readRepetitions, hgreedy] at h
      rw [List.cons_append, readRepetitions, readGreedy_append ht, hgreedy]
      rcases ih (Nat.le_of_succ_le_succ hn) h (.star greedy body') with ⟨first', hread, hsame⟩
      exact ⟨first', hread, fun heq => hsame (by rw [heq]; rfl)⟩
  | case3 n body s greedy s' hgreedy ih =>
    cases n' with
    | zero => omega
    | succ n' =>
      rw [readRepetitions, hgreedy] at h
      rw [List.cons_append, readRepetitions, readGreedy_append ht, hgreedy]
      rcases ih (Nat.le_of_succ_le_succ hn) h (.plus greedy body') with ⟨first', hread, hsame⟩
      exact ⟨first', hread, fun heq => hsame (by rw [heq]; rfl)⟩
  | case4 n body s greedy s' hgreedy ih =>
    cases n' with
    | zero => omega
    | succ n' =>
      rw [readRepetitions, hgreedy] at h
      rw [List.cons_append, readRepetitions, readGreedy_append ht, hgreedy]
      rcases ih (Nat.le_of_succ_le_succ hn) h (.optional greedy body') with ⟨first', hread, hsame⟩
      exact ⟨first', hread, fun heq => hsame (by rw [heq]; rfl)⟩
  | case5 n body s hcounts => simp [readRepetitions, hcounts] at h
  | case6 n body s least greatest s' hcounts greedy s'' hgreedy ih =>
    cases n' with
    | zero => omega
    | succ n' =>
      rw [readRepetitions, hcounts] at h
      simp only [hgreedy] at h
      rw [List.cons_append, readRepetitions, readCounts_append hcounts ht]
      simp only [readGreedy_append ht, hgreedy]
      rcases ih (Nat.le_of_succ_le_succ hn) h (.between greedy least greatest body') with
        ⟨first', hread, hsame⟩
      exact ⟨first', hread, fun heq => hsame (by rw [heq, Term.renumber_between])⟩
  | case7 n body s hstar hplus hoptional hbrace =>
    cases n' with
    | zero => omega
    | succ n' =>
      rw [readRepetitions] at h <;> try assumption
      cases h
      refine ⟨body', ?_, id⟩
      rw [readRepetitions]
      · exact ht.not_cons (by decide) hstar
      · exact ht.not_cons (by decide) hplus
      · exact ht.not_cons (by decide) hoptional
      · exact ht.not_cons (by decide) hbrace

end Appended

/-! ## Terms -/

/-- A term as it is read in front of more text. -/
def shifted (t : Text) : Term → Term := Term.renumber (· + t.length)

/-- Whether the readers of terms, as deep as they go within a bound, read in front of more text
what they read without it, with other numbers for the groups where the flags are the same. -/
structure ReadsOn (t : Text) (n : Nat) : Prop where
  alternatives : ∀ {flags : Flags} {s : Text} {branches : List Term} {rest : Text},
    readAlternatives n flags s = some (branches, rest) → ∀ {n' : Nat}, n ≤ n' → ∀ flags' : Flags,
      ∃ branches', readAlternatives n' flags' (s ++ t) = some (branches', rest ++ t) ∧
        (flags' = flags → branches' = branches.map (shifted t))
  sequence : ∀ {flags after : Flags} {s : Text} {parts : List Term} {rest : Text},
    readSequence n flags s = some (parts, after, rest) → ∀ {n' : Nat}, n ≤ n' → ∀ flags' : Flags,
      ∃ parts' after', readSequence n' flags' (s ++ t) = some (parts', after', rest ++ t) ∧
        (flags' = flags → parts' = parts.map (shifted t) ∧ after' = after)
  inside : ∀ {flags : Flags} {s : Text} {body : Term} {rest : Text},
    readInside n flags s = some (body, rest) → ∀ {n' : Nat}, n ≤ n' → ∀ flags' : Flags,
      ∃ body', readInside n' flags' (s ++ t) = some (body', rest ++ t) ∧
        (flags' = flags → body' = shifted t body)
  behind : ∀ {flags after : Flags} {body : Term} {s : Text} {parts : List Term} {rest : Text},
    readAfter n flags (body, s) = some (parts, after, rest) → ∀ {n' : Nat}, n ≤ n' →
      ∀ (flags' : Flags) (body' : Term), ∃ parts' after',
        readAfter n' flags' (body', s ++ t) = some (parts', after', rest ++ t) ∧
          (flags' = flags → body' = shifted t body →
            parts' = parts.map (shifted t) ∧ after' = after)

namespace ReadsOn

variable {t : Text} {n n' : Nat} {flags after : Flags} {s rest : Text}

/-- Alternatives are read alike when what is in them is. -/
theorem alternatives_succ (h : ReadsOn t n) (ht : Closes t) {branches : List Term}
    (hread : readAlternatives (n + 1) flags s = some (branches, rest)) (hn : n ≤ n')
    (flags' : Flags) :
    ∃ branches', readAlternatives (n' + 1) flags' (s ++ t) = some (branches', rest ++ t) ∧
      (flags' = flags → branches' = branches.map (shifted t)) := by
  rw [readAlternatives] at hread
  split at hread
  next => cases hread
  next parts inner rest' hsequence =>
    rcases Option.map_eq_some_iff.1 hread with ⟨x, hothers, heq⟩
    cases heq
    rcases h.sequence hsequence hn flags' with ⟨parts', inner', hsequence', hsame⟩
    rcases h.alternatives hothers hn inner' with ⟨others', hothers', hsame'⟩
    refine ⟨(Term.sequence parts').branches ++ others', ?_, ?_⟩
    · rw [readAlternatives, hsequence']
      simp only [List.cons_append, hothers', Option.map_some]
    · intro heq
      rcases hsame heq with ⟨rfl, rfl⟩
      rw [hsame' rfl, List.map_append, shifted, Term.sequence_map_renumber, Term.branches_renumber]
  next parts inner rest' hbar hsequence =>
    cases hread
    rcases h.sequence hsequence hn flags' with ⟨parts', inner', hsequence', hsame⟩
    have hbar' : ∀ more, rest ++ t = '|' :: more → False :=
      ht.not_cons (by decide) hbar
    refine ⟨(Term.sequence parts').branches, ?_, ?_⟩
    · rw [readAlternatives, hsequence']
      simp only
    · intro heq
      rcases hsame heq with ⟨rfl, -⟩
      rw [shifted, Term.sequence_map_renumber, Term.branches_renumber]

/-- The inside of a group is read alike when what is in it is. -/
theorem inside_succ (h : ReadsOn t n) {body : Term}
    (hread : readInside (n + 1) flags s = some (body, rest)) (hn : n ≤ n') (flags' : Flags) :
    ∃ body', readInside (n' + 1) flags' (s ++ t) = some (body', rest ++ t) ∧
      (flags' = flags → body' = shifted t body) := by
  rw [readInside] at hread
  split at hread
  next branches rest' hbranches =>
    cases hread
    rcases h.alternatives hbranches hn flags' with ⟨branches', hbranches', hsame⟩
    refine ⟨Term.alternatives branches', ?_, ?_⟩
    · rw [readInside, hbranches']
      rfl
    · intro heq
      rw [hsame heq]
      exact Term.alternatives_map_renumber (fun _ _ => Nat.add_right_cancel) branches
  next => cases hread

/-- What follows a part is read alike when its parts are. -/
theorem behind_succ (h : ReadsOn t n) (ht : Closes t) {body : Term} {parts : List Term}
    (hread : readAfter (n + 1) flags (body, s) = some (parts, after, rest)) (hn : n ≤ n')
    (flags' : Flags) (body' : Term) :
    ∃ parts' after', readAfter (n' + 1) flags' (body', s ++ t) = some (parts', after', rest ++ t) ∧
      (flags' = flags → body' = shifted t body →
        parts' = parts.map (shifted t) ∧ after' = after) := by
  rw [readAfter] at hread
  split at hread
  next => cases hread
  next first s' hfirst =>
    rcases Option.map_eq_some_iff.1 hread with ⟨⟨others, after'', rest'⟩, hothers, heq⟩
    cases heq
    have hle : s.length + 1 ≤ (s ++ t).length + 1 := by
      rw [List.length_append]
      omega
    rcases readRepetitions_append hle hfirst body' ht (· + t.length) with ⟨first', hfirst', hsame⟩
    rcases h.sequence hothers hn flags' with ⟨others', after', hothers', hsame'⟩
    refine ⟨first'.parts ++ others', after', ?_, ?_⟩
    · rw [readAfter, hfirst']
      simp only [hothers', Option.map_some]
    · intro heq hbody
      rcases hsame' heq with ⟨rfl, rfl⟩
      rw [hsame hbody, Term.parts_renumber, List.map_append]
      exact ⟨rfl, rfl⟩

/-- A sequence is read alike when its parts are. -/
theorem sequence_succ (h : ReadsOn t n) (ht : Closes t) {parts : List Term}
    (hread : readSequence (n + 1) flags s = some (parts, after, rest)) (hn : n ≤ n')
    (flags' : Flags) :
    ∃ parts' after', readSequence (n' + 1) flags' (s ++ t) = some (parts', after', rest ++ t) ∧
      (flags' = flags → parts' = parts.map (shifted t) ∧ after' = after) := by
  rw [readSequence.eq_def] at hread
  simp only at hread
  split at hread
  next =>
    cases hread
    refine ⟨[], flags', ?_, fun heq => ⟨rfl, heq⟩⟩
    rcases ht with rfl | ⟨rest', rfl⟩ <;> rfl
  next =>
    cases hread
    exact ⟨[], flags', rfl, fun heq => ⟨rfl, heq⟩⟩
  next =>
    cases hread
    exact ⟨[], flags', rfl, fun heq => ⟨rfl, heq⟩⟩
  next s' =>
    split at hread
    next => cases hread
    next inner rest' hflags =>
      rcases readFlags_append hflags flags' t with ⟨inner', hflags', hsame⟩
      rcases h.sequence hread hn inner' with ⟨parts', after', hsequence', hsame'⟩
      refine ⟨parts', after', ?_, fun heq => hsame' (hsame heq)⟩
      rw [List.cons_append, List.cons_append, readSequence, hflags']
      exact hsequence'
    next inner rest' hflags =>
      rcases readFlags_append hflags flags' t with ⟨inner', hflags', hsame⟩
      rcases Option.bind_eq_some_iff.1 hread with ⟨⟨body, rest''⟩, hinside, hbehind⟩
      rcases h.inside hinside hn inner' with ⟨body', hinside', hsame'⟩
      rcases h.behind hbehind hn flags' body' with ⟨parts', after', hbehind', hsame''⟩
      refine ⟨parts', after', ?_, fun heq => hsame'' heq (hsame' (hsame heq))⟩
      rw [List.cons_append, List.cons_append, readSequence, hflags']
      simp only [hinside', Option.bind_some, hbehind']
  next s' hflags =>
    rcases Option.bind_eq_some_iff.1 hread with ⟨⟨body, rest'⟩, hinside, hbehind⟩
    rcases h.inside hinside hn flags' with ⟨body', hinside', hsame⟩
    rcases h.behind hbehind hn flags' (.group (s' ++ t).length body') with
      ⟨parts', after', hbehind', hsame'⟩
    refine ⟨parts', after', ?_, fun heq => hsame' heq ?_⟩
    · rw [List.cons_append, readSequence]
      · simp only [hinside', Option.bind_some, hbehind']
      · exact ht.not_cons (by decide) hflags
    · rw [hsame heq, List.length_append]
      rfl
  next hempty hbar hclose hflags hopen =>
    rcases Option.bind_eq_some_iff.1 hread with ⟨⟨body, rest'⟩, hatom, hbehind⟩
    rcases readAtom_append hatom flags' ht (· + t.length) with ⟨body', hatom', hsame⟩
    rcases h.behind hbehind hn flags' body' with ⟨parts', after', hbehind', hsame'⟩
    refine ⟨parts', after', ?_, fun heq => hsame' heq (hsame heq)⟩
    cases s with
    | nil => exact (hempty rfl).elim
    | cons c s =>
      rw [List.cons_append] at hatom' ⊢
      rw [readSequence]
      · simp only [hatom', Option.bind_some, hbehind']
      · exact nofun
      · rintro more ⟨⟩
        exact hbar s rfl
      · rintro more ⟨⟩
        exact hclose s rfl
      · rintro more heq
        exact hopen s (by rw [(List.cons.inj heq).1])
      · rintro more heq
        exact hopen s (by rw [(List.cons.inj heq).1])

end ReadsOn

/-- The readers of terms go on in front of more text. -/
theorem readsOn {t : Text} (ht : Closes t) (n : Nat) : ReadsOn t n := by
  induction n with
  | zero => exact ⟨nofun, nofun, nofun, nofun⟩
  | succ n ih =>
    refine ⟨?_, ?_, ?_, ?_⟩
    · intro flags s branches rest h n' hn flags'
      cases n' with
      | zero => omega
      | succ n' => exact ih.alternatives_succ ht h (Nat.le_of_succ_le_succ hn) flags'
    · intro flags after s parts rest h n' hn flags'
      cases n' with
      | zero => omega
      | succ n' => exact ih.sequence_succ ht h (Nat.le_of_succ_le_succ hn) flags'
    · intro flags s body rest h n' hn flags'
      cases n' with
      | zero => omega
      | succ n' => exact ih.inside_succ h (Nat.le_of_succ_le_succ hn) flags'
    · intro flags after body s parts rest h n' hn flags' body'
      cases n' with
      | zero => omega
      | succ n' => exact ih.behind_succ ht h (Nat.le_of_succ_le_succ hn) flags' body'

end SlotGrammar.Regex.Reader
