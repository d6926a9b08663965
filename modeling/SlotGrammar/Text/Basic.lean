/-!
# Texts and their byte measure

A text is the list of its code points.  Cursors and error positions count the
bytes of the text's UTF-8 form, so this file measures texts in bytes and cuts
them at byte offsets.

Main results:

- Theorem `dropBytes?_eq_some_iff`: cutting off `n` bytes succeeds exactly when
  some beginning of the text is `n` bytes long, and leaves what follows it.
- Theorems `splitAtBytes_append` and `byteLength_splitAtBytes_le`: the split
  below a byte offset loses nothing and never cuts past the offset.
-/

namespace SlotGrammar

/-- A text is the list of its code points. -/
abbrev Text := List Char

namespace Text

/-! ## Length in bytes -/

/-- The number of bytes of the UTF-8 form of a text. -/
def byteLength : Text → Nat
  | [] => 0
  | c :: rest => c.utf8Size + byteLength rest

@[simp]
theorem byteLength_nil : byteLength [] = 0 := rfl

@[simp]
theorem byteLength_cons (c : Char) (rest : Text) :
    byteLength (c :: rest) = c.utf8Size + byteLength rest := rfl

@[simp]
theorem byteLength_append (s t : Text) :
    byteLength (s ++ t) = byteLength s + byteLength t := by
  induction s with
  | nil => simp
  | cons c rest ih => simp [ih, Nat.add_assoc]

/-- Only the empty text has no bytes. -/
@[simp]
theorem byteLength_eq_zero_iff (t : Text) : byteLength t = 0 ↔ t = [] := by
  cases t with
  | nil => simp
  | cons c rest =>
    have := c.utf8Size_pos
    simp
    omega

/-! ## Cutting at a byte offset -/

/-- The text after its first `n` bytes; `none` when the text is shorter or when
byte `n` lies inside a code point. -/
def dropBytes? : Nat → Text → Option Text
  | 0, text => some text
  | _ + 1, [] => none
  | n + 1, c :: rest =>
    if c.utf8Size ≤ n + 1 then dropBytes? (n + 1 - c.utf8Size) rest else none

@[simp]
theorem dropBytes?_zero (t : Text) : dropBytes? 0 t = some t := by
  cases t <;> rfl

/-- Cutting off the bytes of a leading text leaves exactly what follows it. -/
@[simp]
theorem dropBytes?_byteLength_append (s t : Text) :
    dropBytes? (byteLength s) (s ++ t) = some t := by
  induction s with
  | nil => simp
  | cons c rest ih =>
    have hc := c.utf8Size_pos
    obtain ⟨m, hm⟩ : ∃ m, c.utf8Size + byteLength rest = m + 1 :=
      ⟨c.utf8Size + byteLength rest - 1, by omega⟩
    rw [byteLength_cons, hm, List.cons_append, dropBytes?, if_pos (by omega),
      show m + 1 - c.utf8Size = byteLength rest by omega, ih]

/-- Cutting off `n` bytes succeeds exactly when the text begins with `n` bytes
of whole code points, and leaves what follows them. -/
theorem dropBytes?_eq_some_iff {n : Nat} {t r : Text} :
    dropBytes? n t = some r ↔ ∃ s, t = s ++ r ∧ byteLength s = n := by
  constructor
  · intro h
    induction t generalizing n with
    | nil =>
      cases n with
      | zero => exact ⟨[], by simpa using h, rfl⟩
      | succ n => simp [dropBytes?] at h
    | cons c rest ih =>
      cases n with
      | zero => exact ⟨[], by simpa using h, rfl⟩
      | succ n =>
        rw [dropBytes?] at h
        split at h
        · obtain ⟨s, hs, hn⟩ := ih h
          exact ⟨c :: s, by simp [hs], by simp [hn]; omega⟩
        · simp at h
  · rintro ⟨s, rfl, rfl⟩
    simp

/-- The longest beginning of the text that fits into `n` bytes, and the rest.
The cut is the greatest code point boundary that is not above `n`. -/
def splitAtBytes : Nat → Text → Text × Text
  | _, [] => ([], [])
  | n, c :: rest =>
    if c.utf8Size ≤ n then
      let cut := splitAtBytes (n - c.utf8Size) rest
      (c :: cut.1, cut.2)
    else ([], c :: rest)

/-- The split loses nothing. -/
@[simp]
theorem splitAtBytes_append (n : Nat) (t : Text) :
    (splitAtBytes n t).1 ++ (splitAtBytes n t).2 = t := by
  induction t generalizing n with
  | nil => rfl
  | cons c rest ih =>
    rw [splitAtBytes]
    split
    · simp [ih]
    · rfl

/-- The first part of the split fits into the given number of bytes. -/
theorem byteLength_splitAtBytes_le (n : Nat) (t : Text) :
    byteLength (splitAtBytes n t).1 ≤ n := by
  induction t generalizing n with
  | nil => simp [splitAtBytes]
  | cons c rest ih =>
    rw [splitAtBytes]
    split
    · have := ih (n - c.utf8Size)
      simp
      omega
    · simp

/-! ## Beginnings -/

/-- The text after `lead`, if it begins with it. -/
def dropLead? : Text → Text → Option Text
  | [], text => some text
  | _ :: _, [] => none
  | c :: lead, d :: text => if c = d then dropLead? lead text else none

/-- A text begins with `lead` exactly when it is `lead` and something more. -/
theorem dropLead?_eq_some_iff {lead t r : Text} :
    dropLead? lead t = some r ↔ t = lead ++ r := by
  induction lead generalizing t with
  | nil => simp [dropLead?]
  | cons c lead ih =>
    cases t with
    | nil => simp [dropLead?]
    | cons d t =>
      rw [dropLead?]
      split
      · next h => simp [h, ih]
      · next h => simpa using fun hdc => absurd hdc.symm h

/-- What a text begins with: one code point that satisfies a condition, and then as
many as satisfy another. -/
def leadAndRun? (lead run : Char → Bool) : Text → Option Text
  | [] => none
  | c :: rest => if lead c then some (c :: rest.takeWhile run) else none

/-- One code point or more that satisfy the same condition. -/
theorem leadAndRun?_self (p : Char → Bool) (text : Text) :
    leadAndRun? p p text =
      if text.takeWhile p = [] then none else some (text.takeWhile p) := by
  cases text with
  | nil => rfl
  | cons c rest => cases hc : p c <;> simp [leadAndRun?, hc]

end Text

end SlotGrammar
