import SlotGrammar.Regex.Term

/-!
# Reading regular expressions

The written form of a regular expression: alternatives, groups, flags in
`(?i)` and `(?i:..)` form, character classes, escapes, assertions, and greedy
or lazy repetitions.  A flag that is set inside a group holds until the end of
the group, across its later alternatives.  A group is numbered by the length of
the text from its inside on, which no two groups have in common.

Every reader takes the text ahead and returns what it read with the text after
it, or `none` when the text is not well formed.
-/

namespace SlotGrammar.Regex

/-- The flags under which a regular expression is read. -/
structure Flags where
  ignoreCase : Bool := false
  multiLine : Bool := false
  dotAll : Bool := false
deriving DecidableEq, Inhabited

namespace Reader

/-! ## Numbers -/

/-- The value of a hexadecimal digit. -/
def hexValue? (c : Char) : Option Nat :=
  if '0' ≤ c ∧ c ≤ '9' then some (c.toNat - '0'.toNat)
  else if 'a' ≤ c ∧ c ≤ 'f' then some (c.toNat - 'a'.toNat + 10)
  else if 'A' ≤ c ∧ c ≤ 'F' then some (c.toNat - 'A'.toNat + 10)
  else none

/-- The value of a non-empty list of hexadecimal digits. -/
def hexNumber? : Text → Option Nat
  | [] => none
  | digits => digits.foldl (fun total c => do return (← total) * 16 + (← hexValue? c)) (some 0)

/-- The code point with the given number, if there is one. -/
def codePoint? (n : Nat) : Option Char :=
  if n.isValidChar then some (Char.ofNat n) else none

/-- The value of a list of decimal digits. -/
def decimalNumber (digits : Text) : Nat :=
  digits.foldl (fun total c => total * 10 + (c.toNat - '0'.toNat)) 0

/-- A non-empty number in decimal digits, with white space around it or none. -/
def readDecimal (s : Text) : Option (Nat × Text) :=
  match (s.dropWhile Text.isBlank).span Char.isDigit with
  | ([], _) => none
  | (digits, rest) => some (decimalNumber digits, rest.dropWhile Text.isBlank)

/-! ## Escapes -/

/-- What may follow a backslash. -/
inductive Escape where
  | literal (c : Char)
  | item (item : ClassItem)
  | assertion (condition : Assertion)

/-- A code point by its number: so many hexadecimal digits, or any number of
them in braces. -/
def readCodePoint (count : Nat) : Text → Option (Char × Text)
  | '{' :: s =>
    match s.span (· ≠ '}') with
    | (digits, _ :: rest) => do return (← codePoint? (← hexNumber? digits), rest)
    | (_, []) => none
  | s =>
    if (s.take count).length = count then do
      return (← codePoint? (← hexNumber? (s.take count)), s.drop count)
    else none

/-- What follows a backslash.  Punctuation stands for itself; letters and digits
without a meaning of their own are not allowed. -/
def readEscape : Text → Option (Escape × Text)
  | [] => none
  | c :: rest =>
    match c with
    | 's' => some (.item (.blank true), rest)
    | 'S' => some (.item (.blank false), rest)
    | 'd' => some (.item (.digit true), rest)
    | 'D' => some (.item (.digit false), rest)
    | 'w' => some (.item (.word true), rest)
    | 'W' => some (.item (.word false), rest)
    | 'A' => some (.assertion .textStart, rest)
    | 'z' => some (.assertion .textEnd, rest)
    | 'b' => some (.assertion .wordEdge, rest)
    | 'B' => some (.assertion .noWordEdge, rest)
    | 'n' => some (.literal '\n', rest)
    | 't' => some (.literal '\t', rest)
    | 'r' => some (.literal '\r', rest)
    | 'f' => some (.literal '\x0c', rest)
    | 'v' => some (.literal '\x0b', rest)
    | 'a' => some (.literal '\x07', rest)
    | 'x' => (readCodePoint 2 rest).map fun (d, rest) => (.literal d, rest)
    | 'u' => (readCodePoint 4 rest).map fun (d, rest) => (.literal d, rest)
    | 'U' => (readCodePoint 8 rest).map fun (d, rest) => (.literal d, rest)
    | _ =>
      if c.toNat < 0x80 ∧ ¬ c.isAlphanum ∧ c ≠ '<' ∧ c ≠ '>' then some (.literal c, rest)
      else none

/-! ## Character classes -/

/-- One end of a range, or a named set, inside a class. -/
def readClassItem : Text → Option (ClassItem × Text)
  | [] => none
  | '[' :: _ => none
  | '\\' :: s =>
    match readEscape s with
    | some (.literal c, rest) => some (.range c c, rest)
    | some (.item item, rest) => some (item, rest)
    | _ => none
  | c :: rest => some (.range c c, rest)

/-- The range between two single code points, the lower one first. -/
def rangeBetween? : ClassItem → ClassItem → Option ClassItem
  | .range low low', .range high high' =>
    if low = low' ∧ high = high' ∧ low ≤ high then some (.range low high) else none
  | _, _ => none

/-- The items of a class up to its closing bracket.  Doubled operators between
sets are not allowed.  The first argument bounds the number of items. -/
def readClassItems : Nat → Text → Option (List ClassItem × Text)
  | 0, _ => none
  | n + 1, s =>
    match s with
    | ']' :: rest => some ([], rest)
    | '&' :: '&' :: _ => none
    | '-' :: '-' :: _ => none
    | '~' :: '~' :: _ => none
    | _ =>
      match readClassItem s with
      | none => none
      | some (low, '-' :: rest) =>
        if rest.head? = some ']' ∨ rest.head? = some '-' then
          (readClassItems n ('-' :: rest)).map fun (items, rest) => (low :: items, rest)
        else do
          let (high, rest) ← readClassItem rest
          let item ← rangeBetween? low high
          let (items, rest) ← readClassItems n rest
          return (item :: items, rest)
      | some (item, rest) =>
        (readClassItems n rest).map fun (items, rest) => (item :: items, rest)

/-- A class after its opening bracket.  Hyphens at its start stand for
themselves, and so does a closing bracket that comes first. -/
def readClass (flags : Flags) (s : Text) : Option (CharClass × Text) :=
  let negated := s.head? = some '^'
  let s := if negated then s.drop 1 else s
  let (hyphens, s) := s.span (· = '-')
  let lead := hyphens.map fun c => ClassItem.range c c
  let (lead, s) :=
    if lead.isEmpty ∧ s.head? = some ']' then ([ClassItem.range ']' ']'], s.drop 1) else (lead, s)
  (readClassItems (s.length + 1) s).map fun (items, rest) =>
    (⟨negated, flags.ignoreCase, lead ++ items⟩, rest)

/-! ## Flags -/

/-- The flags named between `(?` and the colon or parenthesis that ends them,
and whether a colon did.  A hyphen turns the flags after it off. -/
def readFlags (flags : Flags) (on : Bool) : Text → Option (Flags × Bool × Text)
  | ':' :: rest => some (flags, true, rest)
  | ')' :: rest => some (flags, false, rest)
  | 'i' :: rest => readFlags { flags with ignoreCase := on } on rest
  | 'm' :: rest => readFlags { flags with multiLine := on } on rest
  | 's' :: rest => readFlags { flags with dotAll := on } on rest
  | '-' :: rest => if on then readFlags flags false rest else none
  | _ => none

/-! ## Terms -/

/-- The term of a code point that stands for itself, of a dot, of an assertion
or of a class. -/
def readAtom (flags : Flags) : Text → Option (Term × Text)
  | [] => none
  | '.' :: rest =>
    some (.char (if flags.dotAll then .any else .anyButLineFeed), rest)
  | '^' :: rest =>
    some (.assertion (if flags.multiLine then .lineStart else .textStart), rest)
  | '$' :: rest =>
    some (.assertion (if flags.multiLine then .lineEnd else .textEnd), rest)
  | '[' :: rest => (readClass flags rest).map fun (cls, rest) => (.char cls, rest)
  | '\\' :: rest =>
    match readEscape rest with
    | none => none
    | some (.literal c, rest) => some (.char (.single flags.ignoreCase c), rest)
    | some (.item item, rest) => some (.char ⟨false, false, [item]⟩, rest)
    | some (.assertion condition, rest) => some (.assertion condition, rest)
  | c :: rest =>
    if c = '*' ∨ c = '+' ∨ c = '?' ∨ c = '{' ∨ c = '(' ∨ c = ')' ∨ c = '|' then none
    else some (.char (.single flags.ignoreCase c), rest)

/-- Whether a repetition is greedy: a question mark after it makes it lazy. -/
def readGreedy : Text → Bool × Text
  | '?' :: rest => (false, rest)
  | rest => (true, rest)

/-- The counts of a repetition after its opening brace: the least one and the
greatest one, if there is a greatest. -/
def readCounts (s : Text) : Option (Nat × Option Nat × Text) := do
  let (least, s) ← readDecimal s
  match s with
  | '}' :: rest => return (least, some least, rest)
  | ',' :: '}' :: rest => return (least, none, rest)
  | ',' :: s =>
    let (greatest, s) ← readDecimal s
    match s with
    | '}' :: rest => if least ≤ greatest then return (least, some greatest, rest) else none
    | _ => none
  | _ => none

/-- The repetitions that follow a term.  The first argument bounds their number. -/
def readRepetitions : Nat → Term → Text → Option (Term × Text)
  | 0, _, _ => none
  | n + 1, body, s =>
    match s with
    | '*' :: s =>
      let (greedy, s) := readGreedy s
      readRepetitions n (.star greedy body) s
    | '+' :: s =>
      let (greedy, s) := readGreedy s
      readRepetitions n (.plus greedy body) s
    | '?' :: s =>
      let (greedy, s) := readGreedy s
      readRepetitions n (.optional greedy body) s
    | '{' :: s =>
      match readCounts s with
      | none => none
      | some (least, greatest, s) =>
        let (greedy, s) := readGreedy s
        readRepetitions n (.between greedy least greatest body) s
    | _ => some (body, s)

mutual

/-- Alternatives, up to a closing parenthesis or the end.  The first argument
bounds the depth of the reading. -/
def readAlternatives : Nat → Flags → Text → Option (List Term × Text)
  | 0, _, _ => none
  | n + 1, flags, s =>
    match readSequence n flags s with
    | none => none
    | some (parts, flags, '|' :: rest) =>
      (readAlternatives n flags rest).map fun (others, rest) =>
        ((Term.sequence parts).branches ++ others, rest)
    | some (parts, _, rest) => some ((Term.sequence parts).branches, rest)

/-- The parts of one alternative, and the flags in force at its end. -/
def readSequence : Nat → Flags → Text → Option (List Term × Flags × Text)
  | 0, _, _ => none
  | n + 1, flags, s =>
    match s with
    | [] => some ([], flags, s)
    | '|' :: _ => some ([], flags, s)
    | ')' :: _ => some ([], flags, s)
    | '(' :: '?' :: rest =>
      match readFlags flags true rest with
      | none => none
      | some (flags, false, rest) => readSequence n flags rest
      | some (inner, true, rest) => (readInside n inner rest).bind (readAfter n flags)
    | '(' :: rest =>
      (readInside n flags rest).bind fun (body, after) =>
        readAfter n flags (.group rest.length body, after)
    | _ => (readAtom flags s).bind (readAfter n flags)

/-- The inside of a pair of parentheses and the closing one. -/
def readInside : Nat → Flags → Text → Option (Term × Text)
  | 0, _, _ => none
  | n + 1, flags, s =>
    match readAlternatives n flags s with
    | some (branches, ')' :: rest) => some (Term.alternatives branches, rest)
    | _ => none

/-- The repetitions of a term that has been read, and the rest of its
alternative. -/
def readAfter : Nat → Flags → Term × Text → Option (List Term × Flags × Text)
  | 0, _, _ => none
  | n + 1, flags, (body, s) =>
    match readRepetitions (s.length + 1) body s with
    | none => none
    | some (first, s) =>
      (readSequence n flags s).map fun (others, flags, rest) =>
        (first.parts ++ others, flags, rest)

end

end Reader

/-- Reads a whole text as a regular expression. -/
def Term.read? (flags : Flags) (source : Text) : Option Term :=
  match Reader.readAlternatives (3 * source.length + 3) flags source with
  | some (branches, []) => some (Term.alternatives branches)
  | _ => none

example : Term.read? {} ['a', '|', 'b'] =
    some (.either (.char (.single false 'a')) (.char (.single false 'b'))) := by decide

example : Term.read? {} ['a', ')'] = none := by decide

end SlotGrammar.Regex
