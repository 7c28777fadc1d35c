import PegAudit.Expr.Source
import PegAudit.Proofs.Source.Terminals

namespace PegAudit

/-!
# Reading expressions back

Source text is read by binding strength: alternatives that are sequences of
predicates on iterations of single items, where an item in parentheses may be
anything.  Each kind of expression is shown so that it is read back where it
stands without parentheses, and with them everywhere.
-/

namespace Expr

/-- The characters of the notation around names. -/
def punctuation : List Char :=
  [' ', '(', ')', '+', '*', '?', '"', '[', ']', '^', '&', '!', '/']

/-- May the character be part of a name? -/
def isWord
    (character : Char) :
    Bool :=
  !punctuation.contains character

/-- Names that cannot be taken for anything else. -/
structure LegibleName
    (name : String) :
    Prop where
  ne_empty : name.toList ≠ []
  ne_anyChar : name.toList ≠ ['_']
  word : ∀ character ∈ name.toList, isWord character = true

/--
Expressions that can be read back: groups have two parts, what has a shorter
form of its own is written so, and all names and terminals are legible.
-/
inductive Legible :
    Expr →
    Prop
  | terminal
      {item : Terminal}
      (legible : item.Legible) :
      Legible (.terminal item)
  | reference
      {target : String}
      (legible : LegibleName target) :
      Legible (.reference target)
  | unary
      {operator : Operator}
      {body : Expr}
      (notEnd :
        operator = .notPredicate → body ≠ .terminal .anyChar)
      (legible : Legible body) :
      Legible (.unary operator body)
  | group
      {grouping : Grouping}
      {parts : List Expr}
      (two : 2 ≤ parts.length)
      (each : ∀ part ∈ parts, Legible part) :
      Legible (.group grouping parts)

section Readers

variable (inner : Reader Expr)

/-- What a word is: any character, or a reference. -/
def ofWord
    (word : List Char) :
    Expr :=
  if word = ['_'] then
    anyChar
  else
    .reference (String.ofList word)

/-- Read a single item; what is in parentheses is read by the inner reader. -/
def readItem : Reader Expr := fun input =>
  match input.takeWhile isWord with
  | [] =>
      match input with
      | '(' :: rest =>
          match inner rest with
          | some (body, ')' :: later) => some (body, later)
          | _ => none
      | _ =>
          (Terminal.readDelimited input).map fun found =>
            (.terminal found.1, found.2)
  | word =>
      some (ofWord word, input.dropWhile isWord)

/-- Read an item and the iteration behind it, if there is one. -/
def readSuffixed : Reader Expr := fun input =>
  match readItem inner input with
  | some (body, '+' :: rest) => some (oneOrMore body, rest)
  | some (body, '*' :: rest) => some (zeroOrMore body, rest)
  | some (body, '?' :: rest) => some (optional body, rest)
  | other => other

/-- Read an item with its iteration, or a predicate on one. -/
def readPrefixed : Reader Expr
  | '&' :: rest =>
      (readSuffixed inner rest).map fun found =>
        (followedBy found.1, found.2)
  | '!' :: rest =>
      (readSuffixed inner rest).map fun found =>
        (notFollowedBy found.1, found.2)
  | input =>
      readSuffixed inner input

/-- Read the parts of a sequence. -/
def readParts
    (fuel : Nat) :
    Reader (List Expr) :=
  Reader.separated [' '] (readPrefixed inner) fuel

/-- Read a sequence, or a single part. -/
def readSequence
    (fuel : Nat) :
    Reader Expr := fun input =>
  (readParts inner fuel input).map fun found =>
    (sequence found.1, found.2)

/-- Read a choice, or a single alternative. -/
def readChoice
    (fuel : Nat) :
    Reader Expr := fun input =>
  (Reader.separated [' ', '/', ' '] (readSequence inner fuel) fuel
      input).map fun found =>
    (choice found.1, found.2)

end Readers

/-- Read an expression with parentheses inside each other to a limited depth. -/
def readWithin :
    Nat →
    Reader Expr
  | 0 =>
      fun _ => none
  | depth + 1 =>
      readChoice (readWithin depth) (depth + 1)

/-- What may stand directly behind a part of a sequence. -/
def behindPart : List Char :=
  [' ', '(', ')']

/-- What may stand directly behind a whole expression. -/
def behindWhole : List Char :=
  ['(', ')']

/-- Behind a sequence there is another alternative or the end of the expression. -/
def BehindSequence
    (rest : List Char) :
    Prop :=
  Reader.BeginsIn behindWhole rest ∨
    ∃ later, rest = ' ' :: '/' :: later

/-- The text of a part of a sequence. -/
def partText
    (part : Expr) :
    String :=
  enclosed (part.strength ≤ Grouping.sequence.strength) part.source

end Expr

namespace Reader

/-- A text that begins in a list of characters is empty or begins with one of them. -/
theorem beginsIn_iff
    {allowed text : List Char} :
    BeginsIn allowed text ↔
      text = [] ∨ ∃ first ∈ allowed, ∃ later, text = first :: later := by
  cases text with
  | nil =>
      simp [BeginsIn]
  | cons first later =>
      simp [BeginsIn]

/-- More characters may be allowed. -/
theorem BeginsIn.mono
    {allowed others text : List Char}
    (begins : BeginsIn allowed text)
    (more : allowed ⊆ others) :
    BeginsIn others text :=
  fun first isFirst => more (begins first isFirst)

end Reader

namespace Expr

/-- That something other than any character follows is a predicate. -/
theorem notFollowedBy_of_ne
    {body : Expr}
    (notAny : body ≠ .terminal .anyChar) :
    notFollowedBy body = .unary .notPredicate body := by
  unfold notFollowedBy
  split
  case h_1 =>
    exact (notAny rfl).elim
  case h_2 =>
    rfl

/-- Two or more parts make a group. -/
theorem grouped_of_two
    (grouping : Grouping)
    {parts : List Expr}
    (two : 2 ≤ parts.length) :
    grouped grouping parts = .group grouping parts := by
  unfold grouped
  split
  case h_1 =>
    simp at two
  case h_2 =>
    rfl

/-- Nothing binds between a sequence and a predicate. -/
theorem three_le_strength
    {expression : Expr}
    (tight : 1 < expression.strength) :
    3 ≤ expression.strength := by
  cases expression with
  | terminal item =>
      cases item <;> simp [strength]
  | reference target =>
      simp [strength]
  | unary operator body =>
      cases operator <;> simp [strength, Operator.strength]
  | group grouping parts =>
      cases grouping <;> simp [strength, Grouping.strength] at tight

/-- A list is shorter than its size. -/
theorem length_lt_sizeOf
    (parts : List Expr) :
    parts.length < sizeOf parts := by
  induction parts with
  | nil =>
      simp
  | cons part others inductionHypothesis =>
      rw [List.length_cons, List.cons.sizeOf_spec]
      lia

/-- Parts are smaller and fewer than the size of their group. -/
theorem parts_lt_sizeOf
    {grouping : Grouping}
    {parts : List Expr}
    {size : Nat}
    (small : sizeOf (group grouping parts) ≤ size) :
    (∀ part ∈ parts, sizeOf part < size) ∧ parts.length < size := by
  rw [group.sizeOf_spec] at small
  constructor
  · intro part isPart
    have smaller := List.sizeOf_lt_of_mem isPart
    lia
  · have fewer := length_lt_sizeOf parts
    lia

/-- The parts of a group are shown with separators between them. -/
theorem toList_source_group
    (grouping : Grouping)
    (parts : List Expr) :
    (group grouping parts).source.toList =
      grouping.separator.toList.intercalate
        (parts.map fun part =>
          (enclosed (part.strength ≤ grouping.strength)
            part.source).toList) := by
  rw [source, partSources_eq_map, String.toList_intercalate, List.map_map]
  rfl

section Items

variable {inner : Reader Expr}

/-- A word is read up to the character that ends it. -/
theorem readItem_word
    {word : List Char}
    (someWord : word ≠ [])
    (isWord : ∀ character ∈ word, isWord character = true) :
    (readItem inner).Reads word (ofWord word)
      (Reader.BeginsIn Terminal.behindItem) := by
  intro rest behind
  have ended :
      rest.takeWhile Expr.isWord = [] ∧
        rest.dropWhile Expr.isWord = rest := by
    rcases Reader.beginsIn_iff.mp behind with
      rfl | ⟨first, isFirst, later, rfl⟩
    · exact ⟨rfl, rfl⟩
    · have noneIsWord :
          (Terminal.behindItem.any Expr.isWord) = false := by
        decide
      simp [List.any_eq_false.mp noneIsWord first isFirst]
  have taken :
      (word ++ rest).takeWhile Expr.isWord = word := by
    rw [List.takeWhile_append_of_pos isWord, ended.1, List.append_nil]
  have dropped :
      (word ++ rest).dropWhile Expr.isWord = rest := by
    rw [List.dropWhile_append_of_pos isWord, ended.2]
  obtain ⟨first, others, rfl⟩ := List.exists_cons_of_ne_nil someWord
  simp only [readItem, taken, dropped]

/-- What begins with a delimiter is read as a terminal. -/
theorem readItem_delimiter
    {first : Char}
    (isDelimiter : first ∈ ['"', '[', '^'])
    (rest : List Char) :
    readItem inner (first :: rest) =
      (Terminal.readDelimited (first :: rest)).map fun found =>
        (.terminal found.1, found.2) := by
  simp only [List.mem_cons, List.not_mem_nil, or_false] at isDelimiter
  rcases isDelimiter with rfl | rfl | rfl <;> rfl

/-- An expression in parentheses is read as an item if it is read inside. -/
theorem readItem_parentheses
    {shown : List Char}
    {value : Expr}
    (readInside :
      ∀ rest, inner (shown ++ ')' :: rest) = some (value, ')' :: rest))
    (rest : List Char) :
    readItem inner ('(' :: (shown ++ ')' :: rest)) = some (value, rest) := by
  have noWord :
      ('(' :: (shown ++ ')' :: rest)).takeWhile isWord = [] :=
    rfl
  simp only [readItem, noWord, readInside rest]

/-- Any character is read as what it is. -/
theorem readItem_anyChar :
    (readItem inner).Reads ['_'] anyChar
      (Reader.BeginsIn Terminal.behindItem) :=
  readItem_word (List.cons_ne_nil _ _)
    (List.forall_mem_singleton.mpr (by decide))

/-- Items are read back. -/
theorem readItem_source
    {expression : Expr}
    (legible : expression.Legible)
    (tight : 5 ≤ expression.strength) :
    (readItem inner).Reads expression.source.toList expression
      (Reader.BeginsIn Terminal.behindItem) := by
  cases legible with
  | @terminal item legible =>
      by_cases isAny : item = .anyChar
      · subst isAny
        exact readItem_anyChar
      · have isDelimited : item ≠ .anyChar ∧ item ≠ .endOfInput := by
          refine ⟨isAny, ?_⟩
          rintro rfl
          revert tight
          decide
        intro rest behind
        have read :=
          Terminal.readDelimited_source legible isDelimited rest behind
        obtain ⟨first, isDelimiter, others, shown⟩ :=
          Terminal.exists_delimiter isDelimited
        rw [shown, List.cons_append] at read
        rw [source, shown, List.cons_append,
          readItem_delimiter isDelimiter, read, Option.map_some]
  | reference legible =>
      have word :
          (readItem inner).Reads _ _
            (Reader.BeginsIn Terminal.behindItem) :=
        readItem_word legible.ne_empty legible.word
      rw [ofWord, if_neg legible.ne_anyChar, String.ofList_toList] at word
      exact word
  | @unary operator body notEnd legible =>
      cases operator <;> simp [strength, Operator.strength] at tight
  | @group grouping parts two each =>
      cases grouping <;> simp [strength, Grouping.strength] at tight

/-- Whatever is smaller is read back by the inner reader in front of a parenthesis. -/
def ReadsInside
    (inner : Reader Expr)
    (size : Nat) :
    Prop :=
  ∀ {expression : Expr},
    expression.Legible →
    sizeOf expression < size →
    ∀ rest,
      inner (expression.source.toList ++ ')' :: rest) =
        some (expression, ')' :: rest)

variable
  {size : Nat}
  (inside : ReadsInside inner size)
  {expression : Expr}

include inside

/--
An expression is read back where it stands enclosed if need be: in parentheses
as an item, and without them as it is.
-/
theorem reads_enclosed
    {reader : Reader Expr}
    {behind : List Char → Prop}
    {context : Nat}
    (legible : expression.Legible)
    (small : sizeOf expression < size)
    (item :
      ∀ {shown value},
        (readItem inner).Reads shown value
            (Reader.BeginsIn Terminal.behindItem) →
          reader.Reads shown value behind)
    (bare :
      context < expression.strength →
      reader.Reads expression.source.toList expression behind) :
    reader.Reads
      (enclosed (expression.strength ≤ context) expression.source).toList
      expression behind := by
  by_cases needed : expression.strength ≤ context
  · have inParentheses :
        (readItem inner).Reads
          ('(' :: (expression.source.toList ++ [')'])) expression
          (Reader.BeginsIn Terminal.behindItem) := by
      intro rest _
      have read := readItem_parentheses (inside legible small) rest
      simpa using read
    simpa [enclosed, needed] using item inParentheses
  · simpa [enclosed, needed] using bare (Nat.lt_of_not_le needed)

omit inside in
/-- Where no iteration follows, an item is read with none. -/
theorem readSuffixed_of_readItem
    {shown : List Char}
    {value : Expr}
    (item :
      (readItem inner).Reads shown value
        (Reader.BeginsIn Terminal.behindItem)) :
    (readSuffixed inner).Reads shown value
      (Reader.BeginsIn behindPart) := by
  intro rest behind
  have read := item rest (behind.mono (by decide))
  rw [readSuffixed, read]
  rcases Reader.beginsIn_iff.mp behind with
    rfl | ⟨first, isFirst, later, rfl⟩
  · rfl
  · simp only [behindPart, List.mem_cons, List.not_mem_nil, or_false]
      at isFirst
    rcases isFirst with rfl | rfl | rfl <;> rfl

/-- Iterations and items are read back. -/
theorem readSuffixed_source
    (legible : expression.Legible)
    (small : sizeOf expression ≤ size)
    (tight : 4 ≤ expression.strength) :
    (readSuffixed inner).Reads expression.source.toList expression
      (Reader.BeginsIn behindPart) := by
  cases expression with
  | terminal item =>
      apply readSuffixed_of_readItem
      apply readItem_source legible
      cases item <;> simp [strength] at tight ⊢
  | reference target =>
      exact readSuffixed_of_readItem (readItem_source legible (by rfl))
  | group grouping parts =>
      cases grouping <;> simp [strength, Grouping.strength] at tight
  | unary operator body =>
      cases legible with
      | unary notEnd legible =>
        have smallBody : sizeOf body < size := by
          rw [unary.sizeOf_spec] at small
          lia
        have bodyRead :
            (readItem inner).Reads
              (enclosed (body.strength ≤ operator.strength)
                body.source).toList
              body (Reader.BeginsIn Terminal.behindItem) :=
          reads_enclosed inside legible smallBody (fun item => item)
            fun bare =>
              readItem_source legible (Nat.lt_of_le_of_lt tight bare)
        intro rest _
        have read
            (suffix : Char)
            (isSuffix : suffix ∈ Terminal.behindItem) :=
          bodyRead (suffix :: rest)
            (Reader.beginsIn_iff.mpr
              (.inr ⟨suffix, isSuffix, rest, rfl⟩))
        cases operator with
        | andPredicate | notPredicate =>
            simp [strength, Operator.strength] at tight
        | oneOrMore =>
            simp [source, Operator.around, readSuffixed,
              read '+' (by decide), oneOrMore]
        | zeroOrMore =>
            simp [source, Operator.around, readSuffixed,
              read '*' (by decide), zeroOrMore]
        | optional =>
            simp [source, Operator.around, readSuffixed,
              read '?' (by decide), optional]

omit inside in
/-- What is read without a predicate does not begin with one. -/
theorem readPrefixed_of_readSuffixed
    {shown : List Char}
    {value : Expr}
    (suffixed :
      (readSuffixed inner).Reads shown value
        (Reader.BeginsIn behindPart)) :
    (readPrefixed inner).Reads shown value
      (Reader.BeginsIn behindPart) := by
  intro rest behind
  have read := suffixed rest behind
  unfold readPrefixed
  split
  case h_1 begins =>
    rw [begins] at read
    cases read
  case h_2 begins =>
    rw [begins] at read
    cases read
  case h_3 =>
    exact read

/-- Predicates, iterations and items are read back. -/
theorem readPrefixed_source
    (legible : expression.Legible)
    (small : sizeOf expression ≤ size)
    (tight : 3 ≤ expression.strength) :
    (readPrefixed inner).Reads expression.source.toList expression
      (Reader.BeginsIn behindPart) := by
  by_cases tighter : 4 ≤ expression.strength
  · exact
      readPrefixed_of_readSuffixed
        (readSuffixed_source inside legible small tighter)
  · cases expression with
    | terminal item =>
        cases item with
        | endOfInput =>
            intro rest behind
            have anyRead :
                readSuffixed inner ('_' :: rest) = some (anyChar, rest) :=
              readSuffixed_of_readItem readItem_anyChar rest behind
            simp [source, Terminal.source, readPrefixed, anyRead, anyChar,
              notFollowedBy, endOfInput]
        | _ =>
            simp [strength] at tighter
    | reference target =>
        simp [strength] at tighter
    | group grouping parts =>
        cases grouping <;> simp [strength, Grouping.strength] at tight
    | unary operator body =>
        cases legible with
        | unary notEnd legible =>
          have smallBody : sizeOf body < size := by
            rw [unary.sizeOf_spec] at small
            lia
          have bodyRead :
              (readSuffixed inner).Reads
                (enclosed (body.strength ≤ operator.strength)
                  body.source).toList
                body (Reader.BeginsIn behindPart) :=
            reads_enclosed inside legible smallBody
              readSuffixed_of_readItem fun bare =>
                readSuffixed_source inside legible (Nat.le_of_lt smallBody)
                  (Nat.lt_of_le_of_lt tight bare)
          intro rest behind
          have read := bodyRead rest behind
          cases operator with
          | oneOrMore | zeroOrMore | optional =>
              simp [strength, Operator.strength] at tighter
          | andPredicate =>
              simp [source, Operator.around, readPrefixed, read, followedBy]
          | notPredicate =>
              simp [source, Operator.around, readPrefixed, read,
                notFollowedBy_of_ne (notEnd rfl)]

/-- Parts of a sequence are read back. -/
theorem readPrefixed_partText
    (legible : expression.Legible)
    (small : sizeOf expression < size) :
    (readPrefixed inner).Reads expression.partText.toList expression
      (Reader.BeginsIn behindPart) := by
  apply reads_enclosed inside legible small
  · exact fun item =>
      readPrefixed_of_readSuffixed (readSuffixed_of_readItem item)
  · intro bare
    exact
      readPrefixed_source inside legible (Nat.le_of_lt small)
        (three_le_strength bare)

omit inside in
/-- Parts that are each read back are read back together. -/
theorem readParts_reads
    {shown : Expr → List Char}
    {parts : List Expr}
    (each :
      ∀ part ∈ parts,
        (readPrefixed inner).Reads (shown part) part
          (Reader.BeginsIn behindPart))
    (somePart : parts ≠ [])
    {fuel : Nat}
    (enough : parts.length ≤ fuel) :
    (readParts inner fuel).Reads ([' '].intercalate (parts.map shown)) parts
      BehindSequence := by
  refine Reader.reads_separated ?_ ?_ ?_ each somePart enough
  · intro later
    exact Reader.beginsIn_iff.mpr (.inr ⟨' ', by decide, later, rfl⟩)
  · rintro rest (whole | ⟨later, rfl⟩)
    · exact whole.mono (by decide)
    · exact
        Reader.beginsIn_iff.mpr (.inr ⟨' ', by decide, '/' :: later, rfl⟩)
  · -- Behind the space of another alternative nothing can be read.
    rintro rest later (whole | ⟨others, rfl⟩) stripped
    · cases Terminal.stripFront_eq_some_iff.mp stripped
      exact absurd (whole ' ' rfl) (by decide)
    · cases Terminal.stripFront_eq_some_iff.mp stripped
      rfl

omit inside in
/-- A single part is read as a sequence. -/
theorem readSequence_of_readPrefixed
    {shown : List Char}
    {value : Expr}
    (part :
      (readPrefixed inner).Reads shown value (Reader.BeginsIn behindPart))
    {fuel : Nat}
    (enough : 0 < fuel) :
    (readSequence inner fuel).Reads shown value BehindSequence := by
  intro rest behind
  have single :
      (readParts inner fuel).Reads
        ([' '].intercalate ([value].map fun _ => shown)) [value]
        BehindSequence :=
    readParts_reads (by simpa using part) (List.cons_ne_nil _ _) enough
  rw [List.map_singleton, List.intercalate_singleton] at single
  rw [readSequence, single rest behind]
  rfl

/-- Sequences and all that binds more tightly are read back. -/
theorem readSequence_source
    (legible : expression.Legible)
    (small : sizeOf expression ≤ size)
    {fuel : Nat}
    (enough : size ≤ fuel)
    (tight : 1 ≤ expression.strength) :
    (readSequence inner fuel).Reads expression.source.toList expression
      BehindSequence := by
  by_cases tighter : 1 < expression.strength
  · have positive : 0 < sizeOf expression := by
      cases expression <;> simp +arith
    exact
      readSequence_of_readPrefixed
        (readPrefixed_source inside legible small
          (three_le_strength tighter))
        (Nat.lt_of_lt_of_le positive (Nat.le_trans small enough))
  · cases expression with
    | terminal item =>
        cases item <;> simp [strength] at tighter
    | reference target =>
        simp [strength] at tighter
    | unary operator body =>
        cases operator <;> simp [strength, Operator.strength] at tighter
    | group grouping parts =>
        cases legible with
        | group two each =>
          cases grouping with
          | choice =>
              simp [strength, Grouping.strength] at tight
          | sequence =>
              obtain ⟨smaller, fewer⟩ := parts_lt_sizeOf small
              have partsRead :=
                readParts_reads
                  (fun part isPart =>
                    readPrefixed_partText inside (each part isPart)
                      (smaller part isPart))
                  (List.ne_nil_of_length_pos (Nat.lt_of_succ_lt two))
                  (Nat.le_trans (Nat.le_of_lt fewer) enough)
              have shown :
                  (group .sequence parts).source.toList =
                    [' '].intercalate
                      (parts.map fun part => part.partText.toList) :=
                toList_source_group .sequence parts
              intro rest behind
              rw [shown, readSequence, partsRead rest behind,
                Option.map_some, sequence, grouped_of_two _ two]

omit inside in
/-- Alternatives that are each read back are read back together. -/
theorem readChoice_reads
    {shown : Expr → List Char}
    {parts : List Expr}
    {fuel : Nat}
    (each :
      ∀ part ∈ parts,
        (readSequence inner fuel).Reads (shown part) part BehindSequence)
    (somePart : parts ≠ [])
    (enough : parts.length ≤ fuel) :
    (readChoice inner fuel).Reads
      ([' ', '/', ' '].intercalate (parts.map shown)) (choice parts)
      (Reader.BeginsIn behindWhole) := by
  have partsRead :
      (Reader.separated [' ', '/', ' '] (readSequence inner fuel)
          fuel).Reads
        ([' ', '/', ' '].intercalate (parts.map shown)) parts
        (Reader.BeginsIn behindWhole) := by
    refine Reader.reads_separated ?_ Or.inl ?_ each somePart enough
    · exact fun later => .inr ⟨' ' :: later, rfl⟩
    · intro rest later whole stripped
      cases Terminal.stripFront_eq_some_iff.mp stripped
      exact absurd (whole ' ' rfl) (by decide)
  intro rest behind
  rw [readChoice, partsRead rest behind]
  rfl

/-- Choices are read back. -/
theorem readChoice_group
    {parts : List Expr}
    (two : 2 ≤ parts.length)
    (each : ∀ part ∈ parts, Legible part)
    (small : sizeOf (group .choice parts) ≤ size)
    {fuel : Nat}
    (enough : size ≤ fuel) :
    (readChoice inner fuel).Reads (group .choice parts).source.toList
      (group .choice parts) (Reader.BeginsIn behindWhole) := by
  obtain ⟨smaller, fewer⟩ := parts_lt_sizeOf small
  have positive : 0 < fuel :=
    Nat.lt_of_lt_of_le (Nat.zero_lt_of_lt fewer) enough
  have partRead :
      ∀ part ∈ parts,
        (readSequence inner fuel).Reads
          (enclosed (part.strength ≤ Grouping.choice.strength)
            part.source).toList
          part BehindSequence := by
    intro part isPart
    refine reads_enclosed inside (each part isPart) (smaller part isPart) ?_ ?_
    · exact fun item =>
        readSequence_of_readPrefixed
          (readPrefixed_of_readSuffixed (readSuffixed_of_readItem item))
          positive
    · exact
        readSequence_source inside (each part isPart)
          (Nat.le_of_lt (smaller part isPart)) enough
  have partsRead :=
    readChoice_reads partRead
      (List.ne_nil_of_length_pos (Nat.lt_of_succ_lt two))
      (Nat.le_trans (Nat.le_of_lt fewer) enough)
  rw [choice, grouped_of_two _ two] at partsRead
  rw [toList_source_group]
  exact partsRead

/-- All expressions are read back. -/
theorem readChoice_source
    (legible : expression.Legible)
    (small : sizeOf expression ≤ size)
    {fuel : Nat}
    (enough : size ≤ fuel) :
    (readChoice inner fuel).Reads expression.source.toList expression
      (Reader.BeginsIn behindWhole) := by
  by_cases tight : 1 ≤ expression.strength
  · have positive : 0 < sizeOf expression := by
      cases expression <;> simp +arith
    have single :
        (readChoice inner fuel).Reads
          ([' ', '/', ' '].intercalate
            ([expression].map fun _ => expression.source.toList))
          (choice [expression]) (Reader.BeginsIn behindWhole) := by
      apply readChoice_reads
      · simpa using readSequence_source inside legible small enough tight
      · exact List.cons_ne_nil _ _
      · exact
          Nat.lt_of_lt_of_le positive (Nat.le_trans small enough)
    rw [List.map_singleton, List.intercalate_singleton] at single
    exact single
  · cases expression with
    | terminal item =>
        cases item <;> simp [strength] at tight
    | reference target =>
        simp [strength] at tight
    | unary operator body =>
        cases operator <;> simp [strength, Operator.strength] at tight
    | group grouping parts =>
        cases legible with
        | group two each =>
          cases grouping with
          | sequence =>
              simp [strength, Grouping.strength] at tight
          | choice =>
              exact readChoice_group inside two each small enough

end Items

/-- Whatever is no larger than the depth is read back inside parentheses. -/
theorem readsInside_readWithin
    (depth : Nat) :
    ReadsInside (readWithin depth) (depth + 1) := by
  induction depth with
  | zero =>
      intro expression _ small
      cases expression <;> simp at small
  | succ depth inductionHypothesis =>
      intro expression legible small rest
      exact
        readChoice_source inductionHypothesis legible
          (Nat.le_of_lt_succ small) (Nat.le_refl _) _
          (Reader.beginsIn_iff.mpr (.inr ⟨')', by decide, rest, rfl⟩))

/-- A legible expression is read back from its text. -/
theorem readWithin_source
    {expression : Expr}
    (legible : expression.Legible)
    {depth : Nat}
    (small : sizeOf expression ≤ depth) :
    (readWithin depth).Reads expression.source.toList expression
      (Reader.BeginsIn behindWhole) := by
  cases depth with
  | zero =>
      cases expression <;> simp at small
  | succ depth =>
      exact
        readChoice_source (readsInside_readWithin depth) legible small
          (Nat.le_refl _)

end Expr

end PegAudit
