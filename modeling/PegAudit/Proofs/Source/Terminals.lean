import PegAudit.Proofs.Source.Reader

namespace PegAudit

/-!
# Reading terminals back

A terminal other than any character and the end of the input begins with a
quote or a bracket, and its text is read back if the closing delimiter does not
occur inside.  A class could be taken for a range: three members, the second of
them a dash, are read as the ends of one.
-/

namespace Terminal

/--
Terminals whose text cannot be taken for that of another expression: no closing
delimiter inside, no backslash that would look like an escape, and no class that
looks like a range.
-/
def Legible :
    Terminal →
    Prop
  | .literal text =>
      Escape.Clear text.toList ∧ '"' ∉ text.toList
  | .charClass members negated =>
      Escape.Clear members.toList ∧ ']' ∉ members.toList ∧
        (negated = false →
          ∀ low high, members.toList ≠ [low, '-', high])
  | .range _ _ =>
      True
  | .anyChar =>
      True
  | .endOfInput =>
      True

/-- Read the text of a literal behind its opening quote. -/
def readLiteral : Reader Terminal := fun input =>
  (Escape.readQuoted '"' input).map fun found =>
    (.literal (String.ofList found.1), found.2)

/-- Read the members of a class behind its opening bracket. -/
def readClass
    (negated : Bool) :
    Reader Terminal := fun input =>
  (Escape.readQuoted ']' input).map fun found =>
    (.charClass (String.ofList found.1) negated, found.2)

/-- Read the ends of a range behind its opening bracket. -/
def readRange : Reader Terminal := fun input => do
  let (low, rest) ← Escape.readOne input
  let rest ← stripFront ['-'] rest
  let (high, rest) ← Escape.readOne rest
  let rest ← stripFront [']'] rest
  return (.range low high, rest)

/-- Read a terminal that begins with a delimiter. -/
def readDelimited : Reader Terminal
  | '"' :: rest => readLiteral rest
  | '[' :: rest =>
      match readRange rest with
      | some found => some found
      | none => readClass false rest
  | '^' :: '[' :: rest => readClass true rest
  | _ => none

/-- What may stand directly behind a single item. -/
def behindItem : List Char :=
  [' ', '(', ')', '+', '*', '?']

/-- A shown text begins with a plain character only if that is its first one. -/
theorem first_eq_of_shown
    {plain next : Char}
    {text rest later : List Char}
    (isPlain : plain ≠ '\\')
    (begins :
      (next :: text).flatMap Escape.character ++ rest = plain :: later) :
    next = plain ∧ later = text.flatMap Escape.character ++ rest := by
  rw [List.flatMap_cons, List.append_assoc] at begins
  rcases Escape.head_character next with ⟨_, shown⟩ | shown
  · rw [shown] at begins
    exact (isPlain (List.cons.inj begins).1.symm).elim
  · rw [shown] at begins
    obtain ⟨same, others⟩ := List.cons.inj begins
    exact ⟨same, others.symm⟩

/-- A range that is read has a dash between its ends and a bracket behind them. -/
theorem exists_ends_of_readRange
    {input : List Char}
    {found : Terminal × List Char}
    (isRange : readRange input = some found) :
    ∃ low high middle later,
      Escape.readOne input = some (low, '-' :: middle) ∧
        Escape.readOne middle = some (high, ']' :: later) := by
  unfold readRange at isRange
  obtain ⟨⟨low, _⟩, lowRead, isRange⟩ :=
    Option.bind_eq_some_iff.mp isRange
  obtain ⟨middle, dash, isRange⟩ := Option.bind_eq_some_iff.mp isRange
  obtain ⟨⟨high, _⟩, highRead, isRange⟩ :=
    Option.bind_eq_some_iff.mp isRange
  obtain ⟨later, bracket, _⟩ := Option.bind_eq_some_iff.mp isRange
  cases stripFront_eq_some_iff.mp dash
  cases stripFront_eq_some_iff.mp bracket
  exact ⟨low, high, middle, later, lowRead, highRead⟩

/-- The members of a legible class are not read as a range. -/
theorem readRange_class
    {members rest : List Char}
    (clear : Escape.Clear members)
    (notInside : ']' ∉ members)
    (notRange : ∀ low high, members ≠ [low, '-', high])
    (behind : Reader.BeginsIn behindItem rest) :
    readRange (members.flatMap Escape.character ++ ']' :: rest) = none := by
  have notBehind
      {first : Char}
      {later : List Char}
      (outside : first ∉ behindItem) :
      rest ≠ first :: later := by
    rintro rfl
    exact outside (behind first rfl)
  have bracketRead :
      Escape.readOne (']' :: rest) = some (']', rest) :=
    Escape.readOne_of_ne (by decide) rest
  by_contra someRange
  obtain ⟨found, isRange⟩ := Option.ne_none_iff_exists'.mp someRange
  obtain ⟨low, high, middle, later, lowRead, highRead⟩ :=
    exists_ends_of_readRange isRange
  -- Too few members, and the ends of a range are looked for behind the class.
  cases members with
  | nil =>
      cases bracketRead.symm.trans lowRead
      exact notBehind (by decide) rfl
  | cons first others =>
      rw [Escape.readOne_shown clear (by decide)] at lowRead
      have dash := (Prod.mk.inj (Option.some.inj lowRead)).2
      cases others with
      | nil =>
          cases dash
      | cons next others =>
          obtain ⟨rfl, rfl⟩ := first_eq_of_shown (by decide) dash
          cases others with
          | nil =>
              cases bracketRead.symm.trans highRead
              exact notBehind (by decide) rfl
          | cons second more =>
              rw [Escape.readOne_shown clear.tail.tail (by decide)]
                at highRead
              have bracket := (Prod.mk.inj (Option.some.inj highRead)).2
              cases more with
              | nil =>
                  exact notRange first second rfl
              | cons final others =>
                  obtain ⟨rfl, _⟩ := first_eq_of_shown (by decide) bracket
                  exact notInside (by simp)

/-- A shown range is read back. -/
theorem readRange_shown
    (low high : Char)
    (rest : List Char) :
    readRange
        (Escape.character low ++
          '-' :: (Escape.character high ++ ']' :: rest)) =
      some (.range low high, rest) := by
  have endRead
      (single : Char)
      {delimiter : Char}
      (notLetter : delimiter ∉ Escape.letters)
      (behind : List Char) :
      Escape.readOne (Escape.character single ++ delimiter :: behind) =
        some (single, delimiter :: behind) := by
    have alone : Escape.Clear [single] := by
      intro letter _ inside
      have short := inside.length_le
      simp at short
    simpa using Escape.readOne_shown alone notLetter behind
  have lowRead :=
    endRead low (by decide : '-' ∉ Escape.letters)
      (Escape.character high ++ ']' :: rest)
  have highRead :=
    endRead high (by decide : ']' ∉ Escape.letters) rest
  simp [readRange, lowRead, highRead, stripFront]

/-- Legible terminals that begin with a delimiter are read back. -/
theorem readDelimited_source
    {item : Terminal}
    (legible : item.Legible)
    (isDelimited : item ≠ .anyChar ∧ item ≠ .endOfInput) :
    Reader.Reads readDelimited item.source.toList item
      (Reader.BeginsIn behindItem) := by
  intro rest behind
  cases item with
  | literal text =>
      obtain ⟨clear, notInside⟩ := legible
      have read :=
        Escape.readQuoted_shown clear notInside (by decide) (by decide) rest
      simp [source, Escape.text, readDelimited, readLiteral, read]
  | range low high =>
      simp [source, Escape.text, readDelimited, readRange_shown]
  | charClass members negated =>
      obtain ⟨clear, notInside, notRange⟩ := legible
      have read :=
        Escape.readQuoted_shown clear notInside (by decide) (by decide) rest
      cases negated with
      | true =>
          simp [source, Escape.text, readDelimited, readClass, read]
      | false =>
          have noRange :=
            readRange_class clear notInside (notRange rfl) behind
          simp [source, Escape.text, readDelimited, readClass, read, noRange]
  | anyChar =>
      exact (isDelimited.1 rfl).elim
  | endOfInput =>
      exact (isDelimited.2 rfl).elim

/-- Those terminals begin with a quote, a bracket or a negated bracket. -/
theorem exists_delimiter
    {item : Terminal}
    (isDelimited : item ≠ .anyChar ∧ item ≠ .endOfInput) :
    ∃ first ∈ ['"', '[', '^'], ∃ others,
      item.source.toList = first :: others := by
  cases item with
  | literal text | range low high =>
      simp [source]
  | charClass members negated =>
      cases negated <;> simp [source]
  | anyChar =>
      exact (isDelimited.1 rfl).elim
  | endOfInput =>
      exact (isDelimited.2 rfl).elim

end Terminal

end PegAudit
