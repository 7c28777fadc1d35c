import Mathlib.Data.List.Infix
import Mathlib.Data.List.Nodup
import PegAudit.Terminal

namespace PegAudit

/-!
# Reading shown text

A reader takes what it knows off the start of a text.  Shown characters are
read one at a time: the shown forms of control characters begin differently, so
a text is read back unless it has a backslash where one of these forms could
begin.
-/

/-- What is read at the start of a text, and the text behind it. -/
abbrev Reader (α : Type) :=
  List Char →
  Option (α × List Char)

namespace Reader

/-- Whatever is behind the shown text, as far as it may be, the value is read. -/
def Reads
    (reader : Reader α)
    (shown : List Char)
    (value : α)
    (behind : List Char → Prop) :
    Prop :=
  ∀ rest,
    behind rest →
    reader (shown ++ rest) = some (value, rest)

/-- The text begins with one of these characters, or there is none. -/
def BeginsIn
    (allowed : List Char)
    (text : List Char) :
    Prop :=
  ∀ first ∈ text.head?, first ∈ allowed

/-- Read as many values as there are, each but the first behind a separator. -/
def separated
    (separator : List Char)
    (reader : Reader α) :
    Nat →
    Reader (List α)
  | 0, _ =>
      none
  | fuel + 1, input =>
      match reader input with
      | none => none
      | some (first, rest) =>
          match
            (Terminal.stripFront separator rest).bind
              (separated separator reader fuel)
          with
          | none => some ([first], rest)
          | some (others, later) => some (first :: others, later)

/--
Values that are each read back are read back together, if what is behind the
last of them does not look like another one.
-/
theorem reads_separated
    {separator : List Char}
    {reader : Reader α}
    {shown : α → List Char}
    {behindEach behind : List Char → Prop}
    (between : ∀ later, behindEach (separator ++ later))
    (last : ∀ {rest}, behind rest → behindEach rest)
    (stops :
      ∀ {rest later},
        behind rest →
        Terminal.stripFront separator rest = some later →
        reader later = none)
    {values : List α}
    (each :
      ∀ value ∈ values, reader.Reads (shown value) value behindEach)
    (someValue : values ≠ [])
    {fuel : Nat}
    (enough : values.length ≤ fuel) :
    Reads (separated separator reader fuel)
      (separator.intercalate (values.map shown)) values behind := by
  induction values generalizing fuel with
  | nil =>
      exact (someValue rfl).elim
  | cons value others inductionHypothesis =>
      intro rest isBehind
      cases fuel with
      | zero =>
          cases enough
      | succ fuel =>
          obtain ⟨first, later⟩ := List.forall_mem_cons.mp each
          cases others with
          | nil =>
              rw [List.map_singleton, List.intercalate_singleton, separated,
                first rest (last isBehind)]
              cases stripped : Terminal.stripFront separator rest with
              | none =>
                  simp [stripped]
              | some later =>
                  have nothing := stops isBehind stripped
                  cases fuel <;>
                    simp [stripped, separated, nothing]
          | cons next others =>
              have onward :=
                inductionHypothesis later (List.cons_ne_nil next others)
                  (Nat.le_of_succ_le_succ enough) rest isBehind
              rw [List.map_cons, List.map_cons, List.intercalate_cons_cons,
                ← List.map_cons, List.append_assoc, List.append_assoc,
                separated, first _ (between _)]
              simp only [Terminal.stripFront_append, Option.bind_some, onward]

end Reader

namespace Escape

/-- The control characters. -/
def controls : List Char :=
  ((List.range 0xa0).map Char.ofNat).filter isControl

/-- The characters that stand behind the backslash of a shown control character. -/
def letters : List Char :=
  ['n', 'r', 't', 'b', 'f', 'u']

/-- All control characters are listed. -/
theorem mem_controls_iff
    {character : Char} :
    character ∈ controls ↔ isControl character = true := by
  rw [controls, List.mem_filter, and_iff_right_iff_imp]
  intro isOne
  have low : character.toNat < 0xa0 := by
    simp only [isControl, Bool.or_eq_true, Bool.and_eq_true,
      decide_eq_true_eq] at isOne
    lia
  exact
    List.mem_map.mpr
      ⟨character.toNat, List.mem_range.mpr low, Char.ofNat_toNat character⟩

/-- Control characters are told apart by their shown forms. -/
theorem character_injOn
    {control other : Char}
    (isOne : isControl control = true)
    (otherIsOne : isControl other = true)
    (same : character control = character other) :
    control = other := by
  -- Numbers are compared faster than texts.
  let code
      (text : List Char) :
      Nat :=
    text.foldl (fun code next => 256 * code + next.toNat) 0
  have distinct :
      (controls.map fun control => code (character control)).Nodup := by
    decide +kernel
  exact
    List.inj_on_of_nodup_map distinct (mem_controls_iff.mpr isOne)
      (mem_controls_iff.mpr otherIsOne) (congrArg code same)

/-- The second character of a shown control character tells how long it is. -/
theorem length_character
    {control : Char}
    (isOne : isControl control = true) :
    (character control).length =
      if (character control)[1]? = some 'u' then 6 else 2 := by
  have all :
      (controls.all fun control =>
        (character control).length =
          if (character control)[1]? = some 'u' then 6 else 2) =
        true := by
    decide +kernel
  simp only [List.all_eq_true, decide_eq_true_eq] at all
  exact all control (mem_controls_iff.mpr isOne)

/-- No shown form of a control character is the beginning of another. -/
theorem eq_of_character_begins
    {control other : Char}
    (isOne : isControl control = true)
    (otherIsOne : isControl other = true)
    (begins : character control <+: character other) :
    control = other := by
  have length := length_character isOne
  have two : 1 < (character control).length := by
    split at length <;> lia
  have sameSecond :
      (character other)[1]? = (character control)[1]? := by
    obtain ⟨rest, shown⟩ := begins
    rw [← shown, List.getElem?_append_left two]
  have sameLength :
      (character control).length = (character other).length := by
    rw [length, length_character otherIsOne, sameSecond]
  exact
    character_injOn isOne otherIsOne (begins.eq_of_length sameLength)

/-- A shown control character begins with a backslash and one of the letters. -/
theorem exists_letter_begins
    {control : Char}
    (isOne : isControl control = true) :
    ∃ letter ∈ letters, ['\\', letter] <+: character control := by
  have all :
      (controls.all fun control => letters.any fun letter =>
        ['\\', letter] <+: character control) =
        true := by
    decide +kernel
  simp only [List.all_eq_true, List.any_eq_true, decide_eq_true_eq] at all
  exact all control (mem_controls_iff.mpr isOne)

/--
Read a shown character: a control character where its shown form stands, and
the first character otherwise.
-/
def readOne : Reader Char := fun input =>
  match
    controls.findSome? fun control =>
      (Terminal.stripFront (character control) input).map fun rest =>
        (control, rest)
  with
  | some found => some found
  | none => input.head?.map fun first => (first, input.tail)

/-- A control character that is found is shown at the start. -/
theorem of_findSome?_controls
    {input rest : List Char}
    {control : Char}
    (found :
      (controls.findSome? fun control =>
        (Terminal.stripFront (character control) input).map fun rest =>
          (control, rest)) =
        some (control, rest)) :
    isControl control = true ∧ input = character control ++ rest := by
  obtain ⟨other, listed, isOther⟩ := List.exists_of_findSome?_eq_some found
  obtain ⟨_, stripped, same⟩ := Option.map_eq_some_iff.mp isOther
  cases same
  exact
    ⟨mem_controls_iff.mp listed, Terminal.stripFront_eq_some_iff.mp stripped⟩

/-- A shown control character is read back. -/
theorem readOne_control
    {control : Char}
    (isOne : isControl control = true)
    (rest : List Char) :
    readOne (character control ++ rest) = some (control, rest) := by
  have someFound :
      (controls.findSome? fun other =>
        (Terminal.stripFront (character other)
          (character control ++ rest)).map fun later =>
            (other, later)).isSome = true := by
    refine
      List.findSome?_isSome_iff.mpr
        ⟨control, mem_controls_iff.mpr isOne, ?_⟩
    rw [Terminal.stripFront_append]
    rfl
  obtain ⟨⟨other, later⟩, found⟩ := Option.isSome_iff_exists.mp someFound
  obtain ⟨otherIsOne, split⟩ := of_findSome?_controls found
  -- Two shown forms at one place: the shorter one begins the longer one.
  have same : control = other := by
    rcases
      List.prefix_or_prefix_of_prefix (List.prefix_append _ rest)
        (split ▸ List.prefix_append _ later) with begins | begins
    · exact eq_of_character_begins isOne otherIsOne begins
    · exact (eq_of_character_begins otherIsOne isOne begins).symm
  subst same
  rw [readOne, found, List.append_cancel_left split]

/-- Where no control character is shown, the first character is read. -/
theorem readOne_cons
    {first : Char}
    {rest : List Char}
    (noEscape :
      ∀ letter ∈ letters, ¬ ['\\', letter] <+: first :: rest) :
    readOne (first :: rest) = some (first, rest) := by
  unfold readOne
  split
  case h_1 found isFound =>
    obtain ⟨isOne, split⟩ := of_findSome?_controls isFound
    obtain ⟨letter, isLetter, begins⟩ := exists_letter_begins isOne
    refine (noEscape letter isLetter ?_).elim
    rw [split]
    exact begins.trans (List.prefix_append _ _)
  case h_2 =>
    rfl

/-- A character other than a backslash shows itself. -/
theorem readOne_of_ne
    {first : Char}
    (plain : first ≠ '\\')
    (rest : List Char) :
    readOne (first :: rest) = some (first, rest) := by
  apply readOne_cons
  rintro letter _ begins
  exact plain (List.cons_prefix_cons.mp begins).1.symm

/-- A text without a backslash before a letter that would make it an escape. -/
def Clear
    (text : List Char) :
    Prop :=
  ∀ letter ∈ letters, ¬ ['\\', letter] <:+: text

/-- A text without backslashes is clear. -/
theorem clear_of_not_mem
    {text : List Char}
    (noBackslash : '\\' ∉ text) :
    Clear text := by
  intro letter _ inside
  exact noBackslash (inside.subset List.mem_cons_self)

/-- What is behind a character of a clear text is clear. -/
theorem Clear.tail
    {first : Char}
    {text : List Char}
    (clear : Clear (first :: text)) :
    Clear text := by
  intro letter isLetter inside
  exact clear letter isLetter (List.infix_cons inside)

/-- A shown character begins with a backslash or is not a control character. -/
theorem head_character
    (shown : Char) :
    (∃ others, character shown = '\\' :: others) ∨
      character shown = [shown] := by
  cases isOne : isControl shown with
  | true =>
      obtain ⟨letter, _, others, begins⟩ := exists_letter_begins isOne
      exact .inl ⟨letter :: others, begins.symm⟩
  | false =>
      exact .inr (character_of_not_isControl isOne)

/-- The first character of a clear text is read from the shown text. -/
theorem readOne_shown
    {first delimiter : Char}
    {text : List Char}
    (clear : Clear (first :: text))
    (notLetter : delimiter ∉ letters)
    (rest : List Char) :
    readOne
        ((first :: text).flatMap character ++ delimiter :: rest) =
      some (first, text.flatMap character ++ delimiter :: rest) := by
  rw [List.flatMap_cons, List.append_assoc]
  cases isOne : isControl first with
  | true =>
      exact readOne_control isOne _
  | false =>
      rw [character_of_not_isControl isOne]
      apply readOne_cons
      -- The letter of an escape would be the delimiter, the next character, or
      -- the backslash that this is shown by.
      intro letter isLetter begins
      obtain ⟨isBackslash, behind⟩ := List.cons_prefix_cons.mp begins
      cases text with
      | nil =>
          have same := (List.cons_prefix_cons.mp behind).1
          exact notLetter (same ▸ isLetter)
      | cons next others =>
          rw [List.flatMap_cons, List.append_assoc] at behind
          rcases head_character next with ⟨_, shown⟩ | shown
          · rw [shown] at behind
            have same := (List.cons_prefix_cons.mp behind).1
            rw [same] at isLetter
            revert isLetter
            decide
          · rw [shown] at behind
            have same := (List.cons_prefix_cons.mp behind).1
            refine clear letter isLetter ⟨[], others, ?_⟩
            rw [isBackslash, same]
            rfl

/-- Read shown characters up to a delimiter. -/
def readUntil
    (delimiter : Char) :
    Nat →
    Reader (List Char)
  | 0, _ =>
      none
  | fuel + 1, input =>
      if input.head? = some delimiter then
        some ([], input.tail)
      else
        match readOne input with
        | none => none
        | some (first, rest) =>
            (readUntil delimiter fuel rest).map fun others =>
              (first :: others.1, others.2)

/-- A clear text without the delimiter is read back. -/
theorem readUntil_shown
    {delimiter : Char}
    {text : List Char}
    (clear : Clear text)
    (notInside : delimiter ∉ text)
    (notLetter : delimiter ∉ letters)
    (notBackslash : delimiter ≠ '\\')
    {fuel : Nat}
    (enough : text.length < fuel)
    (rest : List Char) :
    readUntil delimiter fuel (text.flatMap character ++ delimiter :: rest) =
      some (text, rest) := by
  induction text generalizing fuel with
  | nil =>
      cases fuel with
      | zero =>
          cases enough
      | succ fuel =>
          simp [readUntil]
  | cons first others inductionHypothesis =>
      cases fuel with
      | zero =>
          cases enough
      | succ fuel =>
          obtain ⟨notFirst, notLater⟩ :=
            List.ne_and_not_mem_of_not_mem_cons notInside
          have onward :=
            inductionHypothesis clear.tail notLater
              (Nat.lt_of_succ_lt_succ enough)
          have notHere :
              ((first :: others).flatMap character ++
                  delimiter :: rest).head? ≠
                some delimiter := by
            rw [List.flatMap_cons]
            rcases head_character first with ⟨_, shown⟩ | shown
            · simpa [shown] using notBackslash.symm
            · simpa [shown] using notFirst.symm
          rw [readUntil, if_neg notHere, readOne_shown clear notLetter]
          simp [onward]

/-- A text is no longer than the text it is shown as. -/
theorem length_le_shown
    (text : List Char) :
    text.length ≤ (text.flatMap character).length := by
  induction text with
  | nil =>
      rfl
  | cons first others inductionHypothesis =>
      have shown := List.length_pos_of_ne_nil (character_ne_nil first)
      rw [List.flatMap_cons, List.length_append, List.length_cons]
      lia

/-- Read shown characters up to a delimiter, however many there are. -/
def readQuoted
    (delimiter : Char) :
    Reader (List Char) := fun input =>
  readUntil delimiter input.length input

/-- What is shown in front of a delimiter is read back. -/
theorem readQuoted_shown
    {delimiter : Char}
    {text : List Char}
    (clear : Clear text)
    (notInside : delimiter ∉ text)
    (notLetter : delimiter ∉ letters)
    (notBackslash : delimiter ≠ '\\')
    (rest : List Char) :
    readQuoted delimiter (text.flatMap character ++ delimiter :: rest) =
      some (text, rest) := by
  have enough :
      text.length < (text.flatMap character ++ delimiter :: rest).length := by
    have shown := length_le_shown text
    rw [List.length_append, List.length_cons]
    lia
  exact
    readUntil_shown clear notInside notLetter notBackslash enough rest

end Escape

end PegAudit
