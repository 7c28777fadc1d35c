import PegAudit.Grammar.Defect
import PegAudit.Proofs.Attrs.Soundness
import PegAudit.Proofs.Terminal.Disjoint

namespace PegAudit

/-!
# Terminals that are not disjoint start a common input

Conversely to what disjoint terminals never do, two terminals without defects
that the table does not call disjoint match the start of one input.  Only
negated classes that together leave no character over are an exception: the
table does not notice that they are empty.
-/

namespace Terminal

/-- The terminal matches a beginning of the input, perhaps an empty one. -/
def Matches
    (item : Terminal)
    (input : List Char) :
    Prop :=
  ∃ rest, item.remainder? input = some rest

/-- The character is listed in a negated class. -/
def Excludes :
    Terminal →
    Char →
    Prop
  | .charClass members true, character => character ∈ members.toList
  | _, _ => False

/-- What a range accepts. -/
theorem accepts_range
    (low high character : Char) :
    (range low high).accepts character =
      (low ≤ character && character ≤ high) :=
  rfl

/-- What a class accepts. -/
theorem accepts_charClass
    (members : String)
    (negated : Bool)
    (character : Char) :
    (charClass members negated).accepts character =
      (members.toList.contains character != negated) :=
  rfl

/-- The terminal reads one character and nothing else. -/
def readsCharacter :
    Terminal →
    Bool
  | .literal _ => false
  | .range _ _ => true
  | .charClass _ _ => true
  | .anyChar => true
  | .endOfInput => false

/-- The text of a literal without defects has a first character. -/
theorem exists_toList_of_defects
    {text name : String}
    (clean : (Terminal.literal text).defects name = []) :
    ∃ first later, text.toList = first :: later := by
  apply List.exists_cons_of_ne_nil
  intro noText
  have isEmpty : text = "" := String.toList_eq_nil_iff.mp noText
  rw [isEmpty] at clean
  cases clean

section Matches

variable
  {item : Terminal}
  {name : String}
  {input : List Char}

/-- A literal matches the inputs that begin with its text. -/
theorem matches_literal_iff
    {text : String} :
    (Terminal.literal text).Matches input ↔ text.toList <+: input := by
  refine exists_congr fun rest => ?_
  rw [remainder?, stripFront_eq_some_iff, eq_comm]

/-- The end of the input matches the input that has ended. -/
theorem matches_endOfInput_iff :
    Terminal.endOfInput.Matches input ↔ input = [] := by
  cases input with
  | nil =>
      exact ⟨fun _ => rfl, fun _ => ⟨[], rfl⟩⟩
  | cons character others =>
      simp [Matches, remainder?]

/-- What reads a character matches the inputs whose first character it accepts. -/
theorem matches_cons_iff
    (reads : item.readsCharacter = true)
    {character : Char} :
    item.Matches (character :: input) ↔ item.accepts character = true := by
  cases item with
  | literal text =>
      cases reads
  | endOfInput =>
      cases reads
  | _ =>
      simp [Matches, remainder?]

/-- A match of anything but the end of the input consumes. -/
theorem Matches.consumes
    (clean : item.defects name = [])
    (notEnd : item ≠ .endOfInput)
    (isMatch : item.Matches input) :
    item.Consumes input := by
  obtain ⟨rest, matched⟩ := isMatch
  have hasText : item ≠ .literal "" := by
    rintro rfl
    cases clean
  refine ⟨rest, matched, ?_⟩
  rintro rfl
  exact Nat.lt_irrefl _ (remainder?_length_lt notEnd hasText matched)

/-- What matches an input that begins with a character does not exclude it. -/
theorem Matches.not_excludes
    {character : Char}
    (isMatch : item.Matches (character :: input)) :
    ¬ item.Excludes character := by
  intro excluded
  cases item with
  | charClass members negated =>
      cases negated with
      | false =>
          exact excluded
      | true =>
          have accepted := (matches_cons_iff rfl).mp isMatch
          have listed : members.toList.contains character = true :=
            List.contains_iff_mem.mpr excluded
          rw [accepts_charClass, listed] at accepted
          cases accepted
  | _ =>
      exact excluded

end Matches

/-- Disjoint terminals match no common input, unless both are the end of it. -/
theorem not_matches_of_disjoint
    {left right : Terminal}
    {leftName rightName : String}
    (leftClean : left.defects leftName = [])
    (rightClean : right.defects rightName = [])
    (notEnds : ¬ (left = .endOfInput ∧ right = .endOfInput))
    (areDisjoint : left.disjoint right = true)
    (input : List Char) :
    ¬ (left.Matches input ∧ right.Matches input) := by
  rintro ⟨leftMatches, rightMatches⟩
  by_cases leftEnd : left = .endOfInput
  · subst left
    have notEnd : right ≠ .endOfInput :=
      fun rightEnd => notEnds ⟨rfl, rightEnd⟩
    exact (rightMatches.consumes rightClean notEnd).input_ne_nil
      (matches_endOfInput_iff.mp leftMatches)
  · have leftConsumes := leftMatches.consumes leftClean leftEnd
    by_cases rightEnd : right = .endOfInput
    · subst right
      exact leftConsumes.input_ne_nil
        (matches_endOfInput_iff.mp rightMatches)
    · have rightConsumes := rightMatches.consumes rightClean rightEnd
      rw [leftConsumes.disjoint_eq_false rightConsumes] at areDisjoint
      cases areDisjoint

/-- A scan that finds a failure stopped at a scalar value in its range. -/
theorem exists_of_allScalars_eq_false
    {test : Char → Bool}
    {count code : Nat}
    (stopped : allScalars test count code = false) :
    ∃ character : Char,
      code ≤ character.toNat ∧
        character.toNat < code + count ∧
          test character = false := by
  induction count generalizing code with
  | zero =>
      cases stopped
  | succ count inductionHypothesis =>
      rw [allScalars] at stopped
      split at stopped
      case isTrue here =>
        obtain ⟨valid, fails⟩ := Bool.and_eq_true_iff.mp here
        have isCode : (Char.ofNat code).toNat = code := by
          rw [Char.ofNat, dif_pos (of_decide_eq_true valid)]
          rfl
        exact
          ⟨Char.ofNat code, by omega, by omega, by simpa using fails⟩
      case isFalse =>
        obtain ⟨character, lower, upper, fails⟩ :=
          inductionHypothesis stopped
        exact ⟨character, by omega, by omega, fails⟩

/-- Classes that are not disjoint have a common character, if one is left over. -/
theorem exists_of_disjointClasses_eq_false
    {left right : String}
    {leftNegated rightNegated : Bool}
    (free :
      ∃ character,
        ¬ (charClass left leftNegated).Excludes character ∧
          ¬ (charClass right rightNegated).Excludes character)
    (meet :
      disjointClasses left.toList leftNegated right.toList rightNegated =
        false) :
    ∃ character,
      (charClass left leftNegated).accepts character = true ∧
        (charClass right rightNegated).accepts character = true := by
  cases leftNegated <;> cases rightNegated <;>
    simp only [disjointClasses, Bool.not_eq_false', List.any_eq_true,
      List.all_eq_false, List.contains_iff_mem] at meet
  case false.false =>
    obtain ⟨character, inRight, inLeft⟩ := meet
    exact ⟨character, by simpa [accepts_charClass], by simpa [accepts_charClass]⟩
  case false.true =>
    obtain ⟨character, inLeft, notInRight⟩ := meet
    exact ⟨character, by simpa [accepts_charClass], by simpa [accepts_charClass]⟩
  case true.false =>
    obtain ⟨character, inRight, notInLeft⟩ := meet
    exact ⟨character, by simpa [accepts_charClass], by simpa [accepts_charClass]⟩
  case true.true =>
    obtain ⟨character, notInLeft, notInRight⟩ := free
    exact
      ⟨character, by simpa [accepts_charClass, Excludes] using notInLeft,
        by simpa [accepts_charClass, Excludes] using notInRight⟩

/-- A class and a range that are not disjoint have a common character. -/
theorem exists_of_disjointClassRange_eq_false
    {members : String}
    {negated : Bool}
    {low high : Char}
    (meet : disjointClassRange members.toList negated low high = false) :
    ∃ character,
      (charClass members negated).accepts character = true ∧
        (range low high).accepts character = true := by
  cases negated with
  | false =>
      simp only [disjointClassRange, Bool.false_eq_true, if_false,
        Bool.not_eq_false', List.any_eq_true] at meet
      obtain ⟨character, listed, inRange⟩ := meet
      exact ⟨character, by simpa [accepts_charClass], inRange⟩
  | true =>
      simp only [disjointClassRange, if_true, coversRange] at meet
      obtain ⟨character, lower, upper, notListed⟩ :=
        exists_of_allScalars_eq_false meet
      have fromLow : low ≤ character := lower
      have toHigh : character ≤ high := by
        have below : character.toNat ≤ high.toNat := by omega
        exact below
      exact
        ⟨character, by simpa [accepts_charClass] using notListed,
          by simp [accepts_range, fromLow, toHigh]⟩

/-- A range without defects includes its ends. -/
theorem accepts_range_ends
    {low high : Char}
    {name : String}
    (clean : (range low high).defects name = []) :
    (range low high).accepts low = true ∧
      (range low high).accepts high = true := by
  have upright : low ≤ high := by
    apply Char.not_lt.mp
    intro inverted
    rw [defects, if_pos inverted] at clean
    cases clean
  simp [accepts_range, upright]

/-- Ranges that are not disjoint include the greater of their lower ends. -/
theorem exists_accepts_ranges
    {low high otherLow otherHigh : Char}
    {name otherName : String}
    (clean : (range low high).defects name = [])
    (otherClean : (range otherLow otherHigh).defects otherName = [])
    (meet : (range low high).disjoint (range otherLow otherHigh) = false) :
    ∃ character,
      (range low high).accepts character = true ∧
        (range otherLow otherHigh).accepts character = true := by
  obtain ⟨notBelow, notAbove⟩ := Bool.or_eq_false_iff.mp meet
  have otherReaches : otherLow ≤ high :=
    Char.not_lt.mp (of_decide_eq_false notBelow)
  have reaches : low ≤ otherHigh :=
    Char.not_lt.mp (of_decide_eq_false notAbove)
  rcases Char.le_total low otherLow with below | above
  · exact
      ⟨otherLow, by simp [accepts_range, below, otherReaches],
        (accepts_range_ends otherClean).1⟩
  · exact
      ⟨low, (accepts_range_ends clean).1,
        by simp [accepts_range, above, reaches]⟩

/-- What reads a character accepts one, if it does not exclude them all. -/
theorem exists_accepts
    {item : Terminal}
    {name : String}
    (clean : item.defects name = [])
    (reads : item.readsCharacter = true)
    (free : ∃ character, ¬ item.Excludes character) :
    ∃ character, item.accepts character = true := by
  cases item with
  | literal text =>
      cases reads
  | endOfInput =>
      cases reads
  | anyChar =>
      exact ⟨'a', rfl⟩
  | range low high =>
      exact ⟨low, (accepts_range_ends clean).1⟩
  | charClass members negated =>
      cases negated with
      | true =>
          obtain ⟨character, notListed⟩ := free
          exact ⟨character, by simpa [accepts_charClass, Excludes] using notListed⟩
      | false =>
          have nonempty : members.toList ≠ [] := by
            intro noMembers
            rw [String.toList_eq_nil_iff.mp noMembers] at clean
            cases clean
          obtain ⟨first, listed⟩ := List.exists_mem_of_ne_nil _ nonempty
          exact ⟨first, by simpa [accepts_charClass]⟩

/-- A literal that is not disjoint from another terminal begins a common input. -/
theorem exists_matches_literal
    {text name : String}
    {other : Terminal}
    (clean : (literal text).defects name = [])
    (meet : (literal text).disjoint other = false) :
    ∃ input, (literal text).Matches input ∧ other.Matches input := by
  obtain ⟨first, later, shape⟩ := exists_toList_of_defects clean
  have own : (literal text).Matches text.toList :=
    matches_literal_iff.mpr List.prefix_rfl
  -- Whatever reads a character accepts the first one of the text.
  have ofReader
      (reads : other.readsCharacter = true)
      (accepted : other.accepts first = true) :
      ∃ input,
        (literal text).Matches input ∧ other.Matches input := by
    refine ⟨text.toList, own, ?_⟩
    rw [shape]
    exact (matches_cons_iff reads).mpr accepted
  cases other with
  | literal otherText =>
      have meeting : overlapping text.toList otherText.toList = true := by
        simpa [disjoint] using meet
      rcases Bool.or_eq_true_iff.mp meeting with shorter | longer
      · exact
          ⟨otherText.toList,
            matches_literal_iff.mpr (List.isPrefixOf_iff_prefix.mp shorter),
            matches_literal_iff.mpr List.prefix_rfl⟩
      · exact
          ⟨text.toList, own,
            matches_literal_iff.mpr (List.isPrefixOf_iff_prefix.mp longer)⟩
  | endOfInput =>
      cases meet
  | anyChar =>
      exact ofReader rfl rfl
  | range low high =>
      exact ofReader rfl (by simpa [disjoint, rejectsFirst, shape] using meet)
  | charClass members negated =>
      exact ofReader rfl (by simpa [disjoint, rejectsFirst, shape] using meet)

section Common

variable
  {left right : Terminal}
  {leftName rightName : String}
  (leftClean : left.defects leftName = [])
  (rightClean : right.defects rightName = [])
  (free :
    ∃ character,
      ¬ left.Excludes character ∧ ¬ right.Excludes character)
  (meet : left.disjoint right = false)

include leftClean rightClean free meet

/-- Terminals that read a character and are not disjoint accept a common one. -/
theorem exists_accepts_both
    (leftReads : left.readsCharacter = true)
    (rightReads : right.readsCharacter = true) :
    ∃ character,
      left.accepts character = true ∧ right.accepts character = true := by
  obtain ⟨unlisted, leftFree, rightFree⟩ := free
  have ofLeft := exists_accepts leftClean leftReads ⟨unlisted, leftFree⟩
  have ofRight :=
    exists_accepts rightClean rightReads ⟨unlisted, rightFree⟩
  cases left with
  | literal text =>
      cases leftReads
  | endOfInput =>
      cases leftReads
  | anyChar =>
      obtain ⟨character, accepted⟩ := ofRight
      exact ⟨character, rfl, accepted⟩
  | range low high =>
      cases right with
      | literal text =>
          cases rightReads
      | endOfInput =>
          cases rightReads
      | anyChar =>
          obtain ⟨character, accepted⟩ := ofLeft
          exact ⟨character, accepted, rfl⟩
      | range otherLow otherHigh =>
          exact exists_accepts_ranges leftClean rightClean meet
      | charClass members negated =>
          obtain ⟨character, inClass, inRange⟩ :=
            exists_of_disjointClassRange_eq_false meet
          exact ⟨character, inRange, inClass⟩
  | charClass members negated =>
      cases right with
      | literal text =>
          cases rightReads
      | endOfInput =>
          cases rightReads
      | anyChar =>
          obtain ⟨character, accepted⟩ := ofLeft
          exact ⟨character, accepted, rfl⟩
      | range low high =>
          exact exists_of_disjointClassRange_eq_false meet
      | charClass otherMembers otherNegated =>
          exact
            exists_of_disjointClasses_eq_false
              ⟨unlisted, leftFree, rightFree⟩ meet

/-- Terminals that are not disjoint match a common input. -/
theorem exists_matches_both :
    ∃ input, left.Matches input ∧ right.Matches input := by
  by_cases leftReads : left.readsCharacter = true
  case neg =>
    cases left with
    | literal text =>
        exact exists_matches_literal leftClean meet
    | endOfInput =>
        cases meet
    | _ =>
        exact (leftReads rfl).elim
  by_cases rightReads : right.readsCharacter = true
  case neg =>
    rw [disjoint_comm] at meet
    cases right with
    | literal text =>
        obtain ⟨input, rightMatches, leftMatches⟩ :=
          exists_matches_literal rightClean meet
        exact ⟨input, leftMatches, rightMatches⟩
    | endOfInput =>
        cases meet
    | _ =>
        exact (rightReads rfl).elim
  obtain ⟨character, leftAccepts, rightAccepts⟩ :=
    exists_accepts_both leftClean rightClean free meet leftReads rightReads
  exact
    ⟨[character], (matches_cons_iff leftReads).mpr leftAccepts,
      (matches_cons_iff rightReads).mpr rightAccepts⟩

end Common

/--
Terminals that are not disjoint match a common input exactly if some character
is in no list of a negated class among them.
-/
theorem exists_matches_both_iff
    {left right : Terminal}
    {leftName rightName : String}
    (leftClean : left.defects leftName = [])
    (rightClean : right.defects rightName = [])
    (meet : left.disjoint right = false) :
    (∃ input, left.Matches input ∧ right.Matches input) ↔
      ∃ character,
        ¬ left.Excludes character ∧ ¬ right.Excludes character := by
  constructor
  · rintro ⟨input, leftMatches, rightMatches⟩
    have notEnd : left ≠ .endOfInput := by
      rintro rfl
      cases meet
    have consumes := leftMatches.consumes leftClean notEnd
    obtain ⟨character, others, rfl⟩ :=
      List.exists_cons_of_ne_nil consumes.input_ne_nil
    exact
      ⟨character, leftMatches.not_excludes, rightMatches.not_excludes⟩
  · exact fun free => exists_matches_both leftClean rightClean free meet

end Terminal

end PegAudit
