import Mathlib.Data.List.Infix
import PegAudit.Terminal.Disjoint

namespace PegAudit

/-!
# Disjoint terminals never start one input

A terminal that consumes is either a literal that the input begins with or
accepts the first character.  Wherever two terminals consume on one input, each
entry of the table of disjoint terminals answers no.
-/

namespace Terminal

/-- The terminal matches a beginning of the input that is not empty. -/
def Consumes
    (item : Terminal)
    (input : List Char) :
    Prop :=
  ∃ rest, item.remainder? input = some rest ∧ rest ≠ input

/-- A terminal that consumes matches its text or accepts the first character. -/
theorem Consumes.literal_or_accepts
    {item : Terminal}
    {input : List Char}
    (consumes : item.Consumes input) :
    ∃ character others,
      input = character :: others ∧
        (item.accepts character = true ∨
          ∃ text later,
            item = .literal text ∧
              text.toList = character :: later ∧
              text.toList <+: input) := by
  obtain ⟨rest, matched, moved⟩ := consumes
  cases input with
  | nil =>
      cases item with
      | literal text =>
          have noText := stripFront_eq_some_iff.mp matched
          exact (moved (List.append_eq_nil_iff.mp noText.symm).2).elim
      | endOfInput =>
          cases matched
          exact (moved rfl).elim
      | _ =>
          cases matched
  | cons character others =>
      refine ⟨character, others, rfl, ?_⟩
      cases item with
      | literal text =>
          right
          have starts := stripFront_eq_some_iff.mp matched
          cases shape : text.toList with
          | nil =>
              rw [shape] at starts
              exact (moved starts.symm).elim
          | cons first later =>
              rw [shape] at starts
              cases starts
              exact ⟨text, later, rfl, shape, rest, by rw [shape]; rfl⟩
      | endOfInput =>
          cases matched
      | _ =>
          left
          by_contra rejects
          simp [remainder?, rejects] at matched

/-- Nothing consumes where the input has ended. -/
theorem Consumes.input_ne_nil
    {item : Terminal}
    {input : List Char}
    (consumes : item.Consumes input) :
    input ≠ [] := by
  obtain ⟨character, others, rfl, _⟩ := consumes.literal_or_accepts
  exact List.cons_ne_nil character others

/-- A scan that finds no failure has tested every scalar value in its range. -/
theorem test_of_allScalars
    {test : Char → Bool}
    {count code : Nat}
    (all : allScalars test count code = true)
    {character : Char}
    (fromLow : code ≤ character.toNat)
    (toHigh : character.toNat < code + count) :
    test character = true := by
  induction count generalizing code with
  | zero =>
      omega
  | succ count inductionHypothesis =>
      simp only [allScalars] at all
      split at all
      case isTrue =>
        cases all
      case isFalse passed =>
        by_cases atCode : code = character.toNat
        · subst code
          have valid : character.toNat.isValidChar := character.valid
          rw [Char.ofNat_toNat] at passed
          simpa [valid] using passed
        · exact inductionHypothesis all (by omega) (by omega)

/-- Members that cover a range include each of its characters. -/
theorem contains_of_coversRange
    {members : List Char}
    {low high character : Char}
    (covers : coversRange members low high = true)
    (fromLow : low ≤ character)
    (toHigh : character ≤ high) :
    members.contains character = true := by
  have lower : low.toNat ≤ character.toNat := fromLow
  have upper : character.toNat ≤ high.toNat := toHigh
  exact test_of_allScalars covers lower (by omega)

/-- Two classes with a common character are not disjoint. -/
theorem disjointClasses_eq_false
    {left right : List Char}
    {leftNegated rightNegated : Bool}
    {character : Char}
    (inLeft : (left.contains character != leftNegated) = true)
    (inRight : (right.contains character != rightNegated) = true) :
    disjointClasses left leftNegated right rightNegated = false := by
  cases leftNegated <;> cases rightNegated <;>
    simp only [Bool.bne_false, Bool.bne_true, Bool.not_eq_true',
      disjointClasses, Bool.not_eq_false'] at *
  case false.false =>
    exact List.any_eq_true.mpr
      ⟨character, List.contains_iff_mem.mp inRight, inLeft⟩
  case false.true =>
    exact List.all_eq_false.mpr
      ⟨character, List.contains_iff_mem.mp inLeft,
        Bool.eq_false_iff.mp inRight⟩
  case true.false =>
    exact List.all_eq_false.mpr
      ⟨character, List.contains_iff_mem.mp inRight,
        Bool.eq_false_iff.mp inLeft⟩

/-- A class and a range with a common character are not disjoint. -/
theorem disjointClassRange_eq_false
    {members : List Char}
    {negated : Bool}
    {low high character : Char}
    (inClass : (members.contains character != negated) = true)
    (inRange : (low ≤ character && character ≤ high) = true) :
    disjointClassRange members negated low high = false := by
  have ⟨fromLow, toHigh⟩ := Bool.and_eq_true_iff.mp inRange
  cases negated with
  | false =>
      simp only [disjointClassRange, Bool.false_eq_true, if_false,
        Bool.not_eq_false']
      exact List.any_eq_true.mpr
        ⟨character, List.contains_iff_mem.mp (by simpa using inClass),
          inRange⟩
  | true =>
      simp only [disjointClassRange, if_true]
      apply Bool.eq_false_iff.mpr
      intro covers
      have covered :=
        contains_of_coversRange covers (of_decide_eq_true fromLow)
          (of_decide_eq_true toHigh)
      rw [covered] at inClass
      cases inClass

/-- Two terminals that accept one character are not disjoint. -/
theorem disjoint_eq_false_of_accepts
    {left right : Terminal}
    {character : Char}
    (leftAccepts : left.accepts character = true)
    (rightAccepts : right.accepts character = true) :
    left.disjoint right = false := by
  cases left with
  | literal text =>
      cases leftAccepts
  | endOfInput =>
      cases leftAccepts
  | anyChar =>
      cases right with
      | endOfInput =>
          cases rightAccepts
      | _ =>
          rfl
  | range low high =>
      cases right with
      | literal text =>
          cases rightAccepts
      | endOfInput =>
          cases rightAccepts
      | anyChar =>
          rfl
      | range otherLow otherHigh =>
          have ⟨fromLow, toHigh⟩ := Bool.and_eq_true_iff.mp leftAccepts
          have ⟨fromOther, toOther⟩ :=
            Bool.and_eq_true_iff.mp rightAccepts
          have below : ¬ high < otherLow :=
            Char.not_lt.mpr
              (Char.le_trans (of_decide_eq_true fromOther)
                (of_decide_eq_true toHigh))
          have above : ¬ otherHigh < low :=
            Char.not_lt.mpr
              (Char.le_trans (of_decide_eq_true fromLow)
                (of_decide_eq_true toOther))
          simp only [disjoint, below, above, decide_false, Bool.or_false]
      | charClass members negated =>
          exact disjointClassRange_eq_false rightAccepts leftAccepts
  | charClass members negated =>
      cases right with
      | literal text =>
          cases rightAccepts
      | endOfInput =>
          cases rightAccepts
      | anyChar =>
          rfl
      | range low high =>
          exact disjointClassRange_eq_false leftAccepts rightAccepts
      | charClass otherMembers otherNegated =>
          exact disjointClasses_eq_false leftAccepts rightAccepts

/-- A terminal that accepts the first character does not reject the text. -/
theorem rejectsFirst_eq_false
    {acceptor : Terminal}
    {text : String}
    {character : Char}
    {later : List Char}
    (shape : text.toList = character :: later)
    (accepted : acceptor.accepts character = true) :
    acceptor.rejectsFirst text = false := by
  simp [rejectsFirst, shape, accepted]

/-- A literal is not disjoint from what accepts its first character. -/
theorem disjoint_literal_eq_false
    {acceptor : Terminal}
    {text : String}
    {character : Char}
    {later : List Char}
    (shape : text.toList = character :: later)
    (accepted : acceptor.accepts character = true) :
    (Terminal.literal text).disjoint acceptor = false ∧
      acceptor.disjoint (.literal text) = false := by
  have notRejected := rejectsFirst_eq_false shape accepted
  cases acceptor with
  | literal other =>
      cases accepted
  | endOfInput =>
      cases accepted
  | anyChar =>
      exact ⟨rfl, rfl⟩
  | range low high =>
      exact ⟨notRejected, notRejected⟩
  | charClass members negated =>
      exact ⟨notRejected, notRejected⟩

/-- Two terminals that consume on one input are not disjoint. -/
theorem Consumes.disjoint_eq_false
    {left right : Terminal}
    {input : List Char}
    (leftConsumes : left.Consumes input)
    (rightConsumes : right.Consumes input) :
    left.disjoint right = false := by
  obtain ⟨character, others, rfl, leftReads⟩ :=
    leftConsumes.literal_or_accepts
  obtain ⟨_, _, sameInput, rightReads⟩ :=
    rightConsumes.literal_or_accepts
  cases sameInput
  rcases leftReads with leftAccepts | ⟨text, later, rfl, shape, starts⟩
  · rcases rightReads with rightAccepts | ⟨text, later, rfl, shape, _⟩
    · exact disjoint_eq_false_of_accepts leftAccepts rightAccepts
    · exact (disjoint_literal_eq_false shape leftAccepts).2
  · rcases rightReads with rightAccepts | ⟨other, _, rfl, _, otherStarts⟩
    · exact (disjoint_literal_eq_false shape rightAccepts).1
    · have overlap : overlapping text.toList other.toList = true := by
        simp only [overlapping, Bool.or_eq_true,
          List.isPrefixOf_iff_prefix]
        exact List.prefix_or_prefix_of_prefix starts otherStarts
      simp only [disjoint, overlap, Bool.not_true]

/-- Whether classes are disjoint does not depend on their order. -/
theorem disjointClasses_comm
    (left : List Char)
    (leftNegated : Bool)
    (right : List Char)
    (rightNegated : Bool) :
    disjointClasses left leftNegated right rightNegated =
      disjointClasses right rightNegated left leftNegated := by
  cases leftNegated <;> cases rightNegated
  case false.false =>
    rw [disjointClasses, disjointClasses, Bool.eq_iff_iff]
    simp only [Bool.not_eq_true', List.any_eq_false, List.contains_iff_mem]
    exact
      ⟨fun none other inLeft inRight => none other inRight inLeft,
        fun none other inRight inLeft => none other inLeft inRight⟩
  all_goals
    rfl

/-- Whether terminals are disjoint does not depend on their order. -/
theorem disjoint_comm
    (left right : Terminal) :
    left.disjoint right = right.disjoint left := by
  cases left <;> cases right <;>
    simp only [disjoint, overlapping, Bool.or_comm, disjointClasses_comm]

end Terminal

end PegAudit
