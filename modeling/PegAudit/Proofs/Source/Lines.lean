import PegAudit.Proofs.Source.Expressions

namespace PegAudit

/-!
# Lines of expressions

Strands are shown as lines: elements side by side, and perhaps the tail of what
they stand in.  An element that is a sequence is shown without parentheses, so
its parts stand side by side with the other elements, and a line is read back
as these parts, and as a tail if there is one.
-/

section Texts

variable
  {separator : String}
  {before words later : List String}

/-- What is behind the last text is behind all of them. -/
theorem intercalate_append_last
    (before : List String)
    (last behind : String) :
    separator.intercalate (before ++ [last ++ behind]) =
      separator.intercalate (before ++ [last]) ++ behind := by
  by_cases none : before = []
  · simp [none]
  · rw [String.intercalate_append_of_ne_nil none (List.cons_ne_nil _ _),
      String.intercalate_append_of_ne_nil none (List.cons_ne_nil _ _),
      String.intercalate_singleton, String.intercalate_singleton,
      String.append_assoc, String.append_assoc, String.append_assoc]

/-- A text that is made up of words is separated from others as its words are. -/
theorem intercalate_words
    (someWord : words ≠ []) :
    separator.intercalate (before ++ separator.intercalate words :: later) =
      separator.intercalate (before ++ words ++ later) := by
  have behind :
      separator.intercalate (separator.intercalate words :: later) =
        separator.intercalate (words ++ later) := by
    by_cases last : later = []
    · rw [last, String.intercalate_singleton, List.append_nil]
    · rw [String.intercalate_cons_of_ne_nil last,
        String.intercalate_append_of_ne_nil someWord last]
  by_cases first : before = []
  · rw [first, List.nil_append, List.nil_append, behind]
  · rw [List.append_assoc,
      String.intercalate_append_of_ne_nil first (List.cons_ne_nil _ _),
      String.intercalate_append_of_ne_nil first
        (List.append_ne_nil_of_left_ne_nil someWord _),
      behind]

/-- Texts that are each made up of words are separated as all the words are. -/
theorem intercalate_flatMap
    {values : List α}
    {words : α → List String}
    (someWord : ∀ value ∈ values, words value ≠ []) :
    separator.intercalate
        (before ++
          values.map (fun value => separator.intercalate (words value)) ++
          later) =
      separator.intercalate (before ++ values.flatMap words ++ later) := by
  induction values generalizing before with
  | nil =>
      rfl
  | cons value others inductionHypothesis =>
      obtain ⟨here, elsewhere⟩ := List.forall_mem_cons.mp someWord
      rw [List.map_cons, List.flatMap_cons, List.append_assoc,
        List.cons_append, intercalate_words here, ← List.append_assoc,
        inductionHypothesis elsewhere]
      simp only [List.append_assoc]

end Texts

namespace Expr

/-- The expressions that stand side by side where an expression is an element. -/
def sideBySide :
    Expr →
    List Expr
  | .group .sequence parts => parts
  | expression => [expression]

/-- An expression as an element: a choice stands in parentheses. -/
def elementText
    (expression : Expr) :
    String :=
  let isChoice :=
    match expression with
    | .group .choice _ => true
    | _ => false
  enclosed isChoice expression.source

/-- A tail as it is shown behind elements. -/
def tailTexts
    (tail : Option String) :
    List String :=
  tail.toList.map fun name => "Tail(" ++ name ++ ")"

/-- Elements side by side, and the tail behind them if there is one. -/
def lineText
    (elements : List Expr)
    (tail : Option String) :
    String :=
  " ".intercalate (elements.map elementText ++ tailTexts tail)

/-- Side by side there is always something. -/
theorem Legible.sideBySide_ne_nil
    {expression : Expr}
    (legible : expression.Legible) :
    expression.sideBySide ≠ [] := by
  cases legible with
  | terminal legible | reference legible | unary notEnd legible =>
      exact List.cons_ne_nil _ _
  | @group grouping parts two each =>
      cases grouping with
      | choice =>
          exact List.cons_ne_nil _ _
      | sequence =>
          exact List.ne_nil_of_length_pos (Nat.lt_of_succ_lt two)

/-- What stands side by side in a legible expression is legible. -/
theorem Legible.of_mem_sideBySide
    {expression part : Expr}
    (legible : expression.Legible)
    (isPart : part ∈ expression.sideBySide) :
    part.Legible := by
  unfold sideBySide at isPart
  split at isPart
  case h_1 parts =>
    cases legible with
    | group two each =>
      exact each part isPart
  case h_2 =>
    rwa [List.mem_singleton.mp isPart]

/-- An element is shown as the parts of a sequence that stand side by side. -/
theorem elementText_eq
    (expression : Expr) :
    expression.elementText =
      " ".intercalate (expression.sideBySide.map partText) := by
  cases expression with
  | terminal item =>
      cases item <;> rfl
  | reference target =>
      rfl
  | unary operator body =>
      cases operator <;> rfl
  | group grouping parts =>
      cases grouping with
      | choice =>
          rfl
      | sequence =>
          exact
            congrArg " ".intercalate
              (partSources_eq_map Grouping.sequence.strength parts)

/-- The name that a tail is shown with in front of its parentheses. -/
def tailWord : Expr :=
  .reference "Tail"

/-- What is read of a line: what stands side by side, and the name of a tail. -/
def lineParts
    (elements : List Expr)
    (tail : Option String) :
    List Expr :=
  elements.flatMap sideBySide ++ tail.toList.map fun _ => tailWord

/-- What is behind the parts of a line: the parentheses of a tail. -/
def behindParts
    (tail : Option String) :
    List Char :=
  tail.elim [] fun name => '(' :: (name.toList ++ [')'])

/-- A line is shown as its parts and what is behind them. -/
theorem toList_lineText
    {elements : List Expr}
    (legible : ∀ element ∈ elements, element.Legible)
    (tail : Option String) :
    (lineText elements tail).toList =
      [' '].intercalate
          ((lineParts elements tail).map fun part => part.partText.toList) ++
        behindParts tail := by
  have texts :
      lineText elements tail =
        " ".intercalate
          ((elements.flatMap sideBySide).map partText ++
            tailTexts tail) := by
    have someWord :
        ∀ element ∈ elements, element.sideBySide.map partText ≠ [] :=
      fun element isElement =>
        mt List.map_eq_nil_iff.mp
          (legible element isElement).sideBySide_ne_nil
    rw [lineText, List.map_flatMap, funext elementText_eq,
      ← List.nil_append (elements.map _), intercalate_flatMap someWord,
      List.nil_append]
  have shown
      (parts : List Expr) :
      [' '].intercalate (parts.map fun part => part.partText.toList) =
        (" ".intercalate (parts.map partText)).toList := by
    rw [String.toList_intercalate, List.map_map]
    rfl
  cases tail with
  | none =>
      simp [texts, shown, lineParts, behindParts, tailTexts]
  | some name =>
      have split : "Tail(" ++ name ++ ")" = "Tail" ++ ("(" ++ name ++ ")") := by
        simp [← String.toList_inj]
      have word : tailWord.partText = "Tail" :=
        rfl
      rw [texts, shown, lineParts, tailTexts]
      simp [behindParts, word, split, intercalate_append_last]

/-- Only a line with a tail has something behind its parts, and it says which. -/
theorem behindParts_injective :
    Function.Injective behindParts := by
  intro tail other same
  cases tail with
  | none =>
      cases other with
      | none => rfl
      | some otherName => cases same
  | some name =>
      cases other with
      | none => cases same
      | some otherName =>
          have sameName :=
            List.append_cancel_right (List.cons.inj same).2
          rw [String.toList_inj.mp sameName]

/-- Parts are read back from a line, up to what is behind them. -/
theorem readParts_line
    {elements : List Expr}
    (legible : ∀ element ∈ elements, element.Legible)
    {tail : Option String}
    (somePart : tail = none → elements ≠ [])
    {depth : Nat}
    (deep : sizeOf (lineParts elements tail) ≤ depth) :
    readParts (readWithin depth) depth (lineText elements tail).toList =
      some (lineParts elements tail, behindParts tail) := by
  have partsLegible :
      ∀ part ∈ lineParts elements tail, part.Legible := by
    rw [lineParts, List.forall_mem_append]
    constructor
    · intro part isPart
      obtain ⟨element, isElement, isBeside⟩ := List.mem_flatMap.mp isPart
      exact (legible element isElement).of_mem_sideBySide isBeside
    · intro part isTail
      obtain ⟨_, _, rfl⟩ := List.mem_map.mp isTail
      exact
        .reference
          ⟨by decide, by decide, List.all_eq_true.mp (by decide)⟩
  have notEmpty : lineParts elements tail ≠ [] := by
    cases tail with
    | some name =>
        exact List.append_ne_nil_of_right_ne_nil _ (List.cons_ne_nil _ _)
    | none =>
        obtain ⟨element, others, rfl⟩ :=
          List.exists_cons_of_ne_nil (somePart rfl)
        have here := (legible element List.mem_cons_self).sideBySide_ne_nil
        simp [lineParts, here]
  have behind : BehindSequence (behindParts tail) := by
    apply Or.inl
    cases tail with
    | none => exact Reader.beginsIn_iff.mpr (.inl rfl)
    | some name =>
        exact
          Reader.beginsIn_iff.mpr (.inr ⟨'(', by decide, _, rfl⟩)
  rw [toList_lineText legible]
  refine readParts_reads ?_ notEmpty ?_ _ behind
  · intro part isPart
    have smaller := List.sizeOf_lt_of_mem isPart
    exact
      readPrefixed_partText (readsInside_readWithin depth)
        (partsLegible part isPart)
        (Nat.lt_succ_of_lt (Nat.lt_of_lt_of_le smaller deep))
  · exact Nat.le_trans (Nat.le_of_lt (length_lt_sizeOf _)) deep

/--
Legible lines with the same text have the same expressions side by side, and
the same tail or none.
-/
theorem eq_of_lineText_eq
    {elements others : List Expr}
    {tail otherTail : Option String}
    (legible : ∀ element ∈ elements, element.Legible)
    (otherLegible : ∀ element ∈ others, element.Legible)
    (somePart : tail = none → elements ≠ [])
    (otherSomePart : otherTail = none → others ≠ [])
    (same : lineText elements tail = lineText others otherTail) :
    elements.flatMap sideBySide = others.flatMap sideBySide ∧
      tail = otherTail := by
  have read :=
    readParts_line legible somePart
      (Nat.le_add_right _ (sizeOf (lineParts others otherTail)))
  have otherRead :=
    readParts_line otherLegible otherSomePart
      (Nat.le_add_left _ (sizeOf (lineParts elements tail)))
  rw [same, otherRead] at read
  obtain ⟨sameParts, sameBehind⟩ := Prod.mk.inj (Option.some.inj read)
  cases behindParts_injective sameBehind
  exact ⟨(List.append_cancel_right sameParts).symm, rfl⟩

end Expr

end PegAudit
