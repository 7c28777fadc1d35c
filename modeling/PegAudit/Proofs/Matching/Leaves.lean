import PegAudit.Proofs.Matching.Runs

namespace PegAudit

/-!
# Leaves that consume

The first leaf that consumes anything stands where the input begins, since all
leaves before it match nothing.  What is to the right of a subtree is described
by the leaves after it.
-/

namespace ParseTree

/-- The expression that a tree is a match of. -/
def expression :
    ParseTree ι →
    ι
  | .leaf id _ => id
  | .branch id _ => id

/-- The first of some leaves that consumed anything. -/
def firstConsuming
    (leaves : List (ι × List Char)) :
    Option (ι × List Char) :=
  leaves.find? fun leaf => !leaf.2.isEmpty

@[simp] theorem leavesOf_leaf
    (id : ι)
    (text : List Char) :
    leavesOf [.leaf id text] = [(id, text)] :=
  rfl

@[simp] theorem leavesOf_branch
    (id : ι)
    (parts : List (ParseTree ι)) :
    leavesOf [.branch id parts] = leavesOf parts := by
  simp [leavesOf, leaves]

/-- A single leaf is the first that consumes unless its text is empty. -/
theorem firstConsuming_singleton_eq_some_iff
    {leaf found : ι × List Char} :
    firstConsuming [leaf] = some found ↔ leaf = found ∧ leaf.2 ≠ [] := by
  rw [firstConsuming, List.find?_singleton]
  simp [and_comm]

theorem firstConsuming_append
    (first later : List (ι × List Char)) :
    firstConsuming (first ++ later) =
      (firstConsuming first).or (firstConsuming later) :=
  List.find?_append

/-- No leaf consumed exactly if all texts together are empty. -/
theorem firstConsuming_eq_none_iff
    {leaves : List (ι × List Char)} :
    firstConsuming leaves = none ↔ leaves.flatMap Prod.snd = [] := by
  simp [firstConsuming, List.find?_eq_none, List.flatMap_eq_nil_iff]

/--
A subtree occurs in consecutive trees, with these leaves to the right of it.
-/
inductive Occurs :
    List (ParseTree ι) →
    ParseTree ι →
    List (ι × List Char) →
    Prop
  | here
      {tree : ParseTree ι}
      {rest : List (ParseTree ι)} :
      Occurs (tree :: rest) tree (leavesOf rest)
  | inside
      {owner : ι}
      {parts rest : List (ParseTree ι)}
      {subtree : ParseTree ι}
      {right : List (ι × List Char)}
      (part : Occurs parts subtree right) :
      Occurs (.branch owner parts :: rest) subtree
        (right ++ leavesOf rest)
  | later
      {tree subtree : ParseTree ι}
      {rest : List (ParseTree ι)}
      {right : List (ι × List Char)}
      (inRest : Occurs rest subtree right) :
      Occurs (tree :: rest) subtree right

namespace Occurs

/-- The leaves of the trees are some, those of the subtree, and those to its right. -/
theorem exists_leavesOf_eq
    {trees : List (ParseTree ι)}
    {subtree : ParseTree ι}
    {right : List (ι × List Char)}
    (occurs : Occurs trees subtree right) :
    ∃ left, leavesOf trees = left ++ subtree.leaves ++ right := by
  induction occurs with
  | here =>
      exact ⟨[], rfl⟩
  | @inside owner parts rest subtree right part inductionHypothesis =>
      obtain ⟨left, same⟩ := inductionHypothesis
      exact ⟨left, by simp [leavesOf, leaves, same]⟩
  | @later tree subtree rest right inRest inductionHypothesis =>
      obtain ⟨left, same⟩ := inductionHypothesis
      exact ⟨tree.leaves ++ left, by simp [leavesOf, same]⟩

/-- Nothing occurs in no trees. -/
theorem not_nil
    {subtree : ParseTree ι}
    {right : List (ι × List Char)} :
    ¬ Occurs [] subtree right := by
  intro occurs
  cases occurs

/-- What occurs in trees followed by others occurs before or among the others. -/
theorem of_append
    {first later : List (ParseTree ι)}
    {subtree : ParseTree ι}
    {right : List (ι × List Char)}
    (occurs : Occurs (first ++ later) subtree right) :
    (∃ inner,
        Occurs first subtree inner ∧
          right = inner ++ leavesOf later) ∨
      Occurs later subtree right := by
  induction first generalizing right with
  | nil =>
      exact .inr occurs
  | cons tree rest inductionHypothesis =>
      cases occurs with
      | here =>
          exact .inl ⟨leavesOf rest, .here, leavesOf_append rest later⟩
      | inside part =>
          refine .inl ⟨_, .inside part, ?_⟩
          rw [List.append_assoc]
          exact congrArg _ (leavesOf_append rest later)
      | later inRest =>
          rcases inductionHypothesis inRest with
            ⟨inner, inFirst, same⟩ | inLater
          · exact .inl ⟨inner, .later inFirst, same⟩
          · exact .inr inLater

/-- What occurs in one leaf is the leaf. -/
theorem of_leaf
    {id : ι}
    {text : List Char}
    {subtree : ParseTree ι}
    {right : List (ι × List Char)}
    (occurs : Occurs [.leaf id text] subtree right) :
    subtree = .leaf id text ∧ right = [] := by
  cases occurs with
  | here =>
      exact ⟨rfl, rfl⟩
  | later inRest =>
      exact (not_nil inRest).elim

/-- What occurs in one branch is the branch or occurs in its parts. -/
theorem of_branch
    {owner : ι}
    {parts : List (ParseTree ι)}
    {subtree : ParseTree ι}
    {right : List (ι × List Char)}
    (occurs : Occurs [.branch owner parts] subtree right) :
    (subtree = .branch owner parts ∧ right = []) ∨
      Occurs parts subtree right := by
  cases occurs with
  | here =>
      exact .inl ⟨rfl, rfl⟩
  | inside part =>
      right
      simpa [leavesOf] using part
  | later inRest =>
      exact (not_nil inRest).elim

end Occurs

end ParseTree

namespace Runs

variable
  {view : View ι}
  {attempt : Attempt ι}
  {input rest : List Char}
  {trees : List (ParseTree ι)}

/-- If no leaf consumes then nothing is consumed. -/
theorem rest_eq_of_firstConsuming_eq_none
    (run : Runs view attempt input (.success trees rest))
    (nothing :
      ParseTree.firstConsuming (ParseTree.leavesOf trees) = none) :
    rest = input := by
  have noText : ParseTree.textOf trees = [] :=
    ParseTree.firstConsuming_eq_none_iff.mp nothing
  have split : input = ParseTree.textOf trees ++ rest := run.splits
  rw [split, noText, List.nil_append]

/-- If a leaf consumes then something is consumed. -/
theorem rest_ne_of_firstConsuming
    (run : Runs view attempt input (.success trees rest))
    {leaf : ι × List Char}
    (consuming :
      ParseTree.firstConsuming (ParseTree.leavesOf trees) = some leaf) :
    rest ≠ input := by
  rintro rfl
  have split : rest = ParseTree.textOf trees ++ rest := run.splits
  have noText : ParseTree.textOf trees = [] :=
    List.self_eq_append_left.mp split
  rw [ParseTree.firstConsuming_eq_none_iff.mpr noText] at consuming
  cases consuming

/-- If something is consumed then a leaf consumes. -/
theorem exists_firstConsuming
    (run : Runs view attempt input (.success trees rest))
    (moved : rest ≠ input) :
    ∃ leaf,
      ParseTree.firstConsuming (ParseTree.leavesOf trees) =
        some leaf := by
  apply Option.ne_none_iff_exists'.mp
  intro nothing
  exact moved (run.rest_eq_of_firstConsuming_eq_none nothing)

end Runs

end PegAudit
