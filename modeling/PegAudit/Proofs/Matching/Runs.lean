import PegAudit.Matching

namespace PegAudit

/-!
# What every run does

A successful run splits its input into the texts of its leaves and the rest.
A run looks only at the nodes that its attempt mentions, directly or through
other nodes, so two views that agree on those have the same runs.
-/

namespace ParseTree

mutual

/-- The leaves of a tree from left to right, each with the text it matched. -/
def leaves :
    ParseTree ι →
    List (ι × List Char)
  | .leaf id text =>
      [(id, text)]
  | .branch _ parts =>
      leavesOf parts

/-- The leaves of consecutive trees. -/
def leavesOf :
    List (ParseTree ι) →
    List (ι × List Char)
  | [] =>
      []
  | tree :: rest =>
      tree.leaves ++ leavesOf rest

end

@[simp] theorem leavesOf_append
    (first later : List (ParseTree ι)) :
    leavesOf (first ++ later) = leavesOf first ++ leavesOf later := by
  induction first with
  | nil =>
      rfl
  | cons tree rest inductionHypothesis =>
      simp [leavesOf, inductionHypothesis]

/-- The text that consecutive trees match. -/
def textOf
    (trees : List (ParseTree ι)) :
    List Char :=
  (leavesOf trees).flatMap Prod.snd

@[simp] theorem textOf_nil :
    textOf ([] : List (ParseTree ι)) = [] :=
  rfl

@[simp] theorem textOf_append
    (first later : List (ParseTree ι)) :
    textOf (first ++ later) = textOf first ++ textOf later := by
  simp [textOf]

@[simp] theorem textOf_leaf
    (id : ι)
    (text : List Char) :
    textOf [.leaf id text] = text := by
  simp [textOf, leavesOf, leaves]

@[simp] theorem textOf_branch
    (id : ι)
    (parts : List (ParseTree ι)) :
    textOf [.branch id parts] = textOf parts := by
  simp [textOf, leavesOf, leaves]

end ParseTree

/-- A success matches what stands before its rest. -/
def Outcome.Splits
    (input : List Char) :
    Outcome ι →
    Prop
  | .success trees rest =>
      input = ParseTree.textOf trees ++ rest
  | .failure =>
      True

/-- The nodes an attempt may look at first. -/
def Attempt.nodes :
    Attempt ι →
    List ι
  | .node id => [id]
  | .anyOf alternatives => alternatives
  | .inTurn elements => elements
  | .rounds body => [body]

namespace Runs

/-- Every success splits its input into the matched text and the rest. -/
theorem splits
    {view : View ι}
    {attempt : Attempt ι}
    {input : List Char}
    {outcome : Outcome ι}
    (run : Runs view attempt input outcome) :
    outcome.Splits input := by
  induction run with
  | terminal shape matched consumed =>
      simpa [Outcome.Splits] using consumed
  | _ =>
      simp_all [Outcome.Splits]

/-- The rest of a success is an end of the input. -/
theorem rest_suffix
    {view : View ι}
    {attempt : Attempt ι}
    {input rest : List Char}
    {trees : List (ParseTree ι)}
    (run : Runs view attempt input (.success trees rest)) :
    rest <:+ input :=
  ⟨ParseTree.textOf trees, run.splits.symm⟩

/-- A success that moved leaves less than the input. -/
theorem length_lt
    {view : View ι}
    {attempt : Attempt ι}
    {input rest : List Char}
    {trees : List (ParseTree ι)}
    (run : Runs view attempt input (.success trees rest))
    (moved : rest ≠ input) :
    rest.length < input.length := by
  apply Nat.lt_of_le_of_ne run.rest_suffix.length_le
  intro sameLength
  exact moved (run.rest_suffix.eq_of_length sameLength)

/-- Only an expression has outcomes. -/
theorem exists_shape
    {view : View ι}
    {id : ι}
    {input : List Char}
    {outcome : Outcome ι}
    (run : Runs view (.node id) input outcome) :
    ∃ shape, view id = some shape := by
  cases run <;> exact ⟨_, by assumption⟩

/-- Views that agree on all nodes within reach have the same runs. -/
theorem of_agree
    {view other : View ι}
    {reached : ι → Prop}
    (agree : ∀ id, reached id → other id = view id)
    (closed :
      ∀ {id shape},
        reached id →
        view id = some shape →
        ∀ part ∈ shape.mentioned, reached part)
    {attempt : Attempt ι}
    {input : List Char}
    {outcome : Outcome ι}
    (run : Runs view attempt input outcome)
    (starts : ∀ id ∈ attempt.nodes, reached id) :
    Runs other attempt input outcome := by
  have first_reached
      {id : ι}
      {others : List ι}
      (starts : ∀ part ∈ id :: others, reached part) :
      ∀ part ∈ [id], reached part := by
    simpa using starts id List.mem_cons_self
  have known
      {id : ι}
      {shape : Shape ι}
      (here : view id = some shape)
      (starts : ∀ part ∈ [id], reached part) :
      other id = some shape ∧ ∀ part ∈ shape.mentioned, reached part := by
    have isReached := starts id List.mem_cons_self
    exact ⟨(agree id isReached).trans here, closed isReached here⟩
  induction run with
  | terminal shape matched consumed =>
      obtain ⟨same, parts⟩ := known shape starts
      exact .terminal same matched consumed
  | terminalFails shape unmatched =>
      obtain ⟨same, parts⟩ := known shape starts
      exact .terminalFails same unmatched
  | reference shape body bodyRuns =>
      obtain ⟨same, parts⟩ := known shape starts
      exact .reference same (bodyRuns parts)
  | referenceFails shape body bodyRuns =>
      obtain ⟨same, parts⟩ := known shape starts
      exact .referenceFails same (bodyRuns parts)
  | andPredicate shape ahead bodyRuns =>
      obtain ⟨same, parts⟩ := known shape starts
      exact .andPredicate same (bodyRuns parts)
  | andPredicateFails shape ahead bodyRuns =>
      obtain ⟨same, parts⟩ := known shape starts
      exact .andPredicateFails same (bodyRuns parts)
  | notPredicate shape ahead bodyRuns =>
      obtain ⟨same, parts⟩ := known shape starts
      exact .notPredicate same (bodyRuns parts)
  | notPredicateFails shape ahead bodyRuns =>
      obtain ⟨same, parts⟩ := known shape starts
      exact .notPredicateFails same (bodyRuns parts)
  | oneOrMore shape once more bodyRuns roundsRun =>
      obtain ⟨same, parts⟩ := known shape starts
      exact .oneOrMore same (bodyRuns parts) (roundsRun parts)
  | oneOrMoreFails shape once bodyRuns =>
      obtain ⟨same, parts⟩ := known shape starts
      exact .oneOrMoreFails same (bodyRuns parts)
  | zeroOrMore shape more roundsRun =>
      obtain ⟨same, parts⟩ := known shape starts
      exact .zeroOrMore same (roundsRun parts)
  | optional shape once bodyRuns =>
      obtain ⟨same, parts⟩ := known shape starts
      exact .optional same (bodyRuns parts)
  | optionalSkips shape once bodyRuns =>
      obtain ⟨same, parts⟩ := known shape starts
      exact .optionalSkips same (bodyRuns parts)
  | choice shape chosen partsRun =>
      obtain ⟨same, parts⟩ := known shape starts
      exact .choice same (partsRun parts)
  | choiceFails shape rejected partsRun =>
      obtain ⟨same, parts⟩ := known shape starts
      exact .choiceFails same (partsRun parts)
  | sequence shape all partsRun =>
      obtain ⟨same, parts⟩ := known shape starts
      exact .sequence same (partsRun parts)
  | sequenceFails shape stopped partsRun =>
      obtain ⟨same, parts⟩ := known shape starts
      exact .sequenceFails same (partsRun parts)
  | remainingInput shape =>
      obtain ⟨same, parts⟩ := known shape starts
      exact .remainingInput same
  | anyOfNone =>
      exact .anyOfNone
  | anyOfFirst first firstRuns =>
      exact .anyOfFirst (firstRuns (first_reached starts))
  | anyOfLater first later firstRuns laterRuns =>
      exact .anyOfLater (firstRuns (first_reached starts))
        (laterRuns (List.forall_mem_cons.mp starts).2)
  | inTurnNone =>
      exact .inTurnNone
  | inTurnAll first later firstRuns laterRuns =>
      exact .inTurnAll (firstRuns (first_reached starts))
        (laterRuns (List.forall_mem_cons.mp starts).2)
  | inTurnFirstFails first firstRuns =>
      exact .inTurnFirstFails (firstRuns (first_reached starts))
  | inTurnLaterFails first later firstRuns laterRuns =>
      exact .inTurnLaterFails (firstRuns (first_reached starts))
        (laterRuns (List.forall_mem_cons.mp starts).2)
  | roundsStop last bodyRuns =>
      exact .roundsStop (bodyRuns starts)
  | roundsMore once more bodyRuns roundsRun =>
      exact .roundsMore (bodyRuns starts) (roundsRun starts)

end Runs

end PegAudit
