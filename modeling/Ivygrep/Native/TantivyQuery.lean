import Mathlib

/-!
# Boolean queries in Tantivy

The part of the vendored Tantivy that turns a logical syntax tree into a query and evaluates it on
the documents of a segment: `trim_ast`, `convert_to_query`, `BooleanQuery` and `BooleanWeight`.
Scores are exact; a segment numbers its documents from zero.
-/

namespace Ivygrep.Native.Tantivy

inductive Occur where
  | should
  | must
  | mustNot
  deriving DecidableEq, Repr

/-! ## Scorers -/

/-- A `Box<dyn Scorer>`: the two types that `BooleanWeight` recognizes, and all others by the
documents they match and the score of each. -/
inductive Scorer where
  | all
  | empty
  | docs (matchesDoc : Nat → Bool) (scoreDoc : Nat → Rat)

namespace Scorer

/-- Whether the scorer matches a document of its segment. -/
def matchesDoc : Scorer → Nat → Bool
  | all, _ => true
  | empty, _ => false
  | docs matchesDoc _, doc => matchesDoc doc

def scoreDoc : Scorer → Nat → Rat
  | all, _ => 1
  | empty, _ => 0
  | docs _ scoreDoc, doc => scoreDoc doc

/-- `scorer.is::<AllScorer>()`. -/
def isAll : Scorer → Bool
  | all => true
  | _ => false

/-- `scorer.is::<EmptyScorer>()`. -/
def isEmpty : Scorer → Bool
  | empty => true
  | _ => false

end Scorer

/-- What `SumCombiner` adds up for a document: the scores of the scorers that match it. -/
def sumScores (doc : Nat) (scorers : List Scorer) : Rat :=
  ((scorers.filter (·.matchesDoc doc)).map (·.scoreDoc doc)).sum

/-- The intersection of scorers. The order by cost that the source puts them in first changes
neither the documents nor, in exact arithmetic, the sum. -/
def intersectScorers (maxDoc : Nat) (scorers : List Scorer) : Scorer :=
  match scorers with
  | [] => .empty
  | [scorer] => scorer
  | _ =>
    if (List.range maxDoc).any fun doc => scorers.all (·.matchesDoc doc) then
      .docs (fun doc => scorers.all (·.matchesDoc doc)) (fun doc => sumScores doc scorers)
    else .empty

/-- `BufferedUnionScorer::build`. -/
def bufferedUnion (scorers : List Scorer) : Scorer :=
  .docs (fun doc => scorers.any (·.matchesDoc doc)) (fun doc => sumScores doc scorers)

/-- `scorer_union`, boxed. -/
def scorerUnion (scorers : List Scorer) : Scorer :=
  match scorers with
  | [scorer] => scorer
  | _ => bufferedUnion scorers

/-- `scorer_disjunction`. -/
def scorerDisjunction (scorers : List Scorer) (minimum : Nat) : Scorer :=
  match scorers with
  | [scorer] => scorer
  | _ =>
    .docs (fun doc => minimum ≤ (scorers.filter (·.matchesDoc doc)).length)
      (fun doc => sumScores doc scorers)

/-- `RequiredOptionalScorer`. -/
def requiredOptional (required optional : Scorer) : Scorer :=
  .docs required.matchesDoc (fun doc => required.scoreDoc doc + sumScores doc [optional])

/-- `Exclude`. -/
def excludeScorers (underlying : Scorer) (excluded : List Scorer) : Scorer :=
  .docs (fun doc => underlying.matchesDoc doc && !excluded.any (·.matchesDoc doc))
    underlying.scoreDoc

/-! ## The scorer of a Boolean query -/

/-- The scorers that `remove_and_count_all_and_empty_scorers` leaves, and its two counts. -/
structure Remaining where
  scorers : List Scorer
  numAllScorers : Nat
  numEmptyScorers : Nat

def removeAndCountAllAndEmptyScorers (scorers : List Scorer) : Remaining where
  scorers := scorers.filter fun scorer => !scorer.isAll && !scorer.isEmpty
  numAllScorers := scorers.countP Scorer.isAll
  numEmptyScorers := scorers.countP Scorer.isEmpty

def effectiveMustScorer (maxDoc : Nat) (mustScorers : List Scorer) (removedAllScorerCount : Nat) :
    Option Scorer :=
  if mustScorers.isEmpty then
    if 0 < removedAllScorerCount then some .all else none
  else some (intersectScorers maxDoc mustScorers)

def effectiveShouldScorerForUnion (shouldScorer : Scorer) (removedAllScorerCount : Nat) : Scorer :=
  if 0 < removedAllScorerCount then bufferedUnion [shouldScorer, .all] else shouldScorer

inductive ShouldScorersCombinationMethod where
  | ignored
  | optional (scorer : Scorer)
  | required (scorer : Scorer)

/-- How the `Should` scorers enter, and the `Must` scorers, which they may join. -/
def combineShouldScorers (minimum : Nat) (mustScorers shouldScorers : List Scorer) :
    ShouldScorersCombinationMethod × List Scorer :=
  match minimum with
  | 0 =>
    if shouldScorers.isEmpty then (.ignored, mustScorers)
    else (.optional (scorerUnion shouldScorers), mustScorers)
  | 1 => (.required (scorerUnion shouldScorers), mustScorers)
  | n + 2 =>
    if shouldScorers.length = n + 2 then (.ignored, mustScorers ++ shouldScorers)
    else (.required (scorerDisjunction shouldScorers (n + 2)), mustScorers)

def includeScorer (maxDoc mustAllScorers shouldAllScorers : Nat) :
    ShouldScorersCombinationMethod × List Scorer → Scorer
  | (.ignored, mustScorers) =>
    (effectiveMustScorer maxDoc mustScorers (mustAllScorers + shouldAllScorers)).getD .empty
  | (.optional shouldScorer, mustScorers) =>
    match effectiveMustScorer maxDoc mustScorers mustAllScorers with
    | none => effectiveShouldScorerForUnion shouldScorer shouldAllScorers
    | some mustScorer => requiredOptional mustScorer shouldScorer
  | (.required shouldScorer, mustScorers) =>
    match effectiveMustScorer maxDoc mustScorers mustAllScorers with
    | none => shouldScorer
    | some mustScorer => intersectScorers maxDoc [mustScorer, shouldScorer]

/-- The scorers of the clauses with one occurrence. -/
def occurScorers (occur : Occur) (clauses : List (Occur × Scorer)) : List Scorer :=
  (clauses.filter (·.1 = occur)).map (·.2)

/-- `BooleanWeight::complex_scorer` with scores. `TermUnion` and `TermIntersection`, which only
evaluate faster, are the union and the intersection they stand for. -/
def complexScorer (maxDoc minimumNumberShouldMatch : Nat) (clauses : List (Occur × Scorer)) :
    Scorer :=
  let must := removeAndCountAllAndEmptyScorers (occurScorers .must clauses)
  let should := removeAndCountAllAndEmptyScorers (occurScorers .should clauses)
  let exclude := removeAndCountAllAndEmptyScorers (occurScorers .mustNot clauses)
  let effectiveMinimum := minimumNumberShouldMatch - should.numAllScorers
  if 0 < must.numEmptyScorers then .empty
  -- every document is excluded
  else if 0 < exclude.numAllScorers then .empty
  else if should.scorers.length < effectiveMinimum then .empty
  else
    let included := includeScorer maxDoc must.numAllScorers should.numAllScorers
      (combineShouldScorers effectiveMinimum must.scorers should.scorers)
    if exclude.scorers.isEmpty then included else excludeScorers included exclude.scorers

/-- `BooleanWeight::scorer`. -/
def booleanScorer (maxDoc minimumNumberShouldMatch : Nat) (clauses : List (Occur × Scorer)) :
    Scorer :=
  match clauses with
  | [] => .empty
  | [(occur, scorer)] => if occur = .mustNot then .empty else scorer
  | _ => complexScorer maxDoc minimumNumberShouldMatch clauses

/-- The minimum of `BooleanQuery::new`: one `Should` clause, when there are only such clauses. -/
def minimumRequired (occurs : List Occur) : Nat :=
  if !occurs.isEmpty && occurs.all (· = .should) then 1 else 0

/-! ## Logical syntax trees and queries -/

/-- The match-all literal, and all others as the index names them. -/
inductive LogicalLiteral (Literal : Type) where
  | all
  | literal (literal : Literal)
  deriving DecidableEq

inductive LogicalAst (Literal : Type) where
  | clause (clauses : List (Occur × LogicalAst Literal))
  | leaf (literal : LogicalLiteral Literal)
  | boost (ast : LogicalAst Literal) (boost : Rat)

/-- `Score::EPSILON`. -/
def scoreEpsilon : Rat := 1 / 2 ^ 23

/-- A boost that is not different enough from one to be kept. -/
def isUnitBoost (boost : Rat) : Bool := |boost - 1| < scoreEpsilon

section Trees

variable {Literal : Type}

theorem LogicalAst.sizeOf_child_lt {clauses : List (Occur × LogicalAst Literal)}
    {entry : Occur × LogicalAst Literal} (h : entry ∈ clauses) :
    sizeOf entry.2 < sizeOf (LogicalAst.clause clauses) := by
  have hlt := List.sizeOf_lt_of_mem h
  cases entry with
  | mk occur child => simp at hlt ⊢; omega

/-- Induction on a tree, with the children of a clause as members of its list. -/
theorem LogicalAst.induction {motive : LogicalAst Literal → Prop}
    (clause : ∀ clauses, (∀ entry ∈ clauses, motive entry.2) → motive (.clause clauses))
    (leaf : ∀ literal, motive (.leaf literal))
    (boost : ∀ ast boost, motive ast → motive (.boost ast boost)) : ∀ ast, motive ast
  | .clause clauses => clause clauses fun entry _ => LogicalAst.induction clause leaf boost entry.2
  | .leaf literal => leaf literal
  | .boost ast factor => boost ast factor (LogicalAst.induction clause leaf boost ast)
termination_by ast => sizeOf ast
decreasing_by
  · exact LogicalAst.sizeOf_child_lt ‹_›
  · simp +arith

/-- `LogicalAst::boost`. -/
def LogicalAst.boosted (ast : LogicalAst Literal) (boost : Rat) : LogicalAst Literal :=
  if isUnitBoost boost then ast else .boost ast boost

/-- `all_negative`. -/
def allNegative : LogicalAst Literal → Bool
  | .leaf _ => false
  | .boost ast _ => allNegative ast
  | .clause clauses =>
    clauses.attach.all fun ⟨entry, _⟩ => entry.1 = .mustNot || allNegative entry.2
termination_by ast => sizeOf ast
decreasing_by
  · simp +arith
  · exact LogicalAst.sizeOf_child_lt ‹_›

/-- `trim_ast`. -/
def trimAst : LogicalAst Literal → Option (LogicalAst Literal)
  | .clause clauses =>
    let trimmedChildren := clauses.filterMap fun entry =>
      (trimAst entry.2).map fun child => (entry.1, child)
    if trimmedChildren.isEmpty then none else some (.clause trimmedChildren)
  | .leaf literal => some (.leaf literal)
  | .boost ast boost => some (.boost ast boost)
termination_by ast => sizeOf ast
decreasing_by exact LogicalAst.sizeOf_child_lt ‹_›

theorem sizeOf_filterMap_le {clauses : List (Occur × LogicalAst Literal)}
    (h : ∀ entry ∈ clauses, ∀ trimmed, trimAst entry.2 = some trimmed →
      sizeOf trimmed ≤ sizeOf entry.2) :
    sizeOf (clauses.filterMap fun entry =>
      (trimAst entry.2).map fun child => (entry.1, child)) ≤ sizeOf clauses := by
  induction clauses with
  | nil => simp
  | cons entry rest ih =>
    have hrest := ih fun other hother => h other (by simp [hother])
    have hentry := h entry (by simp)
    cases entry with
    | mk occur child =>
      cases htrim : trimAst child with
      | none => simp [htrim]; omega
      | some trimmed =>
        have hle := hentry trimmed htrim
        simp [htrim] at hle ⊢
        omega

/-- Trimming makes no tree larger. -/
theorem sizeOf_trimAst_le (ast : LogicalAst Literal) :
    ∀ trimmed, trimAst ast = some trimmed → sizeOf trimmed ≤ sizeOf ast := by
  induction ast using LogicalAst.induction with
  | clause clauses ih =>
    intro trimmed h
    have hle := sizeOf_filterMap_le ih
    simp only [trimAst] at h
    split at h
    · simp at h
    · cases h
      simp only [LogicalAst.clause.sizeOf_spec]
      omega
  | leaf literal =>
    intro trimmed h
    simp only [trimAst, Option.some.injEq] at h
    exact Nat.le_of_eq (by rw [h])
  | boost ast boost ih =>
    intro trimmed h
    simp only [trimAst, Option.some.injEq] at h
    exact Nat.le_of_eq (by rw [h])

/-- The queries that `convert_to_query` builds. -/
inductive Query (Literal : Type) where
  | boolean (minimumNumberShouldMatch : Nat) (subqueries : List (Occur × Query Literal))
  | literal (literal : LogicalLiteral Literal)
  | boost (query : Query Literal) (boost : Rat)
  | empty

/-- `BooleanQuery::new`. -/
def booleanQuery (subqueries : List (Occur × Query Literal)) : Query Literal :=
  .boolean (minimumRequired (subqueries.map (·.1))) subqueries

def convertToQuery (logicalAst : LogicalAst Literal) : Query Literal :=
  match _h : trimAst logicalAst with
  | some (.clause trimmedClause) =>
    booleanQuery (trimmedClause.attach.map fun ⟨entry, _⟩ => (entry.1, convertToQuery entry.2))
  | some (.leaf literal) => .literal literal
  | some (.boost ast boost) => .boost (convertToQuery ast) boost
  | none => .empty
termination_by sizeOf logicalAst
decreasing_by
  · have hle := sizeOf_trimAst_le _ _ _h
    have hlt := LogicalAst.sizeOf_child_lt ‹_ ∈ trimmedClause›
    omega
  · have hle := sizeOf_trimAst_le _ _ _h
    simp at hle ⊢
    omega

/-! ## Weights -/

/-- One segment of the index: how many documents it has, and the scorer of each literal at a boost.
A boost multiplies the score; a literal that every document satisfies may have an `AllScorer`,
whose score is one. -/
structure Segment (Literal : Type) where
  maxDoc : Nat
  literalScorer : Literal → Rat → Scorer
  matchesDoc_boost : ∀ literal boost doc,
    (literalScorer literal boost).matchesDoc doc = (literalScorer literal 1).matchesDoc doc
  scoreDoc_boost : ∀ literal boost doc, (literalScorer literal 1).matchesDoc doc →
    (literalScorer literal boost).scoreDoc doc = boost * (literalScorer literal 1).scoreDoc doc

namespace Segment

variable (segment : Segment Literal)

/-- `AllWeight::scorer`. -/
def allScorer (boost : Rat) : Scorer :=
  if boost ≠ 1 then .docs (fun doc => doc < segment.maxDoc) (fun _ => 1 * boost) else .all

/-- The scorer of a leaf of a query. -/
def scorerOf : LogicalLiteral Literal → Rat → Scorer
  | .all, boost => segment.allScorer boost
  | .literal literal, boost => segment.literalScorer literal boost

end Segment

theorem Query.sizeOf_child_lt {subqueries : List (Occur × Query Literal)}
    {entry : Occur × Query Literal} {minimum : Nat} (h : entry ∈ subqueries) :
    sizeOf entry.2 < sizeOf (Query.boolean minimum subqueries) := by
  have hlt := List.sizeOf_lt_of_mem h
  cases entry with
  | mk occur child => simp at hlt ⊢; omega

/-- `Weight::scorer` of the weight of a query. -/
def weightScorer (segment : Segment Literal) : Query Literal → Rat → Scorer
  | .boolean minimum subqueries, boost =>
    booleanScorer segment.maxDoc minimum
      (subqueries.map fun entry => (entry.1, weightScorer segment entry.2 boost))
  | .literal literal, boost => segment.scorerOf literal boost
  | .boost query factor, boost => weightScorer segment query (boost * factor)
  | .empty, _ => .empty
termination_by query => sizeOf query
decreasing_by
  · exact Query.sizeOf_child_lt ‹_›
  · simp +arith

end Trees

end Ivygrep.Native.Tantivy
