import Mathlib
import Ivygrep.Native.SearchBoolean
import Ivygrep.Spec.TantivyQueryCorrect

/-!
# Rewriting a Boolean query preserves its meaning

The reference meaning of a tree reads a purely negative clause as a complement. The query that
`strict_boolean_query` builds matches the documents of the reference meaning in which an operand
that holds no term is left out of the operands that must match (`strictBooleanQuery_correct`): the
parser trims such an operand. A document's score is the sum over the positive leaves that match it,
with the explicit `signature:` literals at their restored boost.
-/

namespace Ivygrep.Native

open Tantivy

/-! ## Reference meaning -/

namespace UserInputAst

/-- The meaning of a tree, given that of its leaves and the operands that are left out of those that
must match. -/
def Denotes (defaultOccur : Occur) (leafHolds : UserInputLeaf → Prop)
    (ignored : UserInputAst → Prop) : UserInputAst → Prop
  | .clause clauses =>
    if isPurelyNegative clauses then ∀ entry ∈ clauses, ¬ Denotes defaultOccur leafHolds ignored entry.2
    else
      (∀ entry ∈ clauses, entry.1.getD defaultOccur = .must →
          ignored entry.2 ∨ Denotes defaultOccur leafHolds ignored entry.2) ∧
        (∀ entry ∈ clauses, entry.1.getD defaultOccur = .mustNot →
          ¬ Denotes defaultOccur leafHolds ignored entry.2) ∧
        ((∀ entry ∈ clauses, entry.1.getD defaultOccur = .must → ignored entry.2) →
          ∃ entry, ∃ _ : entry ∈ clauses, entry.1.getD defaultOccur = .should ∧
            Denotes defaultOccur leafHolds ignored entry.2)
  | .boost child _ => Denotes defaultOccur leafHolds ignored child
  | .leaf input => leafHolds input
termination_by ast => sizeOf ast
decreasing_by
  all_goals first
    | exact UserInputAst.sizeOf_child_lt ‹_›
    | simp +arith

open Classical in
/-- The leaves outside every operand that must not match, below children that count, each with the
product of the boosts above it. -/
noncomputable def positiveLeaves (defaultOccur : Occur) (counts : UserInputAst → Prop) :
    UserInputAst → List (Rat × UserInputLeaf)
  | .clause clauses => clauses.flatMap fun entry =>
    if entry.1.getD defaultOccur ≠ .mustNot ∧ counts entry.2 then
      positiveLeaves defaultOccur counts entry.2
    else []
  | .boost child factor =>
    (positiveLeaves defaultOccur counts child).map fun one => (effectiveBoost factor * one.1, one.2)
  | .leaf input => [(1, input)]
termination_by ast => sizeOf ast
decreasing_by
  · exact UserInputAst.sizeOf_child_lt ‹_›
  · simp +arith

end UserInputAst

section Meaning

variable {Field Literal : Type} (parser : QueryParser Field Literal)
  (segment : Tantivy.Segment Literal)
  (signatureScoring : SignatureScoring)

/-- The literals that a leaf stands for, each with the boost of its field. -/
def QueryParser.terms : UserInputLeaf → List (LogicalLiteral Literal × Rat)
  | .literal literal =>
    match parser.pathTripletsForLiteral literal with
    | .error _ => []
    | .ok termPhrases =>
      (termPhrases.flatMap (parser.fieldLiterals literal)).map fun one => (.literal one.1, one.2)
  | .all => [(.all, 1)]
  | leaf => (parser.structuredLeaf leaf).1.toList.map fun one => (.literal one, 1)

/-- A document matches a leaf when it matches one of its literals. -/
def leafHolds (doc : Nat) (leaf : UserInputLeaf) : Prop :=
  ∃ term ∈ parser.terms leaf, (segment.scorerOf term.1 1).matchesDoc doc

/-- The score of a leaf: the sum over the literals that match, each times the boost of its field. -/
def leafScore (doc : Nat) (leaf : UserInputLeaf) : Rat :=
  (((parser.terms leaf).filter fun term => (segment.scorerOf term.1 1).matchesDoc doc).map
    fun term => effectiveBoost term.2 * (segment.scorerOf term.1 1).scoreDoc doc).sum

/-- The boost that a leaf gets back: that of an explicit `signature:` literal, when the parser
scores signatures plainly. -/
def signatureBoost (leaf : UserInputLeaf) : Rat :=
  if signatureScoring = .plain ∧ leaf.isExplicitSignature then restoredBoost else 1

/-- An operand that holds no term, so that the parser trims it. -/
def Vacant : UserInputAst → Prop
  | .clause clauses => isPurelyNegative clauses = false ∧ ∀ entry ∈ clauses, Vacant entry.2
  | .boost child factor => isUnitBoost factor ∧ Vacant child
  | .leaf leaf =>
    parser.terms leaf = [] ∧ ¬ (signatureScoring = .plain ∧ leaf.isExplicitSignature)
termination_by ast => sizeOf ast
decreasing_by
  · exact UserInputAst.sizeOf_child_lt ‹_›
  · simp +arith

/-- Every clause has an operand and every leaf a term. -/
def Substantial : UserInputAst → Prop
  | .clause clauses => clauses ≠ [] ∧ ∀ entry ∈ clauses, Substantial entry.2
  | .boost child _ => Substantial child
  | .leaf leaf => parser.terms leaf ≠ []
termination_by ast => sizeOf ast
decreasing_by
  · exact UserInputAst.sizeOf_child_lt ‹_›
  · simp +arith

/-- The parser reports no error for a leaf of the tree. -/
def LeavesAccepted : UserInputAst → Prop
  | .clause clauses => ∀ entry ∈ clauses, LeavesAccepted entry.2
  | .boost child _ => LeavesAccepted child
  | .leaf leaf => (parser.logicalAstFromLeaf leaf).2 = []
termination_by ast => sizeOf ast
decreasing_by
  · exact UserInputAst.sizeOf_child_lt ‹_›
  · simp +arith

/-- The documents of a tree, as the reference meaning has it. -/
def ReferenceMatches (ast : UserInputAst) (doc : Nat) : Prop :=
  ast.Denotes parser.defaultOccur (leafHolds parser segment doc) fun _ => False

/-- The documents of a tree, where operands without a term are left out. -/
def TrimmedMatches (ast : UserInputAst) (doc : Nat) : Prop :=
  ast.Denotes parser.defaultOccur (leafHolds parser segment doc) (Vacant parser signatureScoring)

/-- The sum over the positive leaves that match a document. -/
noncomputable def referenceScore (ast : UserInputAst) (doc : Nat) : Rat :=
  ((ast.positiveLeaves parser.defaultOccur
      (TrimmedMatches parser segment signatureScoring · doc)).map fun one =>
    one.1 * (signatureBoost signatureScoring one.2 * leafScore parser segment doc one.2)).sum

/-- No positive leaf is evaluated by a match-all scorer when the tree is evaluated at a boost. -/
def WithoutMatchAll (boost : Rat) (ast : UserInputAst) : Prop :=
  ∀ one ∈ ast.positiveLeaves parser.defaultOccur fun _ => True, ∀ term ∈ parser.terms one.2,
    (segment.scorerOf term.1
      (boost * one.1 * signatureBoost signatureScoring one.2 * effectiveBoost term.2)).isAll = false

end Meaning

/-! ## The rewritten tree -/

theorem isPurelyNegative_map (clauses : List (Option Occur × UserInputAst))
    (f : UserInputAst → UserInputAst) :
    isPurelyNegative (clauses.map fun entry => (entry.1, f entry.2)) = isPurelyNegative clauses := by
  cases clauses with
  | nil => rfl
  | cons entry rest =>
    simp only [isPurelyNegative, List.map_cons, List.isEmpty_cons, List.all_cons, List.all_map]
    rfl

theorem isPurelyNegative_iff (clauses : List (Option Occur × UserInputAst)) :
    isPurelyNegative clauses ↔ clauses ≠ [] ∧ ∀ entry ∈ clauses, entry.1 = some .mustNot := by
  simp [isPurelyNegative]

variable {Field Literal : Type} {parser : QueryParser Field Literal}
  {segment : Tantivy.Segment Literal}
  {signatureScoring : SignatureScoring}

theorem strictBooleanAst_clause (clauses : List (Option Occur × UserInputAst)) :
    strictBooleanAst signatureScoring (.clause clauses) =
      .clause (clauses.map (fun entry => (entry.1, strictBooleanAst signatureScoring entry.2)) ++
        if isPurelyNegative clauses then [zeroScoringUniverse] else []) := by
  have hanchored : anchorNegativeClauses (.clause clauses) =
      .clause (clauses.map (fun entry => (entry.1, anchorNegativeClauses entry.2)) ++
        if isPurelyNegative clauses then [zeroScoringUniverse] else []) := by
    rw [anchorNegativeClauses]
    simp only [isPurelyNegative_map]
    split <;> simp
  by_cases hplain : signatureScoring = .plain
  · -- the universe that is added has no `signature:` literal
    have huniverse : boostExplicitSignatureClauses zeroScoringUniverse.2 = zeroScoringUniverse.2 := by
      simp [zeroScoringUniverse, boostExplicitSignatureClauses, UserInputLeaf.isExplicitSignature]
    simp only [strictBooleanAst, hplain, if_true, hanchored]
    rw [boostExplicitSignatureClauses]
    split <;> simp [huniverse]
  · simp only [strictBooleanAst, hplain, if_false, hanchored]

theorem strictBooleanAst_boost (child : UserInputAst) (factor : Rat) :
    strictBooleanAst signatureScoring (.boost child factor) =
      .boost (strictBooleanAst signatureScoring child) factor := by
  simp only [strictBooleanAst, anchorNegativeClauses]
  split
  · rw [boostExplicitSignatureClauses]
  · rfl

theorem strictBooleanAst_leaf (leaf : UserInputLeaf) :
    strictBooleanAst signatureScoring (.leaf leaf) =
      if signatureScoring = .plain ∧ leaf.isExplicitSignature then .boost (.leaf leaf) restoredBoost
      else .leaf leaf := by
  simp only [strictBooleanAst, anchorNegativeClauses]
  by_cases hplain : signatureScoring = .plain <;> simp [hplain, boostExplicitSignatureClauses]

/-! ## Its logical tree -/

theorem isUnitBoost_zero : isUnitBoost 0 = false := by
  simp [isUnitBoost, scoreEpsilon]
  norm_num

theorem isUnitBoost_one : isUnitBoost 1 = true := by
  simp [isUnitBoost, scoreEpsilon]

theorem isUnitBoost_restoredBoost : isUnitBoost restoredBoost = false := by
  simp [isUnitBoost, scoreEpsilon, restoredBoost, SignatureScoring.boost,
    SignatureScoring.defaultBoost]
  norm_num

/-- The logical tree of a rewritten tree. -/
def rewrittenTree (parser : QueryParser Field Literal) (signatureScoring : SignatureScoring)
    (ast : UserInputAst) : LogicalAst Literal :=
  (parser.logicalAstWithOccur (strictBooleanAst signatureScoring ast)).1

/-- The logical tree of a leaf. -/
def leafTree (parser : QueryParser Field Literal) (leaf : UserInputLeaf) : LogicalAst Literal :=
  (parser.logicalAstFromLeaf leaf).1.getD (.clause [])

theorem rewrittenTree_clause (clauses : List (Option Occur × UserInputAst)) :
    rewrittenTree parser signatureScoring (.clause clauses) =
      .clause (clauses.map (fun entry => (entry.1.getD parser.defaultOccur,
          rewrittenTree parser signatureScoring entry.2)) ++
        if isPurelyNegative clauses then [(.must, .boost (.leaf .all) 0)] else []) := by
  simp only [rewrittenTree, strictBooleanAst_clause]
  rw [QueryParser.logicalAstWithOccur]
  split <;> simp [zeroScoringUniverse, QueryParser.logicalAstWithOccur,
    QueryParser.logicalAstFromLeaf, LogicalAst.boosted, isUnitBoost_zero]

theorem rewrittenTree_boost (child : UserInputAst) (factor : Rat) :
    rewrittenTree parser signatureScoring (.boost child factor) =
      (rewrittenTree parser signatureScoring child).boosted factor := by
  simp only [rewrittenTree, strictBooleanAst_boost]
  rw [QueryParser.logicalAstWithOccur]

theorem rewrittenTree_leaf (leaf : UserInputLeaf) :
    rewrittenTree parser signatureScoring (.leaf leaf) =
      if signatureScoring = .plain ∧ leaf.isExplicitSignature then
        .boost (leafTree parser leaf) restoredBoost
      else leafTree parser leaf := by
  simp only [rewrittenTree, strictBooleanAst_leaf]
  split <;> simp [QueryParser.logicalAstWithOccur, leafTree, LogicalAst.boosted,
    isUnitBoost_restoredBoost]

/-- A leaf with one term is that term, another the union of its terms. -/
theorem leafTree_eq (leaf : UserInputLeaf) :
    leafTree parser leaf =
      match parser.terms leaf with
      | [term] => (LogicalAst.leaf term.1).boosted term.2
      | terms => .clause (terms.map fun term => (.should, (LogicalAst.leaf term.1).boosted term.2)) := by
  have hone : ∀ literal : LogicalLiteral Literal,
      (LogicalAst.leaf literal).boosted 1 = .leaf literal := by
    simp [LogicalAst.boosted, isUnitBoost_one]
  cases leaf with
  | literal literal =>
    simp only [leafTree, QueryParser.terms, QueryParser.logicalAstFromLeaf]
    cases parser.pathTripletsForLiteral literal with
    | error error => rfl
    | ok termPhrases =>
      simp only
      rcases termPhrases.flatMap (parser.fieldLiterals literal) with - | ⟨first, - | ⟨second, rest⟩⟩
      · rfl
      · rfl
      · simp
  | all => simp [leafTree, QueryParser.terms, QueryParser.logicalAstFromLeaf, hone]
  | range | set | fieldExists | regex =>
    simp only [leafTree, QueryParser.terms, QueryParser.logicalAstFromLeaf]
    generalize (parser.structuredLeaf _).1 = literal
    cases literal with
    | none => rfl
    | some literal => simp [hone]

theorem trimAst_leafTree (leaf : UserInputLeaf) :
    trimAst (leafTree parser leaf) = none ↔ parser.terms leaf = [] := by
  rw [leafTree_eq]
  match parser.terms leaf with
  | [] => simp [trimAst_clause_eq_none]
  | [term] => simp [trimAst_boosted]
  | first :: second :: rest => simp [trimAst_clause_eq_none, trimAst_boosted]

/-- The parser trims the vacant operands. -/
theorem trimAst_rewrittenTree (ast : UserInputAst) :
    trimAst (rewrittenTree parser signatureScoring ast) = none ↔
      Vacant parser signatureScoring ast := by
  induction ast using UserInputAst.induction with
  | onClause clauses ih =>
    rw [rewrittenTree_clause, trimAst_clause_eq_none, Vacant]
    cases hnegative : isPurelyNegative clauses with
    | true =>
      simp only [if_true, List.forall_mem_append, List.forall_mem_singleton, trimAst_boost]
      simp
    | false =>
      simp only [Bool.false_eq_true, if_false, List.append_nil, List.forall_mem_map, true_and]
      exact forall₂_congr ih
  | onLeaf leaf =>
    rw [rewrittenTree_leaf, Vacant]
    split
    · next hsignature => simp [hsignature]
    · next hsignature => simp [hsignature, trimAst_leafTree]
  | onBoost child factor ih => rw [rewrittenTree_boost, trimAst_boosted, Vacant, ih]

/-! ## Matching -/

theorem scorerOf_matchesDoc {doc : Nat} (hdoc : doc < segment.maxDoc)
    (literal : LogicalLiteral Literal) (boost : Rat) :
    (segment.scorerOf literal boost).matchesDoc doc = (segment.scorerOf literal 1).matchesDoc doc := by
  cases literal with
  | all =>
    simp only [Tantivy.Segment.scorerOf, Tantivy.Segment.allScorer]
    split <;> simp [hdoc]
  | literal literal => exact segment.matchesDoc_boost literal boost doc

theorem scorerOf_scoreDoc {doc : Nat} (literal : LogicalLiteral Literal) (boost : Rat)
    (h : (segment.scorerOf literal 1).matchesDoc doc) :
    (segment.scorerOf literal boost).scoreDoc doc =
      boost * (segment.scorerOf literal 1).scoreDoc doc := by
  cases literal with
  | all =>
    simp only [Tantivy.Segment.scorerOf, Tantivy.Segment.allScorer]
    by_cases hone : boost = 1 <;> simp [hone]
  | literal literal => exact segment.scoreDoc_boost literal boost doc h

theorem treeScorer_term (term : LogicalLiteral Literal × Rat) (boost : Rat) :
    treeScorer segment ((LogicalAst.leaf term.1).boosted term.2) boost =
      segment.scorerOf term.1 (boost * effectiveBoost term.2) := by
  rw [treeScorer_boosted, treeScorer_leaf]

theorem leafTree_matchesDoc {doc : Nat} (hdoc : doc < segment.maxDoc) (leaf : UserInputLeaf)
    (boost : Rat) :
    (treeScorer segment (leafTree parser leaf) boost).matchesDoc doc ↔
      leafHolds parser segment doc leaf := by
  have hterm : ∀ term : LogicalLiteral Literal × Rat,
      (treeScorer segment ((LogicalAst.leaf term.1).boosted term.2) boost).matchesDoc doc =
        (segment.scorerOf term.1 1).matchesDoc doc := by
    intro term
    rw [treeScorer_term, scorerOf_matchesDoc hdoc]
  rw [leafHolds, leafTree_eq]
  match parser.terms leaf with
  | [] => simp [treeScorer_of_trimmed, trimAst_clause_eq_none]
  | [term] => simp [hterm]
  | first :: second :: rest =>
    simp only
    rw [treeScorer_clause_matchesDoc hdoc]
    simp only [List.forall_mem_map]
    simp only [List.mem_map, exists_exists_and_eq_and, hterm]
    simp

/-- The universe that anchors a negative clause matches every document and scores zero. -/
theorem treeScorer_universe (boost : Rat) :
    treeScorer segment (.boost (.leaf .all) 0) boost =
      .docs (fun doc => doc < segment.maxDoc) fun _ => 0 := by
  rw [treeScorer_boost, treeScorer_leaf]
  simp [Tantivy.Segment.scorerOf, Tantivy.Segment.allScorer]

theorem defaultOccur_ne_mustNot : parser.defaultOccur ≠ .mustNot := by
  simp only [QueryParser.defaultOccur]
  split <;> decide

/-- The query that is built matches the documents of the meaning. -/
theorem rewrittenTree_matchesDoc {doc : Nat} (hdoc : doc < segment.maxDoc) (ast : UserInputAst) :
    ∀ boost, (treeScorer segment (rewrittenTree parser signatureScoring ast) boost).matchesDoc doc ↔
      TrimmedMatches parser segment signatureScoring ast doc := by
  induction ast using UserInputAst.induction with
  | onClause clauses ih =>
    intro boost
    have hmatches : ∀ entry ∈ clauses,
        ((treeScorer segment (rewrittenTree parser signatureScoring entry.2) boost).matchesDoc doc ↔
          TrimmedMatches parser segment signatureScoring entry.2 doc) :=
      fun entry hentry => ih entry hentry boost
    rw [rewrittenTree_clause, treeScorer_clause_matchesDoc hdoc, TrimmedMatches,
      UserInputAst.Denotes]
    cases hnegative : isPurelyNegative clauses with
    | true =>
      -- the anchor is the only operand that must match, and it does
      have hoccur := ((isPurelyNegative_iff clauses).mp hnegative).2
      have hmustNot : ∀ entry ∈ clauses, entry.1.getD parser.defaultOccur = .mustNot := by
        intro entry hentry
        rw [hoccur entry hentry]
        rfl
      simp only [if_true, List.forall_mem_append, List.forall_mem_map, List.forall_mem_singleton]
      constructor
      · intro h entry hentry hdenotes
        exact h.2.1.1 entry hentry (hmustNot entry hentry) ((hmatches entry hentry).mpr hdenotes)
      · intro h
        refine ⟨⟨?_, ?_⟩, ⟨?_, ?_⟩, ?_⟩
        · intro entry hentry hmust
          rw [hmustNot entry hentry] at hmust
          cases hmust
        · simp [treeScorer_universe, hdoc]
        · intro entry hentry _ hentryMatches
          exact h entry hentry ((hmatches entry hentry).mp hentryMatches)
        · simp
        · intro htrimmed
          simp at htrimmed
    | false =>
      simp only [Bool.false_eq_true, if_false, List.append_nil, List.forall_mem_map,
        trimAst_rewrittenTree]
      simp only [List.mem_map, exists_exists_and_eq_and]
      refine and_congr ?_ (and_congr ?_ (imp_congr Iff.rfl ?_))
      · exact forall₂_congr fun entry hentry =>
          imp_congr Iff.rfl (or_congr Iff.rfl (hmatches entry hentry))
      · exact forall₂_congr fun entry hentry =>
          imp_congr Iff.rfl (not_congr (hmatches entry hentry))
      · refine exists_congr fun entry => ?_
        rw [exists_prop]
        exact and_congr_right fun hentry => and_congr_right fun _ => hmatches entry hentry
  | onLeaf leaf =>
    intro boost
    rw [rewrittenTree_leaf, TrimmedMatches, UserInputAst.Denotes]
    split
    · rw [treeScorer_boost, leafTree_matchesDoc hdoc]
    · rw [leafTree_matchesDoc hdoc]
  | onBoost child factor ih =>
    intro boost
    rw [rewrittenTree_boost, treeScorer_boosted, ih, TrimmedMatches, TrimmedMatches,
      UserInputAst.Denotes]

/-! ## Scores -/

open Classical in
/-- A clause scores the sum over its positive children that match. -/
theorem referenceScore_clause (clauses : List (Option Occur × UserInputAst)) (doc : Nat) :
    referenceScore parser segment signatureScoring (.clause clauses) doc =
      (clauses.map fun entry =>
        if entry.1.getD parser.defaultOccur ≠ .mustNot ∧
            TrimmedMatches parser segment signatureScoring entry.2 doc then
          referenceScore parser segment signatureScoring entry.2 doc
        else 0).sum := by
  rw [referenceScore, UserInputAst.positiveLeaves, List.map_flatMap, List.flatMap_def,
    List.sum_flatten, List.map_map]
  congr 1
  refine List.map_congr_left fun entry hentry => ?_
  simp only [Function.comp_apply]
  split <;> rfl

theorem referenceScore_boost (child : UserInputAst) (factor : Rat) (doc : Nat) :
    referenceScore parser segment signatureScoring (.boost child factor) doc =
      effectiveBoost factor * referenceScore parser segment signatureScoring child doc := by
  rw [referenceScore, UserInputAst.positiveLeaves, List.map_map, referenceScore,
    ← List.sum_map_mul_left]
  congr 1
  refine List.map_congr_left fun one hone => ?_
  simp only [Function.comp_apply]
  ring

theorem referenceScore_leaf (leaf : UserInputLeaf) (doc : Nat) :
    referenceScore parser segment signatureScoring (.leaf leaf) doc =
      signatureBoost signatureScoring leaf * leafScore parser segment doc leaf := by
  simp [referenceScore, UserInputAst.positiveLeaves]

theorem WithoutMatchAll.child {clauses : List (Option Occur × UserInputAst)} {boost : Rat}
    (h : WithoutMatchAll parser segment signatureScoring boost (.clause clauses))
    {entry : Option Occur × UserInputAst} (hentry : entry ∈ clauses)
    (hoccur : entry.1.getD parser.defaultOccur ≠ .mustNot) :
    WithoutMatchAll parser segment signatureScoring boost entry.2 := by
  intro one hone
  refine h one ?_
  rw [UserInputAst.positiveLeaves, List.mem_flatMap]
  exact ⟨entry, hentry, by simpa [hoccur] using hone⟩

theorem WithoutMatchAll.boosted {child : UserInputAst} {factor boost : Rat}
    (h : WithoutMatchAll parser segment signatureScoring boost (.boost child factor)) :
    WithoutMatchAll parser segment signatureScoring (boost * effectiveBoost factor) child := by
  intro one hone term hterm
  have hmem : (effectiveBoost factor * one.1, one.2) ∈
      (UserInputAst.boost child factor).positiveLeaves parser.defaultOccur fun _ => True := by
    rw [UserInputAst.positiveLeaves]
    exact List.mem_map_of_mem hone
  have hall := h _ hmem term hterm
  rwa [← mul_assoc boost] at hall

theorem leafTree_isAll {leaf : UserInputLeaf} {boost : Rat}
    (h : ∀ term ∈ parser.terms leaf,
      (segment.scorerOf term.1 (boost * effectiveBoost term.2)).isAll = false) :
    (treeScorer segment (leafTree parser leaf) boost).isAll = false := by
  rw [leafTree_eq]
  match hterms : parser.terms leaf with
  | [] => rw [treeScorer_of_trimmed segment (by simp [trimAst_clause_eq_none])]; rfl
  | [term] => rw [treeScorer_term]; exact h term (by simp [hterms])
  | first :: second :: rest =>
    apply treeScorer_clause_isAll
    simp only [List.forall_mem_map]
    intro term hterm _
    rw [treeScorer_term]
    exact h term (hterms ▸ hterm)

theorem leafScore_eq (leaf : UserInputLeaf) (doc : Nat) (boost : Rat) :
    boost * leafScore parser segment doc leaf =
      ((parser.terms leaf).map fun term =>
        if (segment.scorerOf term.1 1).matchesDoc doc then
          boost * effectiveBoost term.2 * (segment.scorerOf term.1 1).scoreDoc doc
        else 0).sum := by
  rw [leafScore]
  induction parser.terms leaf with
  | nil => simp
  | cons term rest ih =>
    by_cases hmatches : (segment.scorerOf term.1 1).matchesDoc doc
    · simp only [List.filter_cons, hmatches, if_true, List.map_cons, List.sum_cons, mul_add, ih]
      ring
    · simp only [List.filter_cons, hmatches, Bool.false_eq_true, if_false, List.map_cons,
        List.sum_cons, zero_add, ih]

theorem leafTree_scoreDoc {doc : Nat} (hdoc : doc < segment.maxDoc) {leaf : UserInputLeaf}
    {boost : Rat}
    (hall : ∀ term ∈ parser.terms leaf,
      (segment.scorerOf term.1 (boost * effectiveBoost term.2)).isAll = false)
    (h : (treeScorer segment (leafTree parser leaf) boost).matchesDoc doc) :
    (treeScorer segment (leafTree parser leaf) boost).scoreDoc doc =
      boost * leafScore parser segment doc leaf := by
  rw [leafScore_eq]
  rw [leafTree_eq] at h ⊢
  match hterms : parser.terms leaf with
  | [] =>
    rw [hterms] at h
    rw [treeScorer_of_trimmed segment (by simp [trimAst_clause_eq_none])] at h
    simp at h
  | [term] =>
    rw [hterms] at h
    simp only at h ⊢
    rw [treeScorer_term, scorerOf_matchesDoc hdoc] at h
    rw [treeScorer_term, scorerOf_scoreDoc _ _ h]
    simp [h]
  | first :: second :: rest =>
    rw [hterms] at h
    rw [treeScorer_clause_scoreDoc _ h]
    · rw [List.map_map]
      congr 1
      refine List.map_congr_left fun term hterm => ?_
      simp only [Function.comp_apply, treeScorer_term, scorerOf_matchesDoc hdoc, ne_eq,
        reduceCtorEq, not_false_eq_true, true_and]
      split
      · next hmatches => exact scorerOf_scoreDoc _ _ hmatches
      · rfl
    · simp only [List.forall_mem_map]
      intro term hterm _
      rw [treeScorer_term]
      exact hall term (hterms ▸ hterm)

/-- Without match-all scorers in a positive place, the score is the reference score. -/
theorem rewrittenTree_scoreDoc {doc : Nat} (hdoc : doc < segment.maxDoc) (ast : UserInputAst) :
    ∀ boost, WithoutMatchAll parser segment signatureScoring boost ast →
      (treeScorer segment (rewrittenTree parser signatureScoring ast) boost).isAll = false ∧
      ((treeScorer segment (rewrittenTree parser signatureScoring ast) boost).matchesDoc doc →
        (treeScorer segment (rewrittenTree parser signatureScoring ast) boost).scoreDoc doc =
          boost * referenceScore parser segment signatureScoring ast doc) := by
  induction ast using UserInputAst.induction with
  | onClause clauses ih =>
    intro boost hwithout
    have hchild := fun entry hentry hoccur =>
      ih entry hentry boost (WithoutMatchAll.child hwithout hentry hoccur)
    rw [rewrittenTree_clause]
    have hall : ∀ entry ∈ clauses.map (fun entry => (entry.1.getD parser.defaultOccur,
          rewrittenTree parser signatureScoring entry.2)) ++
        (if isPurelyNegative clauses then [(.must, .boost (.leaf .all) 0)] else []),
        entry.1 ≠ .mustNot → (treeScorer segment entry.2 boost).isAll = false := by
      simp only [List.forall_mem_append, List.forall_mem_map]
      refine ⟨fun entry hentry hoccur => (hchild entry hentry hoccur).1, ?_⟩
      split
      · simp [treeScorer_universe]
      · simp
    refine ⟨treeScorer_clause_isAll hall, fun hmatches => ?_⟩
    rw [treeScorer_clause_scoreDoc hall hmatches, List.map_append, List.sum_append]
    -- the anchor adds nothing
    have hanchor : (((if isPurelyNegative clauses then
        [(Occur.must, LogicalAst.boost (.leaf .all) 0)] else
          ([] : List (Occur × LogicalAst Literal)))).map fun entry =>
        if entry.1 ≠ .mustNot ∧ (treeScorer segment entry.2 boost).matchesDoc doc then
          (treeScorer segment entry.2 boost).scoreDoc doc else 0).sum = 0 := by
      split <;> simp [treeScorer_universe]
    rw [hanchor, add_zero, List.map_map, referenceScore_clause, ← List.sum_map_mul_left]
    congr 1
    refine List.map_congr_left fun entry hentry => ?_
    have hmatchesEntry :
        (treeScorer segment (rewrittenTree parser signatureScoring entry.2) boost).matchesDoc doc ↔
          TrimmedMatches parser segment signatureScoring entry.2 doc :=
      rewrittenTree_matchesDoc hdoc entry.2 boost
    simp only [Function.comp_apply]
    by_cases hpositive : entry.1.getD parser.defaultOccur ≠ .mustNot ∧
        TrimmedMatches parser segment signatureScoring entry.2 doc
    · rw [if_pos hpositive, if_pos ⟨hpositive.1, hmatchesEntry.mpr hpositive.2⟩]
      exact (hchild entry hentry hpositive.1).2 (hmatchesEntry.mpr hpositive.2)
    · rw [if_neg hpositive, if_neg fun h => hpositive ⟨h.1, hmatchesEntry.mp h.2⟩, mul_zero]
  | onLeaf leaf =>
    intro boost hwithout
    have hterms : ∀ term ∈ parser.terms leaf,
        (segment.scorerOf term.1
          (boost * signatureBoost signatureScoring leaf * effectiveBoost term.2)).isAll = false := by
      intro term hterm
      simpa using hwithout (1, leaf) (by simp [UserInputAst.positiveLeaves]) term hterm
    have htree : treeScorer segment (rewrittenTree parser signatureScoring (.leaf leaf)) boost =
        treeScorer segment (leafTree parser leaf)
          (boost * signatureBoost signatureScoring leaf) := by
      rw [rewrittenTree_leaf, signatureBoost]
      split
      · exact treeScorer_boost ..
      · rw [mul_one]
    rw [htree, referenceScore_leaf, ← mul_assoc]
    exact ⟨leafTree_isAll hterms, leafTree_scoreDoc hdoc hterms⟩
  | onBoost child factor ih =>
    intro boost hwithout
    rw [rewrittenTree_boost, treeScorer_boosted, referenceScore_boost, ← mul_assoc]
    exact ih _ hwithout.boosted

/-! ## The query that is built -/

theorem buildQuery_eq_ok {ast : UserInputAst} {query : Query Literal}
    (h : parser.buildQueryFromUserInputAst ast = .ok query) :
    query = convertToQuery (parser.logicalAstWithOccur ast).1 := by
  have htree : (parser.logicalAst ast).1 = (parser.logicalAstWithOccur ast).1 := by
    simp only [QueryParser.logicalAst]
    split <;> simp_all
  simp only [QueryParser.buildQueryFromUserInputAst] at h
  split at h
  · next tree hlogical =>
    cases h
    rw [← htree, hlogical]
  · cases h

theorem buildQuery_ok {ast : UserInputAst} (herrors : (parser.logicalAstWithOccur ast).2 = [])
    (hnegative : allNegative (parser.logicalAstWithOccur ast).1 = false) :
    ∃ query, parser.buildQueryFromUserInputAst ast = .ok query := by
  have hlogical : (parser.logicalAst ast).2 = [] := by
    simp only [QueryParser.logicalAst]
    split <;> simp_all
  simp only [QueryParser.buildQueryFromUserInputAst]
  split
  · exact ⟨_, rfl⟩
  · next hcons => simp [hcons] at hlogical

/-- Rewriting leads to no errors of its own. -/
theorem rewritten_errors {ast : UserInputAst} (h : LeavesAccepted parser ast) :
    (parser.logicalAstWithOccur (strictBooleanAst signatureScoring ast)).2 = [] := by
  induction ast using UserInputAst.induction with
  | onClause clauses ih =>
    rw [LeavesAccepted] at h
    rw [strictBooleanAst_clause, QueryParser.logicalAstWithOccur]
    simp only [List.flatMap_eq_nil_iff, List.forall_mem_map, List.forall_mem_append]
    refine ⟨fun entry hentry => ih entry hentry (h entry hentry), ?_⟩
    split <;> simp [zeroScoringUniverse, QueryParser.logicalAstWithOccur,
      QueryParser.logicalAstFromLeaf]
  | onLeaf leaf =>
    rw [LeavesAccepted] at h
    rw [strictBooleanAst_leaf]
    split <;> simp [QueryParser.logicalAstWithOccur, h]
  | onBoost child factor ih =>
    rw [LeavesAccepted] at h
    rw [strictBooleanAst_boost, QueryParser.logicalAstWithOccur]
    exact ih h

theorem allNegative_boosted (ast : LogicalAst Literal) (factor : Rat) :
    allNegative (ast.boosted factor) = allNegative ast := by
  simp only [LogicalAst.boosted]
  split
  · rfl
  · rw [allNegative]

theorem allNegative_clause_eq_false {clauses : List (Occur × LogicalAst Literal)} :
    allNegative (.clause clauses) = false ↔
      ∃ entry ∈ clauses, entry.1 ≠ .mustNot ∧ allNegative entry.2 = false := by
  rw [allNegative]
  simp only [List.all_eq_false, List.mem_attach, true_and, Subtype.exists]
  refine exists_congr fun entry => ?_
  simp [and_left_comm]

theorem allNegative_leafTree {leaf : UserInputLeaf} (h : parser.terms leaf ≠ []) :
    allNegative (leafTree parser leaf) = false := by
  have hterm : ∀ term : LogicalLiteral Literal × Rat,
      allNegative ((LogicalAst.leaf term.1).boosted term.2) = false := by
    intro term
    rw [allNegative_boosted, allNegative]
  rw [leafTree_eq]
  rcases hterms : parser.terms leaf with - | ⟨first, - | ⟨second, rest⟩⟩
  · exact absurd hterms h
  · exact hterm first
  · rw [allNegative_clause_eq_false]
    exact ⟨_, List.mem_cons_self .., by simp, hterm first⟩

/-- An anchored tree with terms in it is never all negative. -/
theorem allNegative_rewrittenTree {ast : UserInputAst} (h : Substantial parser ast) :
    allNegative (rewrittenTree parser signatureScoring ast) = false := by
  induction ast using UserInputAst.induction with
  | onClause clauses ih =>
    rw [Substantial] at h
    rw [rewrittenTree_clause, allNegative_clause_eq_false]
    cases hnegative : isPurelyNegative clauses with
    | true =>
      exact ⟨(.must, .boost (.leaf .all) 0), by simp, by simp, by simp [allNegative]⟩
    | false =>
      -- some operand is not one that must not match
      have hpositive : ∃ entry ∈ clauses, entry.1 ≠ some .mustNot := by
        by_contra hnone
        have hpurely := (isPurelyNegative_iff clauses).mpr ⟨h.1, by simpa using hnone⟩
        simp [hnegative] at hpurely
      obtain ⟨entry, hentry, hoccur⟩ := hpositive
      refine ⟨(entry.1.getD parser.defaultOccur, rewrittenTree parser signatureScoring entry.2),
        ?_, ?_, ih entry hentry (h.2 entry hentry)⟩
      · exact List.mem_append_left _ (List.mem_map_of_mem hentry)
      · cases hoccurs : entry.1 with
        | none => exact defaultOccur_ne_mustNot
        | some occur => simpa [hoccurs] using hoccur
  | onLeaf leaf =>
    rw [Substantial] at h
    rw [rewrittenTree_leaf]
    split
    · rw [allNegative, allNegative_leafTree h]
    · exact allNegative_leafTree h
  | onBoost child factor ih =>
    rw [Substantial] at h
    rw [rewrittenTree_boost, allNegative_boosted, ih h]

theorem Substantial.not_vacant {ast : UserInputAst} (h : Substantial parser ast) :
    ¬ Vacant parser signatureScoring ast := by
  induction ast using UserInputAst.induction with
  | onClause clauses ih =>
    rw [Substantial] at h
    rw [Vacant]
    intro hvacant
    obtain ⟨entry, hentry⟩ := List.exists_mem_of_ne_nil _ h.1
    exact ih entry hentry (h.2 entry hentry) (hvacant.2 entry hentry)
  | onLeaf leaf =>
    rw [Substantial] at h
    rw [Vacant]
    exact fun hvacant => h hvacant.1
  | onBoost child factor ih =>
    rw [Substantial] at h
    rw [Vacant]
    exact fun hvacant => ih h hvacant.2

/-- Where every operand holds a term, none is left out. -/
theorem trimmedMatches_iff_referenceMatches {ast : UserInputAst} (h : Substantial parser ast)
    (doc : Nat) :
    TrimmedMatches parser segment signatureScoring ast doc ↔
      ReferenceMatches parser segment ast doc := by
  simp only [TrimmedMatches, ReferenceMatches]
  induction ast using UserInputAst.induction with
  | onClause clauses ih =>
    rw [Substantial] at h
    have hentry := fun entry hentry => ih entry hentry (h.2 entry hentry)
    have hvacant : ∀ entry ∈ clauses, Vacant parser signatureScoring entry.2 ↔ False :=
      fun entry hentry => iff_false_intro (h.2 entry hentry).not_vacant
    rw [UserInputAst.Denotes, UserInputAst.Denotes]
    split
    · exact forall₂_congr fun entry hmem => not_congr (hentry entry hmem)
    · refine and_congr ?_ (and_congr ?_ (imp_congr ?_ ?_))
      · exact forall₂_congr fun entry hmem =>
          imp_congr Iff.rfl (or_congr (hvacant entry hmem) (hentry entry hmem))
      · exact forall₂_congr fun entry hmem => imp_congr Iff.rfl (not_congr (hentry entry hmem))
      · exact forall₂_congr fun entry hmem => imp_congr Iff.rfl (hvacant entry hmem)
      · exact exists_congr fun entry => exists_congr fun hmem =>
          and_congr_right fun _ => hentry entry hmem
  | onLeaf leaf => rw [UserInputAst.Denotes, UserInputAst.Denotes]
  | onBoost child factor ih =>
    rw [Substantial] at h
    rw [UserInputAst.Denotes, UserInputAst.Denotes]
    exact ih h

/-- `strict_boolean_query` accepts a tree whose leaves are accepted and in which every clause has an
operand and every leaf a term, and its query then matches the documents of the reference meaning.
For every tree it accepts, the query matches the documents of the meaning in which an operand that
must match and holds no term is left out; and where no positive leaf has a match-all scorer, the
score of a document is the sum over the positive leaves that match it. -/
theorem strictBooleanQuery_correct (parser : QueryParser Field Literal)
    (segment : Tantivy.Segment Literal)
    (signatureScoring : SignatureScoring) (ast : UserInputAst) :
    (Substantial parser ast → LeavesAccepted parser ast →
      ∃ query, strictBooleanQuery parser signatureScoring ast = .ok query ∧
        ∀ doc < segment.maxDoc, (weightScorer segment query 1).matchesDoc doc ↔
          ReferenceMatches parser segment ast doc) ∧
    ∀ query, strictBooleanQuery parser signatureScoring ast = .ok query →
      ∀ doc < segment.maxDoc,
        ((weightScorer segment query 1).matchesDoc doc ↔
          TrimmedMatches parser segment signatureScoring ast doc) ∧
        (WithoutMatchAll parser segment signatureScoring 1 ast →
          (weightScorer segment query 1).matchesDoc doc →
          (weightScorer segment query 1).scoreDoc doc =
            referenceScore parser segment signatureScoring ast doc) := by
  have hquery : ∀ query, strictBooleanQuery parser signatureScoring ast = .ok query →
      weightScorer segment query 1 =
        treeScorer segment (rewrittenTree parser signatureScoring ast) 1 := by
    intro query hok
    rw [buildQuery_eq_ok hok]
    rfl
  constructor
  · intro hsubstantial haccepted
    have hsome : ∃ query, strictBooleanQuery parser signatureScoring ast = .ok query :=
      buildQuery_ok (rewritten_errors haccepted) (allNegative_rewrittenTree hsubstantial)
    obtain ⟨query, hok⟩ := hsome
    refine ⟨query, hok, fun doc hdoc => ?_⟩
    rw [hquery query hok, rewrittenTree_matchesDoc hdoc,
      trimmedMatches_iff_referenceMatches hsubstantial]
  · intro query hok doc hdoc
    rw [hquery query hok]
    refine ⟨rewrittenTree_matchesDoc hdoc ast 1, fun hwithout hmatches => ?_⟩
    rw [(rewrittenTree_scoreDoc hdoc ast 1 hwithout).2 hmatches, one_mul]

/-! ## A small index -/

/-- A parser for one field, with the tokens `alpha` and `beta`. -/
def twoTokenParser : QueryParser Unit Nat where
  conjunctionByDefault := false
  fieldBoost _ := 1
  pathTripletsForLiteral literal := .ok [((), "", literal.phrase)]
  logicalAstForLeaf _ _ phrase _ _ :=
    .ok (if phrase = "alpha" then [0] else if phrase = "beta" then [1] else [])
  structuredLeaf _ := (none, [])

/-- Two documents with one token each. -/
def twoDocuments : Tantivy.Segment Nat where
  maxDoc := 2
  literalScorer token boost := .docs (fun doc => doc = token) fun _ => boost
  matchesDoc_boost _ _ _ := rfl
  scoreDoc_boost _ boost _ _ := (mul_one boost).symm

def literalLeaf (fieldName : Option String) (phrase : String) : UserInputAst :=
  .leaf (.literal ⟨fieldName, phrase, 0, false⟩)

theorem terms_literalLeaf (fieldName : Option String) (phrase : String) :
    twoTokenParser.terms (.literal ⟨fieldName, phrase, 0, false⟩) =
      (if phrase = "alpha" then [(.literal 0, 1)] else
        if phrase = "beta" then [(.literal 1, 1)] else []) := by
  simp only [QueryParser.terms, twoTokenParser, QueryParser.fieldLiterals, List.flatMap_cons,
    List.flatMap_nil, List.append_nil]
  split
  · rfl
  · split <;> rfl

/-- `signature:alpha AND (NOT beta)`. -/
def signatureAndNot : UserInputAst :=
  .clause [(some .must, literalLeaf (some "signature") "alpha"),
    (some .must, .clause [(some .mustNot, literalLeaf none "beta")])]

theorem strictBooleanQuery_correct_sample :
    ∃ query, strictBooleanQuery twoTokenParser .plain signatureAndNot = .ok query ∧
      (weightScorer twoDocuments query 1).matchesDoc 0 = true ∧
      (weightScorer twoDocuments query 1).scoreDoc 0 =
        referenceScore twoTokenParser twoDocuments .plain signatureAndNot 0 ∧
      (weightScorer twoDocuments query 1).matchesDoc 1 = false := by
  have hcorrect := strictBooleanQuery_correct twoTokenParser twoDocuments .plain signatureAndNot
  obtain ⟨query, hok, hreference⟩ := hcorrect.1
    (by simp [signatureAndNot, literalLeaf, Substantial, terms_literalLeaf])
    (by simp [signatureAndNot, literalLeaf, LeavesAccepted, QueryParser.logicalAstFromLeaf,
      twoTokenParser, QueryParser.fieldLiterals])
  have hfirst : (weightScorer twoDocuments query 1).matchesDoc 0 = true := by
    rw [hreference 0 (by decide)]
    simp [ReferenceMatches, signatureAndNot, literalLeaf, UserInputAst.Denotes, leafHolds,
      terms_literalLeaf, isPurelyNegative, Tantivy.Segment.scorerOf, twoDocuments]
  have hsecond : ¬ (weightScorer twoDocuments query 1).matchesDoc 1 = true := by
    rw [hreference 1 (by decide)]
    simp [ReferenceMatches, signatureAndNot, literalLeaf, UserInputAst.Denotes, leafHolds,
      terms_literalLeaf, isPurelyNegative, Tantivy.Segment.scorerOf, twoDocuments]
  have hwithout : WithoutMatchAll twoTokenParser twoDocuments .plain 1 signatureAndNot := by
    intro one hone term hterm
    cases hliteral : term.1 with
    | all =>
      simp [signatureAndNot, literalLeaf, UserInputAst.positiveLeaves] at hone
      subst hone
      simp [terms_literalLeaf] at hterm
      simp [hterm] at hliteral
    | literal token => rfl
  exact ⟨query, hok, hfirst, (hcorrect.2 query hok 0 (by decide)).2 hwithout hfirst,
    by simpa using hsecond⟩

/-- `alpha AND !!!`: a phrase without a token. -/
def alphaAndMarks : UserInputAst :=
  .clause [(some .must, literalLeaf none "alpha"), (some .must, literalLeaf none "!!!")]

/-- The parser trims an operand without tokens, and the query matches what the others match. -/
theorem tokenless_operand_is_left_out :
    ∃ query, strictBooleanQuery twoTokenParser .plain alphaAndMarks = .ok query ∧
      (weightScorer twoDocuments query 1).matchesDoc 0 = true ∧
      ¬ ReferenceMatches twoTokenParser twoDocuments alphaAndMarks 0 := by
  have herrors : LeavesAccepted twoTokenParser alphaAndMarks := by
    simp [alphaAndMarks, literalLeaf, LeavesAccepted, QueryParser.logicalAstFromLeaf,
      twoTokenParser, QueryParser.fieldLiterals, QueryParser.fieldError]
  have hnegative : allNegative (rewrittenTree twoTokenParser .plain alphaAndMarks) = false := by
    simp [alphaAndMarks, literalLeaf, rewrittenTree_clause, rewrittenTree_leaf, leafTree_eq,
      terms_literalLeaf, isPurelyNegative, UserInputLeaf.isExplicitSignature, allNegative_boosted,
      allNegative]
  have hsome : ∃ query, strictBooleanQuery twoTokenParser .plain alphaAndMarks = .ok query :=
    buildQuery_ok (rewritten_errors herrors) hnegative
  obtain ⟨query, hok⟩ := hsome
  refine ⟨query, hok, ?_, ?_⟩
  · rw [buildQuery_eq_ok hok]
    refine (rewrittenTree_matchesDoc (by decide) alphaAndMarks 1).mpr ?_
    simp [TrimmedMatches, alphaAndMarks, literalLeaf, UserInputAst.Denotes, leafHolds, Vacant,
      terms_literalLeaf, isPurelyNegative, Tantivy.Segment.scorerOf, twoDocuments,
      UserInputLeaf.isExplicitSignature]
  · simp [ReferenceMatches, alphaAndMarks, literalLeaf, UserInputAst.Denotes, leafHolds,
      terms_literalLeaf, isPurelyNegative]

/-- `alpha AND *`. -/
def alphaAndAll : UserInputAst :=
  .clause [(some .must, literalLeaf none "alpha"), (some .must, .leaf .all)]

/-- A match-all operand is taken out of the operands that must match, and its score with it. -/
theorem match_all_score_is_dropped :
    ∃ query, strictBooleanQuery twoTokenParser .plain alphaAndAll = .ok query ∧
      (weightScorer twoDocuments query 1).matchesDoc 0 = true ∧
      (weightScorer twoDocuments query 1).scoreDoc 0 = 1 ∧
      referenceScore twoTokenParser twoDocuments .plain alphaAndAll 0 = 2 := by
  have hsubstantial : Substantial twoTokenParser alphaAndAll := by
    simp [alphaAndAll, literalLeaf, Substantial, terms_literalLeaf]
    simp [QueryParser.terms]
  have herrors : LeavesAccepted twoTokenParser alphaAndAll := by
    simp [alphaAndAll, literalLeaf, LeavesAccepted, QueryParser.logicalAstFromLeaf,
      twoTokenParser, QueryParser.fieldLiterals]
  have hsome : ∃ query, strictBooleanQuery twoTokenParser .plain alphaAndAll = .ok query :=
    buildQuery_ok (rewritten_errors herrors) (allNegative_rewrittenTree hsubstantial)
  obtain ⟨query, hok⟩ := hsome
  have hall : twoTokenParser.terms .all = [(.all, 1)] := rfl
  have htree : rewrittenTree twoTokenParser .plain alphaAndAll =
      .clause [(.must, .leaf (.literal 0)), (.must, .leaf .all)] := by
    simp [alphaAndAll, literalLeaf, rewrittenTree_clause, rewrittenTree_leaf, leafTree_eq,
      terms_literalLeaf, hall, isPurelyNegative, UserInputLeaf.isExplicitSignature,
      LogicalAst.boosted, isUnitBoost_one]
  have hscorer : weightScorer twoDocuments query 1 =
      .docs (fun doc => doc = 0) (fun _ => 1) := by
    have hquery : weightScorer twoDocuments query 1 =
        treeScorer twoDocuments (rewrittenTree twoTokenParser .plain alphaAndAll) 1 := by
      rw [buildQuery_eq_ok hok]
      rfl
    rw [hquery, htree, treeScorer_clause]
    simp only [keptScorers, List.filter_cons, trimAst_leaf, Option.isSome_some, if_true,
      List.filter_nil, List.map_cons, List.map_nil, treeScorer_leaf]
    rfl
  refine ⟨query, hok, ?_, ?_, ?_⟩
  · rw [hscorer]
    rfl
  · rw [hscorer]
    rfl
  · have hfirst : TrimmedMatches twoTokenParser twoDocuments .plain (literalLeaf none "alpha") 0 := by
      simp [TrimmedMatches, literalLeaf, UserInputAst.Denotes, leafHolds, terms_literalLeaf,
        Tantivy.Segment.scorerOf, twoDocuments]
    have hsecond : TrimmedMatches twoTokenParser twoDocuments .plain (.leaf .all) 0 := by
      simp [TrimmedMatches, UserInputAst.Denotes, leafHolds, hall, Tantivy.Segment.scorerOf,
        Tantivy.Segment.allScorer]
    rw [alphaAndAll, referenceScore_clause]
    simp only [List.map_cons, List.map_nil, hfirst, hsecond, List.sum_cons, List.sum_nil]
    rw [literalLeaf, referenceScore_leaf, referenceScore_leaf]
    simp [signatureBoost, UserInputLeaf.isExplicitSignature, leafScore, terms_literalLeaf, hall,
      Tantivy.Segment.scorerOf, Tantivy.Segment.allScorer, twoDocuments, effectiveBoost,
      isUnitBoost_one]
    norm_num

/-- The query that is built neither matches exactly the documents of the reference meaning nor
scores every positive leaf. -/
theorem built_query_departs_from_reference :
    (∃ query, strictBooleanQuery twoTokenParser .plain alphaAndMarks = .ok query ∧
      (weightScorer twoDocuments query 1).matchesDoc 0 = true ∧
      ¬ ReferenceMatches twoTokenParser twoDocuments alphaAndMarks 0) ∧
    ∃ query, strictBooleanQuery twoTokenParser .plain alphaAndAll = .ok query ∧
      (weightScorer twoDocuments query 1).matchesDoc 0 = true ∧
      (weightScorer twoDocuments query 1).scoreDoc 0 ≠
        referenceScore twoTokenParser twoDocuments .plain alphaAndAll 0 := by
  refine ⟨tokenless_operand_is_left_out, ?_⟩
  obtain ⟨query, hok, hmatches, hscore, hreference⟩ := match_all_score_is_dropped
  refine ⟨query, hok, hmatches, ?_⟩
  rw [hscore, hreference]
  norm_num

end Ivygrep.Native
