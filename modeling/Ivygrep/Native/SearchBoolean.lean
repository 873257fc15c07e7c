import Mathlib
import Ivygrep.Native.TantivyQuery

/-!
# Boolean searches

`boost_explicit_signature_clauses`, `anchor_negative_clauses` and `strict_boolean_query` of
`search_boolean.rs`, and the part of Tantivy's query parser that turns the rewritten tree into a
query. The tokenizers and the schema, which decide what literals a leaf stands for, are parameters
of the parser.
-/

namespace Ivygrep.Native

open Tantivy

/-! ## User input -/

structure UserInputLiteral where
  fieldName : Option String
  phrase : String
  slop : Nat
  prefixed : Bool
  deriving DecidableEq

inductive UserInputBound where
  | inclusive (value : String)
  | exclusive (value : String)
  | unbounded
  deriving DecidableEq

inductive UserInputLeaf where
  | literal (literal : UserInputLiteral)
  | all
  | range (field : Option String) (lower upper : UserInputBound)
  | set (field : Option String) (elements : List String)
  | fieldExists (field : String)
  | regex (field : Option String) (pattern : String)
  deriving DecidableEq

inductive UserInputAst where
  | clause (clauses : List (Option Occur × UserInputAst))
  | leaf (leaf : UserInputLeaf)
  | boost (child : UserInputAst) (boost : Rat)

namespace UserInputAst

theorem sizeOf_child_lt {clauses : List (Option Occur × UserInputAst)}
    {entry : Option Occur × UserInputAst} (h : entry ∈ clauses) :
    sizeOf entry.2 < sizeOf (clause clauses) := by
  have hlt := List.sizeOf_lt_of_mem h
  cases entry with
  | mk occur child => simp at hlt ⊢; omega

/-- Induction on a tree, with the children of a clause as members of its list. -/
theorem induction {motive : UserInputAst → Prop}
    (onClause : ∀ clauses, (∀ entry ∈ clauses, motive entry.2) → motive (clause clauses))
    (onLeaf : ∀ input, motive (leaf input))
    (onBoost : ∀ child factor, motive child → motive (boost child factor)) : ∀ ast, motive ast
  | clause clauses => onClause clauses fun entry _ => induction onClause onLeaf onBoost entry.2
  | leaf input => onLeaf input
  | boost child factor => onBoost child factor (induction onClause onLeaf onBoost child)
termination_by ast => sizeOf ast
decreasing_by
  · exact sizeOf_child_lt ‹_›
  · simp +arith

end UserInputAst

/-! ## Rewriting -/

inductive SignatureScoring where
  | omitted
  | plain
  | boosted
  deriving DecidableEq, Repr

/-- `SignatureScoring::BOOST`. -/
def SignatureScoring.boost : Rat := 5

def SignatureScoring.defaultBoost : SignatureScoring → Rat
  | .plain => 1
  | .boosted | .omitted => SignatureScoring.boost

/-- A literal with an explicit `signature:` field. -/
def UserInputLeaf.isExplicitSignature : UserInputLeaf → Bool
  | .literal input => input.fieldName == some "signature"
  | _ => false

/-- The boost of an explicit `signature:` literal, when the parser scores signatures plainly. -/
def restoredBoost : Rat := SignatureScoring.boost / SignatureScoring.plain.defaultBoost

def boostExplicitSignatureClauses : UserInputAst → UserInputAst
  | .clause clauses =>
    .clause (clauses.map fun entry => (entry.1, boostExplicitSignatureClauses entry.2))
  | .boost child boost => .boost (boostExplicitSignatureClauses child) boost
  | .leaf leaf =>
    if leaf.isExplicitSignature then .boost (.leaf leaf) restoredBoost else .leaf leaf
termination_by ast => sizeOf ast
decreasing_by
  · exact UserInputAst.sizeOf_child_lt ‹_›
  · simp +arith

/-- Whether a clause has children and each of them is one that must not match. -/
def isPurelyNegative (clauses : List (Option Occur × UserInputAst)) : Bool :=
  !clauses.isEmpty && clauses.all (·.1 = some .mustNot)

/-- The universe with score zero that anchors a negative clause. -/
def zeroScoringUniverse : Option Occur × UserInputAst := (some .must, .boost (.leaf .all) 0)

def anchorNegativeClauses : UserInputAst → UserInputAst
  | .clause clauses =>
    let anchored := clauses.map fun entry => (entry.1, anchorNegativeClauses entry.2)
    .clause (if isPurelyNegative anchored then anchored ++ [zeroScoringUniverse] else anchored)
  | .boost child boost => .boost (anchorNegativeClauses child) boost
  | .leaf leaf => .leaf leaf
termination_by ast => sizeOf ast
decreasing_by
  · exact UserInputAst.sizeOf_child_lt ‹_›
  · simp +arith

/-! ## The query parser -/

inductive QueryParserError where
  | allButQueryForbidden
  | onLeaf (message : String)
  deriving DecidableEq

structure QueryParser (Field Literal : Type) where
  conjunctionByDefault : Bool
  fieldBoost : Field → Rat
  /-- `compute_path_triplets_for_literal`: field, JSON path and phrase. -/
  pathTripletsForLiteral : UserInputLiteral → Except QueryParserError (List (Field × String × String))
  /-- `compute_logical_ast_for_leaf`: the literals of a phrase in a field. -/
  logicalAstForLeaf : Field → String → String → Nat → Bool → Except QueryParserError (List Literal)
  /-- The literal of a range, a set, an existence test or a regular expression. -/
  structuredLeaf : UserInputLeaf → Option Literal × List QueryParserError

namespace QueryParser

variable {Field Literal : Type} (parser : QueryParser Field Literal)

def defaultOccur : Occur := if parser.conjunctionByDefault then .must else .should

/-- The literals of a phrase in one field, each with the boost of the field. -/
def fieldLiterals (literal : UserInputLiteral) (triplet : Field × String × String) :
    List (Literal × Rat) :=
  match parser.logicalAstForLeaf triplet.1 triplet.2.1 triplet.2.2 literal.slop literal.prefixed with
  | .ok literals => literals.map fun one => (one, parser.fieldBoost triplet.1)
  | .error _ => []

def fieldError (literal : UserInputLiteral) (triplet : Field × String × String) :
    Option QueryParserError :=
  match parser.logicalAstForLeaf triplet.1 triplet.2.1 triplet.2.2 literal.slop literal.prefixed with
  | .ok _ => none
  | .error error => some error

def logicalAstFromLeaf : UserInputLeaf → Option (LogicalAst Literal) × List QueryParserError
  | .literal literal =>
    match parser.pathTripletsForLiteral literal with
    | .error error => (none, [error])
    | .ok termPhrases =>
      let asts := (termPhrases.flatMap (parser.fieldLiterals literal)).map fun one =>
        (LogicalAst.leaf (.literal one.1)).boosted one.2
      -- a field that fails is no error when another succeeds
      let errors := if asts.isEmpty then termPhrases.filterMap (parser.fieldError literal) else []
      match asts with
      | [ast] => (some ast, errors)
      | _ => (some (.clause (asts.map fun ast => (.should, ast))), errors)
  | .all => (some (.leaf .all), [])
  | leaf =>
    let computed := parser.structuredLeaf leaf
    (computed.1.map fun one => .leaf (.literal one), computed.2)

def logicalAstWithOccur : UserInputAst → LogicalAst Literal × List QueryParserError
  | .clause subQueries =>
    let computed := subQueries.map fun entry =>
      (entry.1.getD parser.defaultOccur, logicalAstWithOccur entry.2)
    (.clause (computed.map fun entry => (entry.1, entry.2.1)), computed.flatMap (·.2.2))
  | .boost child boost =>
    let computed := logicalAstWithOccur child
    (computed.1.boosted boost, computed.2)
  | .leaf leaf =>
    let computed := parser.logicalAstFromLeaf leaf
    -- a leaf that yields nothing becomes an empty clause, which is trimmed later
    (computed.1.getD (.clause []), computed.2)
termination_by ast => sizeOf ast
decreasing_by
  · exact UserInputAst.sizeOf_child_lt ‹_›
  · simp +arith

/-- `compute_logical_ast_lenient` up to the tree that the error goes with, which no strict caller
reads. -/
def logicalAst (ast : UserInputAst) : LogicalAst Literal × List QueryParserError :=
  let (ast, errors) := parser.logicalAstWithOccur ast
  match ast with
  | .clause [] => (ast, errors)
  | _ => (ast, if allNegative ast then errors ++ [.allButQueryForbidden] else errors)

def buildQueryFromUserInputAst (ast : UserInputAst) : Except QueryParserError (Query Literal) :=
  match parser.logicalAst ast with
  | (ast, []) => .ok (convertToQuery ast)
  | (_, error :: _) => .error error

end QueryParser

/-- The rewriting of `strict_boolean_query`. -/
def strictBooleanAst (signatureScoring : SignatureScoring) (ast : UserInputAst) : UserInputAst :=
  if signatureScoring = .plain then boostExplicitSignatureClauses (anchorNegativeClauses ast)
  else anchorNegativeClauses ast

/-- `strict_boolean_query` from the parsed tree on. -/
def strictBooleanQuery {Field Literal : Type} (parser : QueryParser Field Literal)
    (signatureScoring : SignatureScoring) (ast : UserInputAst) :
    Except QueryParserError (Query Literal) :=
  parser.buildQueryFromUserInputAst (strictBooleanAst signatureScoring ast)

end Ivygrep.Native
