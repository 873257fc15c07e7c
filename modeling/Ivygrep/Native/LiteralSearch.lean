import Ivygrep.ForStd.Partition
import Ivygrep.Native.LiteralFiles

/-!
# Literal search over lines

`literal_search_paths` and `literal_hits_for_file` of `search.rs`, in a search that is not
cancelled. A candidate is the pair of its relative and its absolute path. `usize::MAX`, which stands
for no limit, is `none`: no list of hits is longer.
-/

namespace Ivygrep.Native

open ForStd

/-- What the search for a folded query reads: a file that cannot be read has no content. -/
structure LiteralSearch (Path : Type) where
  lowercase : Lowercase
  readToString : Path → Option Str
  queryLower : Str
  context : Nat

/-- The comparison of `sort_by` in `merge_hits`. -/
def compareSnippets {Path : Type} [LinearOrder Path] (left right : SearchHit Path) : Ordering :=
  (compare left.filePath right.filePath).then
    ((compare left.startLine right.startLine).then (compare left.endLine right.endLine))

/-- The hit that is not after the other. -/
def SnippetNotAfter {Path : Type} [LinearOrder Path] (left right : SearchHit Path) : Prop :=
  compareSnippets left right ≠ .gt

instance SnippetNotAfter.decidable {Path : Type} [LinearOrder Path] :
    DecidableRel (@SnippetNotAfter Path _) :=
  fun left right => inferInstanceAs (Decidable (compareSnippets left right ≠ .gt))

namespace LiteralSearch

variable {Path : Type} [LinearOrder Path] (search : LiteralSearch Path)

/-- `literal_hits_for_file`. -/
def literalHitsForFile (maxHits : Option Nat) (candidate : Path × Path) : List (SearchHit Path) :=
  match search.readToString candidate.2 with
  | none => []
  | some content =>
    literalHitsInContent search.lowercase content candidate.1 search.queryLower search.context
      maxHits

/-- `merge_hits`. -/
def mergeHits (maxHits : Option Nat) (left right : List (SearchHit Path)) :
    List (SearchHit Path) :=
  BinaryHeap.takeUpTo maxHits ((left ++ right).insertionSort SnippetNotAfter)

/-- `literal_search_paths`. The candidates of a limited search are shared out among workers, each of
which folds its own, and the results are reduced. -/
def literalSearchPaths (maxHits : Option Nat) (paths : Partition (Path × Path)) :
    List (SearchHit Path) :=
  match maxHits with
  | none => mergeHits none [] (paths.items.flatMap (search.literalHitsForFile none))
  | some _ =>
    paths.foldReduce []
      (fun hits candidate => mergeHits maxHits hits (search.literalHitsForFile maxHits candidate))
      (mergeHits maxHits)

end LiteralSearch

end Ivygrep.Native
