import Ivygrep.ForStd.Partition
import Ivygrep.ForStd.TreeWalk
import Ivygrep.Native.FileSearchBatch
import Mathlib.Data.List.Lex

/-!
# Regex search over files

`regex_search_parallel` and `regex_search_walk` of `regex_search.rs`, in a search that is not
cancelled. A path is the list of its names. `usize::MAX`, which stands for no limit, is `none`: no
list of hits is longer.
-/

namespace Ivygrep.Native

open ForStd

def regexParallelBatchFiles : Nat := 256

/-- The lines that the searcher reports of a file, with their numbers, and the error that ends the
    search, if one does. -/
structure FileScan (ε : Type) where
  lines : List (Nat × Str)
  ascending : (lines.map Prod.fst).Pairwise (· < ·)
  failure : Option ε

/-- A compiled pattern with the files of a workspace. A file that cannot be opened has no scan. -/
structure RegexFiles (Name ε : Type) where
  scan : List Name → Option (FileScan ε)
  regexPreviewLine : Str → Str

/-- What `type_filter_match_for_path` says. -/
inductive PathTypeFilterMatch where
  | accept
  | validateText
  | reject
  deriving DecidableEq

/-- The lines that a sink takes which goes on as long as there is room after a line. -/
def sinkLines {α : Type} (room : Option Nat) : List α → List α
  | [] => []
  | line :: lines =>
    match room with
    | none => line :: sinkLines none lines
    | some room => if room ≤ 1 then [line] else line :: sinkLines (some (room - 1)) lines

/-- The comparison of `sort_by`. -/
def compareHits {Path : Type} [LinearOrder Path] (left right : SearchHit Path) : Ordering :=
  (compare left.filePath right.filePath).then (compare left.startLine right.startLine)

def sortHits {Path : Type} [LinearOrder Path] (hits : List (SearchHit Path)) :
    List (SearchHit Path) :=
  hits.insertionSort fun left right => compareHits left right ≠ .gt

section

variable {Name ε : Type} [LinearOrder Name]

def lineHit (files : RegexFiles Name ε) (path : List Name) (line : Nat × Str) :
    SearchHit (List Name) where
  filePath := path
  startLine := line.1
  endLine := line.1
  preview := files.regexPreviewLine line.2
  reason := "regex line match".toList
  score := 0x3f800000
  sources := ["regex".toList]
  neuralRequested := false
  neuralExecuted := false

/-- `search_file`: what was found before an error counts. -/
def searchFile (files : RegexFiles Name ε) (maxHits : Option Nat) (path : List Name) :
    List (SearchHit (List Name)) :=
  match files.scan path with
  | none => []
  | some scan => (sinkLines maxHits scan.lines).map (lineHit files path)

/-! ## Known files -/

/-- `merge_hits`. -/
def mergeHits (maxHits : Nat) (left right : List (SearchHit (List Name))) :
    List (SearchHit (List Name)) :=
  (sortHits (left ++ right)).take maxHits

/-- How the files of each batch are shared out. -/
structure Sharing (Name : Type) where
  share : List (List Name) → Partition (List Name)
  items : ∀ batch, (share batch).items = batch

/-- The hits of one batch. -/
def searchBatch (files : RegexFiles Name ε) (sharing : Sharing Name) (maxHits : Nat)
    (batch : List (List Name)) : List (SearchHit (List Name)) :=
  (sharing.share batch).foldReduce []
    (fun hits path => mergeHits maxHits hits (searchFile files (some maxHits) path))
    (mergeHits maxHits)

/-- The loop over the batches, which stops when there are enough hits. -/
def searchBatches (files : RegexFiles Name ε) (sharing : Sharing Name) (maxHits : Nat)
    (hits : List (SearchHit (List Name))) :
    List (List (List Name)) → List (SearchHit (List Name))
  | [] => hits
  | batch :: batches =>
    let hits := mergeHits maxHits hits (searchBatch files sharing maxHits batch)
    if maxHits ≤ hits.length then hits else searchBatches files sharing maxHits hits batches

/-- `regex_search_parallel`. -/
def regexSearchParallel (files : RegexFiles Name ε) (sharing : Sharing Name)
    (filePaths : List (List Name)) (maxHits : Option Nat) : List (SearchHit (List Name)) :=
  match maxHits with
  | none => sortHits (filePaths.flatMap (searchFile files none))
  | some maxHits =>
    searchBatches files sharing maxHits [] (chunks regexParallelBatchFiles filePaths)

/-! ## A walk -/

/-- Which files of a walk count: the scope with the globs, the type filter, and
    `unknown_file_is_indexable_text`. -/
structure WalkFilter (Name : Type) where
  admits : List Name → Bool
  typeFilterMatch : List Name → PathTypeFilterMatch
  isIndexableText : List Name → Bool

/-- `max_hits.saturating_sub(hits.len())`. -/
def remainingHits (maxHits : Option Nat) (hits : List (SearchHit (List Name))) : Option Nat :=
  maxHits.map (· - hits.length)

/-- The loop that pushes the hits of a file, and whether it leaves the walk. -/
def pushHits (maxHits : Option Nat) (hits : List (SearchHit (List Name))) :
    List (SearchHit (List Name)) → List (SearchHit (List Name)) × Bool
  | [] => (hits, false)
  | hit :: rest =>
    let hits := hits ++ [hit]
    if maxHits.any (· ≤ hits.length) then (hits, true) else pushHits maxHits hits rest

/-- The error of a search, which is not met where the sink has stopped before. -/
def searchFailure (room : Option Nat) (scan : FileScan ε) : Option ε :=
  if room.any (· ≤ scan.lines.length) then none else scan.failure

/-- The loop over the entries of the walk. -/
def walkHits (files : RegexFiles Name ε) (filter : WalkFilter Name) (maxHits : Option Nat)
    (hits : List (SearchHit (List Name))) :
    List (List Name × Option Bool) → Except ε (List (SearchHit (List Name)))
  | [] => .ok hits
  | (path, isFile) :: entries =>
    if isFile ≠ some true ∨ filter.admits path = false ∨
        filter.typeFilterMatch path = .reject then
      walkHits files filter maxHits hits entries
    else
      let remaining := remainingHits maxHits hits
      if remaining = some 0 then .ok hits
      else
        match files.scan path with
        | none => walkHits files filter maxHits hits entries
        | some scan =>
          match searchFailure remaining scan with
          | some error => .error error
          | none =>
            let localHits := (sinkLines remaining scan.lines).map (lineHit files path)
            if filter.typeFilterMatch path = .validateText ∧ localHits ≠ [] ∧
                filter.isIndexableText path = false then
              walkHits files filter maxHits hits entries
            else
              let pushed := pushHits maxHits hits localHits
              if pushed.2 then .ok pushed.1 else walkHits files filter maxHits pushed.1 entries

/-- `regex_search_walk`, over what the walker yields of the workspace: the tree says of each entry
    that is no directory whether it is a regular file. -/
def regexSearchWalk (files : RegexFiles Name ε) (filter : WalkFilter Name)
    (tree : ForStd.FileTree Name Bool) (maxHits : Option Nat) :
    Except ε (List (SearchHit (List Name))) :=
  walkHits files filter maxHits [] tree.walk

end

end Ivygrep.Native
