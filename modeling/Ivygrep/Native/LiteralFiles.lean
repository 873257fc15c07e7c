import Ivygrep.ForStd.BinaryHeap
import Ivygrep.Native.FileSearchBatch
import Ivygrep.Native.LiteralLines
import Ivygrep.Native.Usize

/-!
# Literal search over files

`search_files` of `search_literal.rs`, with the hits of `search.rs`, in a search that is not
cancelled. `usize::MAX`, which stands for no limit, is `none`: no list is longer.
-/

namespace Ivygrep.Native

open ForStd

def maxLiteralFileScore : Nat := 2 ^ 24

def defaultLiteralPreviewsPerFile : Nat := 3

def maxPreviewLineBytes : Nat := 1024

def previewCutMarker : Str := ['…']

/-- `usize as f32`, which is exact up to `MAX_LITERAL_FILE_SCORE`, as the bits of the result. -/
def f32OfUsize (value : Nat) : UInt32 :=
  if value = 0 then 0
  else
    let exponent := Nat.log2 value
    UInt32.ofNat ((127 + exponent) * 2 ^ 23 + (value - 2 ^ exponent) * 2 ^ (23 - exponent))

/-! ## Previews -/

namespace Str

/-- `str::find` for a string pattern: the byte offset of its first occurrence. -/
def find (pattern : Str) : Str → Option Nat
  | [] => if pattern = [] then some 0 else none
  | c :: rest =>
    if startsWith (c :: rest) pattern then some 0 else (find pattern rest).map (c.utf8Size + ·)

/-- The text from the first character boundary at a byte offset or after it. -/
def dropBytes : Nat → Str → Str
  | _, [] => []
  | offset, c :: rest => if offset = 0 then c :: rest else dropBytes (offset - c.utf8Size) rest

/-- The text up to the last character boundary at a byte offset or before it. -/
def takeBytes : Nat → Str → Str
  | _, [] => []
  | offset, c :: rest =>
    if c.utf8Size ≤ offset then c :: takeBytes (offset - c.utf8Size) rest else []

end Str

/-- Where each character starts in the folded line and in the line. -/
def foldOrigins (lowercase : Lowercase) (folded offset : Nat) : Str → List (Nat × Nat)
  | [] => []
  | character :: rest =>
    (folded, offset) :: foldOrigins lowercase
      (folded + Str.len (lowercase.foldLiteralChar character)) (offset + character.utf8Size) rest

/-- `literal_match_range`. The offsets of the characters ascend, so that `partition_point` finds the
    last one that is not beyond. -/
def literalMatchRange (lowercase : Lowercase) (line queryLower : Str) : Option (Nat × Nat) :=
  if queryLower = [] then none
  else if line.all isAsciiChar then
    (Str.find queryLower (Str.toAsciiLowercase line)).map fun start =>
      (start, start + Str.len queryLower)
  else
    let origins := foldOrigins lowercase 0 0 line
    let sourceOffset := fun foldedOffset =>
      ((origins.takeWhile fun origin => origin.1 ≤ foldedOffset).getLast?.map Prod.snd).getD 0
    (Str.find queryLower (line.flatMap lowercase.foldLiteralChar)).map fun found =>
      let last := sourceOffset (found + Str.len queryLower - 1)
      (sourceOffset found, last + ((Str.dropBytes last line).head?.map Char.utf8Size).getD 0)

/-- `preview_line_window`. -/
def previewLineWindow (line : Str) (firstMatch : Option (Nat × Nat)) : Str :=
  if Str.len line ≤ maxPreviewLineBytes then line
  else
    let found := firstMatch.filter fun found => found.1 ≤ found.2 ∧ found.2 ≤ Str.len line
    let start := match found with
      | none => 0
      | some (start, stop) =>
        min (start - (maxPreviewLineBytes - (stop - start)) / 2)
          (Str.len line - maxPreviewLineBytes)
    let after := Str.dropBytes start line
    let window := Str.takeBytes maxPreviewLineBytes after
    (if 0 < start then previewCutMarker else []) ++ window ++
      (if Str.len window < Str.len after then previewCutMarker else [])

/-- `literal_preview`. -/
def literalPreview (lowercase : Lowercase) (lines : List Str) (startLine matchLine : Nat)
    (queryLower : Str) : Str :=
  Str.join ['\n'] <| lines.mapIdx fun offset line =>
    let found :=
      if startLine + offset = matchLine ∧ maxPreviewLineBytes < Str.len line then
        literalMatchRange lowercase line queryLower
      else none
    previewLineWindow line found

/-- `snippet_bounds`. -/
def snippetBounds (focusLine contextLines lineCount : Nat) : Nat × Nat :=
  (max (focusLine - contextLines) 1, min (saturatingAdd focusLine contextLines) lineCount)

/-- `truncate_for_reason`. -/
def truncateForReason (line : Str) : Str :=
  if line.length ≤ 120 then line else line.take 120 ++ "...".toList

section

variable {Path : Type}

/-- The hit of a line with the literal. -/
def literalHit (lowercase : Lowercase) (relPath : Path) (queryLower : Str) (context : Nat)
    (lines : List Str) (line : Str × Nat) : SearchHit Path :=
  let lineNumber := saturatingAdd line.2 1
  let bounds := snippetBounds lineNumber context lines.length
  { filePath := relPath
    startLine := bounds.1
    endLine := bounds.2
    preview := literalPreview lowercase ((lines.take bounds.2).drop (bounds.1 - 1)) bounds.1
      lineNumber queryLower
    reason := "literal match: ".toList ++ truncateForReason (Str.trim line.1)
    score := 0x3f800000
    sources := ["literal".toList]
    neuralRequested := false
    neuralExecuted := false }

/-- `literal_hits_in_content`: the file order of the hits is that of the lines. -/
def literalHitsInContent (lowercase : Lowercase) (content : Str) (relPath : Path)
    (queryLower : Str) (context : Nat) (maxHits : Option Nat) : List (SearchHit Path) :=
  if ((Str.bytes content).take textSniffBytes).contains 0 then []
  else
    let lines := Str.lines content
    let found := lines.zipIdx.filter fun line =>
      Str.contains (lowercase.foldLiteralCase line.1) queryLower
    (BinaryHeap.takeUpTo maxHits found).map
      (literalHit lowercase relPath queryLower context lines)

end

/-! ## Reading files -/

/-- `Read::read_to_end`, which tries an interrupted read again; `none` where a read fails. -/
def readToEnd {ε : Type} : List (LineRead ε) → Option (List UInt8)
  | [] => some []
  | .interrupted :: reads => readToEnd reads
  | .failed _ :: _ => none
  | .bytes read :: reads => (readToEnd reads).map (read.val ++ ·)

/-- `RootHandle::read_to_string` of a file that was opened, if it could be. -/
def readToString {ε : Type} (opened : Option (List (LineRead ε))) : Option Str :=
  (opened.bind readToEnd).map Str.fromUtf8Lossy

/-- The passes over the files. Each of them opens a file at most once. -/
inductive ReadPass where
  | select
  | read
  | reselectCount
  | reselectRead

/-- The files of a root, with what the reads of each give in each pass. A file that cannot be opened
    has no reads. -/
abbrev LiveFiles (Path ε : Type) := ReadPass → Path → Option (List (LineRead ε))

inductive FileSearchMode where
  | files
  | fileNames
  | singleFileName
  deriving DecidableEq

structure RankedFile (Path : Type) where
  relative : Path
  absolute : Path
  matchCount : Nat
  matchesAreLowerBound : Bool

/-- `RankedFile::score`. -/
def RankedFile.score {Path : Type} (file : RankedFile Path) : Nat :=
  min file.matchCount maxLiteralFileScore

/-- What the search does not decide: how each pass shares out the candidates, in which order its
    heaps give their entries, and how a text in memory is read. -/
structure Schedule (Path ε : Type) where
  share : ReadPass → List (Path × Path) → Partition (Path × Path)
  share_items : ∀ pass candidates, (share pass candidates).items = candidates
  rankedFiles : BinaryHeap.EntryOrder (RankedFile Path)
  rankedResults : BinaryHeap.EntryOrder (FileSearchResult Path)
  textReads : Str → List (LineRead ε)
  textReads_all : ∀ text, readToEnd (textReads text) = some (Str.bytes text)

/-- `FileSearch`. A candidate is the pair of its relative and its absolute path. -/
structure FileSearch (Path ε : Type) where
  lowercase : Lowercase
  files : LiveFiles Path ε
  queryLower : Str
  context : Nat
  maxFiles : Option Nat
  paths : List (Path × Path)
  mode : FileSearchMode

/-- `compare_rank`. -/
def compareRank {Path : Type} [LinearOrder Path] (leftMatches : Nat) (leftPath : Path)
    (rightMatches : Nat) (rightPath : Path) : Ordering :=
  (compare rightMatches leftMatches).then (compare leftPath rightPath)

/-- `Ord for RankedFile`: the file that is not after the other. -/
def RankedFile.NotAfter {Path : Type} [LinearOrder Path] (left right : RankedFile Path) : Prop :=
  compareRank left.matchCount left.relative right.matchCount right.relative ≠ .gt

/-- `Ord for RankedResult`. -/
def RankedResult.NotAfter {Path : Type} [LinearOrder Path]
    (left right : FileSearchResult Path) : Prop :=
  compareRank left.hitCount left.filePath right.hitCount right.filePath ≠ .gt

instance RankedFile.decidableNotAfter {Path : Type} [LinearOrder Path] :
    DecidableRel (@RankedFile.NotAfter Path _) :=
  fun left right => inferInstanceAs (Decidable
    (compareRank left.matchCount left.relative right.matchCount right.relative ≠ .gt))

instance RankedResult.decidableNotAfter {Path : Type} [LinearOrder Path] :
    DecidableRel (@RankedResult.NotAfter Path _) :=
  fun left right => inferInstanceAs (Decidable
    (compareRank left.hitCount left.filePath right.hitCount right.filePath ≠ .gt))

namespace FileSearch

variable {Path ε : Type} [LinearOrder Path] (search : FileSearch Path ε)
  (schedule : Schedule Path ε)

/-- `LineMatcher::new` of the query. -/
def matcher : LineMatcher := LineMatcher.new search.queryLower

/-! ## One file -/

/-- `FileSearch::count_file`. -/
def countFile (pass : ReadPass) (absolute : Path) (stopAfterFirstMatch : Bool) :
    Option LineCount :=
  match search.files pass absolute with
  | none => none
  | some reads =>
    match search.matcher.countLines search.lowercase (fun _ => false) stopAfterFirstMatch reads with
    | .ok count => count
    | .error _ => none

/-- `FileSearch::read_matching_content`. -/
def readMatchingContent (pass : ReadPass) (absolute : Path) : Option (Str × Nat) :=
  match readToString (search.files pass absolute) with
  | none => none
  | some content =>
    match search.matcher.countLines search.lowercase (fun _ => false) false
        (schedule.textReads content) with
    | .ok (some count) => if 0 < count.matchCount then some (content, count.matchCount) else none
    | _ => none

/-- `FileSearch::result_for_content`. -/
def resultForContent (relative : Path) (content : Str) (matchCount : Nat) :
    Option (FileSearchResult Path) :=
  let hits := literalHitsInContent search.lowercase content relative search.queryLower
    search.context (some defaultLiteralPreviewsPerFile)
  if hits = [] then none
  else
    let matchCount := max matchCount hits.length
    some {
      filePath := relative
      totalScore := f32OfUsize (min matchCount maxLiteralFileScore)
      hitCount := matchCount
      moreHitsInFile := matchCount - hits.length
      hitCountIsLowerBound := false
      hits := hits }

/-! ## Selection -/

/-- The ranked file of a candidate with a match. -/
def rankedFile (candidate : Path × Path) : Option (RankedFile Path) :=
  (search.countFile .select candidate.2 (search.mode = .singleFileName)).bind fun count =>
    if 0 < count.matchCount then
      some ⟨candidate.1, candidate.2, count.matchCount, count.isLowerBound⟩
    else none

/-- The step of the fold in `select_ranked_files`. -/
def selectStep (heap : List (RankedFile Path)) (candidate : Path × Path) :
    List (RankedFile Path) :=
  match search.rankedFile candidate with
  | none => heap
  | some file => BinaryHeap.pushBounded RankedFile.NotAfter search.maxFiles heap file

/-- `FileSearch::select_ranked_files`. -/
def selectRankedFiles : List (RankedFile Path) :=
  let selected :=
    if search.maxFiles.all (search.paths.length ≤ ·) then search.paths.filterMap search.rankedFile
    else
      schedule.rankedFiles.entries <|
        (schedule.share .select search.paths).foldReduce [] search.selectStep
          (BinaryHeap.mergeBounded RankedFile.NotAfter schedule.rankedFiles search.maxFiles)
  selected.insertionSort RankedFile.NotAfter

/-- `FileSearch::would_select`. -/
def wouldSelect (heap : List (FileSearchResult Path)) (path : Path) (count : Nat) : Bool :=
  search.maxFiles.all (heap.length < ·) || (BinaryHeap.peek heap).any fun worst =>
    compareRank count path worst.hitCount worst.filePath = .lt

/-- The step of the fold in `reselect_live_files`. -/
def reselectStep (heap : List (FileSearchResult Path)) (candidate : Path × Path) :
    List (FileSearchResult Path) :=
  match search.countFile .reselectCount candidate.2 false with
  | none => heap
  | some count =>
    if 0 < count.matchCount ∧ search.wouldSelect heap candidate.1 count.matchCount then
      match search.readMatchingContent schedule .reselectRead candidate.2 with
      | none => heap
      | some (content, count) =>
        if search.wouldSelect heap candidate.1 count then
          match search.resultForContent candidate.1 content count with
          | none => heap
          | some result =>
            BinaryHeap.pushBounded RankedResult.NotAfter search.maxFiles heap result
        else heap
    else heap

/-- `FileSearch::reselect_live_files`. The heap is in order already. -/
def reselectLiveFiles : List (FileSearchResult Path) :=
  (schedule.share .reselectCount search.paths).foldReduce [] (search.reselectStep schedule)
    (BinaryHeap.mergeBounded RankedResult.NotAfter schedule.rankedResults search.maxFiles)

/-- The result of a selected file, read again. -/
def readSelectedFile (file : RankedFile Path) : Option (FileSearchResult Path) :=
  (search.readMatchingContent schedule .read file.absolute).bind fun read =>
    search.resultForContent file.relative read.1 read.2

/-- `FileSearch::read_selected_files`. -/
def readSelectedFiles (selected : List (RankedFile Path)) : List (FileSearchResult Path) :=
  let results := selected.map fun file =>
    let result := search.readSelectedFile schedule file
    (result, decide ((result.map FileSearchResult.hitCount).getD 0 ≠ file.matchCount))
  if results.any Prod.snd then search.reselectLiveFiles schedule
  else results.filterMap Prod.fst

/-! ## The search -/

/-- The result of a candidate in a search without a limit. -/
def unlimitedResult (candidate : Path × Path) : Option (FileSearchResult Path) :=
  (readToString (search.files .select candidate.2)).bind fun content =>
    let hits := literalHitsInContent search.lowercase content candidate.1 search.queryLower
      search.context none
    if hits = [] then none
    else
      some {
        filePath := candidate.1
        totalScore := f32OfUsize (min hits.length maxLiteralFileScore)
        hitCount := hits.length
        moreHitsInFile := 0
        hitCountIsLowerBound := false
        hits := hits }

/-- `search_files`. -/
def searchFiles : List (FileSearchResult Path) :=
  if search.maxFiles = some 0 ∨ '\n' ∈ search.queryLower then []
  else if search.mode = .files ∧ search.maxFiles = none then
    (search.paths.filterMap search.unlimitedResult).insertionSort RankedResult.NotAfter
  else
    let selected := search.selectRankedFiles schedule
    if search.mode ≠ .files then
      selected.map fun file => {
        filePath := file.relative
        totalScore := f32OfUsize file.score
        hitCount := file.matchCount
        moreHitsInFile := file.matchCount
        hitCountIsLowerBound := file.matchesAreLowerBound
        hits := [] }
    else search.readSelectedFiles schedule selected

end FileSearch

end Ivygrep.Native
