import Ivygrep.ForStd.Binary32
import Ivygrep.ForStd.Ranking
import Ivygrep.Native.DenseFusion
import Ivygrep.Native.Symbols

/-!
# The score filter

`filter_meaningful_scores_with_query`, the two passes of it that `fuse_rrf_with_context` merges when
candidates have a lexical vote, and the order in which `search_hits` puts what is left. A score is an
`f32`. What authority, path and support say of a candidate are parameters, as are the thresholds
that come from the mean and the variance, and the products with ratios.
-/

namespace Ivygrep.Native

open ForStd

/-- A candidate with the score that the code gives it. -/
abbrev ScoredRow := RankedCandidate Binary32

def RankedCandidate.key (item : ScoredRow) : UInt64 := item.chunk.vectorKey

def RankedCandidate.isBackfill (item : ScoredRow) : Bool := item.sources &&& sourceBackfill != 0

/-- `MIN_FILTERED_RESULTS`. -/
def minFilteredResults : Nat := 10

/-- The bits of `0.99` are those of `16609444 / 2 ^ 24`. -/
def decay (score : Binary32) : Binary32 := Binary32.scale 16609444 score

/-- What the filter knows of its query. -/
structure ScoreFilter where
  pathKey : Str → UInt64
  preciseQuery : Bool
  /-- `authority >= authority_floor` for a candidate of a ranking. -/
  hasEnoughAuthority : List ScoredRow → ScoredRow → Bool
  /-- `file_stem_boost(..) >= 0.5`. -/
  isStrongPath : IndexedChunk → Bool
  adaptiveThreshold : List ScoredRow → Binary32
  /-- `adaptive_threshold * 0.7`. -/
  literalThreshold : Binary32 → Binary32
  /-- Whether `filter_semantic_only_scores` returns candidates of a ranking, and which of them. -/
  acceptsSemantic : List ScoredRow → Bool
  supportsSemantic : List ScoredRow → ScoredRow → Bool
  /-- The product of a score and a ratio. -/
  timesRatio : Binary32 → Binary32 → Binary32

/-- The lists that the loop of the filter fills. -/
structure Sifted where
  filtered : List ScoredRow
  backfill : List ScoredRow
  fallback : Option ScoredRow

namespace ScoreFilter

variable (filter : ScoreFilter)

/-- `path_key` of a candidate. -/
def fileOf (item : ScoredRow) : UInt64 := filter.pathKey item.chunk.filePath

/-! ## One pass -/

def isMeaningful (threshold : Binary32) (enoughAuthority : Bool) (item : ScoredRow) : Bool :=
  if hasPathSource item.sources && filter.isStrongPath item.chunk then enoughAuthority
  else if hasLiteralSource item.sources then
    enoughAuthority &&
      (filter.preciseQuery || item.score.ge (filter.literalThreshold threshold))
  else item.score.ge threshold && enoughAuthority

/-- One candidate of the loop. -/
def siftOne (ranked : List ScoredRow) (enableBackfill : Bool) (sifted : Sifted)
    (entry : ScoredRow × Nat) : Sifted :=
  let (item, index) := entry
  let enoughAuthority := filter.hasEnoughAuthority ranked item
  if filter.isMeaningful (filter.adaptiveThreshold ranked) enoughAuthority item then
    { sifted with filtered := sifted.filtered ++ [item] }
  else if enableBackfill && enoughAuthority &&
      decide (sifted.backfill.length < minFilteredResults) then
    { sifted with backfill := sifted.backfill ++ [item] }
  else if index == 0 && hasDirectSource item.sources && enoughAuthority then
    { sifted with fallback := some item }
  else sifted

def sift (ranked : List ScoredRow) (enableBackfill : Bool) : Sifted :=
  ranked.zipIdx.foldl (filter.siftOne ranked enableBackfill) ⟨[], [], none⟩

/-- The cap of what follows a list: `step` of its last score. -/
def nextScore (step : Binary32 → Binary32) (items : List ScoredRow) : Binary32 :=
  (items.getLast?.map fun item => step item.score).getD Binary32.maxFinite

/-- The loop over the backfill, until there is no room. -/
def fillBackfill (room : Nat) (selected : List UInt64) (next : Binary32) :
    List ScoredRow → List ScoredRow
  | [] => []
  | item :: items =>
    if item.key ∈ selected then fillBackfill room selected next items
    else
      let score := Binary32.minNum item.score next
      { item with score := score, sources := item.sources ||| sourceBackfill } ::
        if room = 1 then []
        else fillBackfill (room - 1) (item.key :: selected) (decay score) items

/-- `filter_semantic_only_scores`. -/
def filterSemanticOnlyScores (ranked : List ScoredRow) : List ScoredRow :=
  if filter.acceptsSemantic ranked then
    (ranked.filter (filter.supportsSemantic ranked)).take (if filter.preciseQuery then 1 else 3)
  else []

/-- `filter_meaningful_scores_with_query`. -/
def filterMeaningfulScores (ranked : List ScoredRow) (enableBackfill : Bool) : List ScoredRow :=
  if !ranked.any fun item => hasDirectSource item.sources then
    filter.filterSemanticOnlyScores ranked
  else
    match ranked with
    | [] => []
    | [item] => if filter.hasEnoughAuthority [item] item then [item] else []
    | _ =>
      let sifted := filter.sift ranked enableBackfill
      let filtered := if sifted.filtered.isEmpty then sifted.fallback.toList else sifted.filtered
      if enableBackfill && decide (filtered.length < minFilteredResults) then
        filtered ++ fillBackfill (minFilteredResults - filtered.length)
          (filtered.map RankedCandidate.key) (nextScore decay filtered) sifted.backfill
      else filtered

/-! ## The lexical vote -/

/-- The score without the vote. A candidate that has no ratio is multiplied with `1.0`. -/
def unvotedScore (ratios : ScoreMap Binary32) (item : ScoredRow) : Binary32 :=
  match ratios[item.key]? with
  | none => item.score
  | some ratio => filter.timesRatio item.score ratio

def unvoted (ranked : List ScoredRow) (ratios : ScoreMap Binary32) : List ScoredRow :=
  (ranked.map fun item => { item with score := filter.unvotedScore ratios item }).insertionSort
    RankedCandidate.NotAfter

/-- `voted_scores[..]`. -/
def votedScore (ranked : List ScoredRow) (item : ScoredRow) : Binary32 :=
  ((ranked.reverse.find? fun other => other.key == item.key).map RankedCandidate.score).getD
    item.score

/-- The loops that cap scores. -/
def capScores (step : Binary32 → Binary32) (next : Binary32) : List ScoredRow → List ScoredRow
  | [] => []
  | item :: items =>
    let score := Binary32.minNum item.score next
    { item with score := score } :: capScores step (step score) items

/-- What the pass without the vote kept and the pass with it did not, in voted order. -/
def rescueCandidates (ranked unvotedPass kept : List ScoredRow) : List ScoredRow :=
  let returned := kept.map RankedCandidate.key
  ((unvotedPass.filter fun item => !item.isBackfill && !returned.contains item.key).map
    fun item => { item with score := votedScore ranked item }).insertionSort
      RankedCandidate.NotAfter

/-- The two passes of `fuse_rrf_with_context`. -/
def mergeVotes (ranked : List ScoredRow) (ratios : ScoreMap Binary32) (enableBackfill : Bool) :
    List ScoredRow :=
  let (backfilled, kept) :=
    (filter.filterMeaningfulScores ranked enableBackfill).partition RankedCandidate.isBackfill
  let unvotedPass :=
    filter.filterMeaningfulScores (filter.unvoted ranked ratios) enableBackfill
  let rescued := retainFirst filter.fileOf (kept.map filter.fileOf)
    (rescueCandidates ranked unvotedPass kept)
  let kept := kept ++ capScores id (nextScore id kept) rescued
  let backfilled := backfilled.filter fun item =>
    !(kept.map RankedCandidate.key).contains item.key
  kept ++ capScores decay (nextScore decay kept) backfilled

end ScoreFilter

/-! ## The hits of a search -/

/-- `filtered.truncate(limit)`. -/
def truncateTo (limit : Option Nat) (merged : List ScoredRow) : List ScoredRow :=
  match limit with
  | none => merged
  | some limit => merged.take limit

/-- `source_list`. -/
def sourceList (mask : SourceMask) : List Str :=
  ([("exact-symbol", 0), ("hash", 1), ("lexical", 2), ("literal", 3), ("neural", 4), ("path", 5),
    ("semantic", 6), ("symbol", 7), ("inferred-symbol", 8), ("backfill", 9)].filter
      fun (_, bit) => mask &&& (1 : SourceMask) <<< bit != 0).map fun (source, _) => source.toList

/-- What `prepare_hit` reads of the files, and the files that are not found. -/
structure HitPresentation where
  lines : ScoredRow → Nat × Nat
  preview : ScoredRow → Str
  reason : ScoredRow → Str
  neuralRequested : Bool
  neuralExecuted : Bool
  isNotFound : Str → Bool

namespace HitPresentation

variable (presentation : HitPresentation)

def prepareHit (item : ScoredRow) : SearchHit Str where
  filePath := item.chunk.filePath
  startLine := (presentation.lines item).1
  endLine := (presentation.lines item).2
  preview := presentation.preview item
  reason := presentation.reason item
  score := item.score.bits
  sources := sourceList item.sources
  neuralRequested := presentation.neuralRequested
  neuralExecuted := presentation.neuralExecuted

/-- The hits of the files, in the order in which the map has them. -/
def groupedHits (merged : List ScoredRow) (files : List Str) : List (SearchHit Str) :=
  (files.filter fun path => !presentation.isNotFound path).flatMap fun path =>
    (merged.filter fun item => item.chunk.filePath = path).map presentation.prepareHit

/-- The comparison of the sort: by score, path and lines. -/
def hitOrder (hit : SearchHit Str) :
    Binary32ᵒᵈ ×ₗ List (Nat ×ₗ List Nat) ×ₗ Nat ×ₗ Nat :=
  toLex (OrderDual.toDual ⟨hit.score⟩, toLex (Symbols.pathOrder hit.filePath,
    toLex (hit.startLine, hit.endLine)))

def HitNotAfter (left right : SearchHit Str) : Prop := hitOrder left ≤ hitOrder right

instance : DecidableRel HitNotAfter :=
  fun left right => inferInstanceAs (Decidable (hitOrder left ≤ hitOrder right))

def isBackfilled (hit : SearchHit Str) : Bool := hit.sources.contains "backfill".toList

/-- The hits after the sort of `search_hits`. -/
def sortedHits (merged : List ScoredRow) (files : List Str) : List (SearchHit Str) :=
  (presentation.groupedHits merged files).insertionSort HitNotAfter

/-- `accepted_len`. -/
def acceptedLen (hits : List (SearchHit Str)) : Nat := hits.findIdx isBackfilled

end HitPresentation

end Ivygrep.Native
