import Ivygrep.ForStd.Exchange
import Ivygrep.Native.RankedCandidate
import Mathlib.Algebra.Order.Field.Basic

/-!
# Late dense fusion

`fuse_dense_file_order` of `search_fusion.rs`, without rounding: scores are of an ordered field. The
`xxh3_64` of a path is a parameter.
-/

namespace Ivygrep.Native

open ForStd

/-- A `HashMap` from vector keys to scores. -/
abbrev ScoreMap (𝕜 : Type) := Std.ExtTreeMap UInt64 𝕜 compare

variable {𝕜 : Type} [Field 𝕜] [LinearOrder 𝕜]

/-- `f32::EPSILON`. -/
def epsilon : 𝕜 := 1 / 2 ^ 23

/-- `DECISIVE_DENSE_LEAD_RATIO`. -/
def decisiveDenseLeadRatio : 𝕜 := 105 / 100

/-- `DENSE_RANK_CONSTANT`. -/
def denseRankConstant : 𝕜 := 60

omit [LinearOrder 𝕜] in
/-- The share of a chunk's score that does not come from the lexical vote. -/
def unvotedRatio (unvotedRatios : ScoreMap 𝕜) (key : UInt64) : 𝕜 := unvotedRatios[key]?.getD 1

structure FileEntry (𝕜 : Type) where
  file : UInt64
  score : 𝕜
  unvotedRatio : 𝕜
  eligible : Bool
  dense : Option 𝕜

/-- What a moved file is multiplied with, and the ratio of the position it takes over. -/
structure FileScale (𝕜 : Type) where
  factor : 𝕜
  ratioFactor : Option 𝕜
  slotRatio : 𝕜

/-- What `fuse_dense_file_order` is given beside its candidates and their ratios. -/
structure DenseFusion (𝕜 : Type) where
  pathKey : Str → UInt64
  dense : ScoreMap 𝕜
  standingWeight : 𝕜
  pinnedFile : Option UInt64
  admits : RankedCandidate 𝕜 → Bool

namespace DenseFusion

variable (fusion : DenseFusion 𝕜)

/-- `path_key` of a candidate. -/
def fileOf (item : RankedCandidate 𝕜) : UInt64 := fusion.pathKey item.chunk.filePath

/-! ## The files -/

def isEligible (item : RankedCandidate 𝕜) : Bool := hasDirectSource item.sources && fusion.admits item

/-- What a chunk adds to the entry of its file. -/
def addToEntry (item : RankedCandidate 𝕜) (entry : FileEntry 𝕜) : FileEntry 𝕜 :=
  { entry with
    eligible := entry.eligible || fusion.isEligible item
    dense :=
      match fusion.dense[item.chunk.vectorKey]? with
      | none => entry.dense
      | some score => some ((entry.dense.map fun best => max best score).getD score) }

def addChunk (unvotedRatios : ScoreMap 𝕜) (files : List (FileEntry 𝕜))
    (item : RankedCandidate 𝕜) : List (FileEntry 𝕜) :=
  let file := fusion.fileOf item
  let files :=
    if files.any fun entry => entry.file == file then files
    else files ++ [⟨file, item.score, unvotedRatio unvotedRatios item.chunk.vectorKey, false, none⟩]
  files.map fun entry => if entry.file = file then fusion.addToEntry item entry else entry

/-- The loop over the candidates. A file holds the position of its first chunk. -/
def fileEntries (unvotedRatios : ScoreMap 𝕜) (ranked : List (RankedCandidate 𝕜)) :
    List (FileEntry 𝕜) :=
  ranked.foldl (fusion.addChunk unvotedRatios) []

/-! ## The fused order -/

section

variable (files : List (FileEntry 𝕜))

/-- The comparison of `by_dense`. -/
def DenseNotAfter (left right : Fin files.length × 𝕜) : Prop :=
  toLex (OrderDual.toDual left.2, left.1) ≤ toLex (OrderDual.toDual right.2, right.1)

instance : DecidableRel (DenseNotAfter files) :=
  fun left right => inferInstanceAs (Decidable
    (toLex (OrderDual.toDual left.2, left.1) ≤ toLex (OrderDual.toDual right.2, right.1)))

/-- The positions of the files with a dense score, the best score first. -/
def byDense : List (Fin files.length × 𝕜) :=
  ((List.finRange files.length).filterMap fun position =>
    (files.get position).dense.map fun score => (position, score)).insertionSort (DenseNotAfter files)

/-- The leader and whether its lead is decisive, when there is a runner-up. -/
def denseLead : Option (Fin files.length × Bool) :=
  match byDense files with
  | (leader, leaderScore) :: (_, runnerUpScore) :: _ =>
    some (leader, (files.get leader).eligible && decide (epsilon < runnerUpScore) &&
      decide (decisiveDenseLeadRatio ≤ leaderScore / runnerUpScore))
  | _ => none

/-- The positions of the eligible files. -/
def slots : List (Fin files.length) :=
  (List.finRange files.length).filter fun position => (files.get position).eligible

/-- `standing_weight / (k + dense_rank + 1)`. -/
def standingVote (position : Fin files.length) : 𝕜 :=
  let denseOrder := ((byDense files).map Prod.fst).filter fun position => (files.get position).eligible
  if 0 < fusion.standingWeight then
    match denseOrder.idxOf? position with
    | some denseRank => fusion.standingWeight / (denseRankConstant + denseRank + 1)
    | none => 0
  else 0

/-- The votes of an eligible file. -/
def votes (leader : Fin files.length) (decisive : Bool) (position : Fin files.length) : 𝕜 :=
  1 / (denseRankConstant + (slots files).idxOf position + 1) + fusion.standingVote files position +
    if decisive ∧ position = leader then 1 / (denseRankConstant + 1) else 0

/-- The comparison of `order`. -/
def VotesNotAfter (vote : Fin files.length → 𝕜) (left right : Fin files.length) : Prop :=
  toLex (OrderDual.toDual (vote left), left) ≤ toLex (OrderDual.toDual (vote right), right)

instance (vote : Fin files.length → 𝕜) : DecidableRel (VotesNotAfter files vote) :=
  fun left right => inferInstanceAs (Decidable
    (toLex (OrderDual.toDual (vote left), left) ≤ toLex (OrderDual.toDual (vote right), right)))

/-- The pinned file does not fall behind the position that it holds. -/
def pinOrder (order : List (Fin files.length)) : List (Fin files.length) :=
  match fusion.pinnedFile.bind fun file =>
      (List.finRange files.length).find? fun position => (files.get position).file = file with
  | none => order
  | some pinned =>
    match (slots files).idxOf? pinned, order.idxOf? pinned with
    | some held, some fused => if held < fused then putBack order fused held pinned else order
    | _, _ => order

/-- The eligible files in their fused order. -/
def fusedOrder (leader : Fin files.length) (decisive : Bool) : List (Fin files.length) :=
  fusion.pinOrder files
    ((slots files).insertionSort (VotesNotAfter files (fusion.votes files leader decisive)))

/-! ## The moves -/

/-- What happens to a file that moves to another position. -/
def scaleOf (move : Fin files.length × Fin files.length) : Option (UInt64 × FileScale 𝕜) :=
  let (oldPosition, newPosition) := move
  let moved := files.get oldPosition
  let slot := files.get newPosition
  if newPosition ≠ oldPosition ∧ epsilon < moved.score then
    let ratioFactor :=
      if epsilon < moved.unvotedRatio then some (slot.unvotedRatio / moved.unvotedRatio) else none
    some (moved.file, ⟨slot.score / moved.score, ratioFactor, slot.unvotedRatio⟩)
  else none

def scales (order : List (Fin files.length)) : List (UInt64 × FileScale 𝕜) :=
  (order.zip (slots files)).filterMap (scaleOf files)

end

section

variable (scale : List (UInt64 × FileScale 𝕜))

/-- The score of a candidate after the moves. -/
def rescore (item : RankedCandidate 𝕜) : RankedCandidate 𝕜 :=
  match scale.lookup (fusion.fileOf item) with
  | none => item
  | some moved => { item with score := item.score * moved.factor }

/-- `clamp(0.0, 1.0)`. -/
def clampRatio (ratio : 𝕜) : 𝕜 := if ratio < 0 then 0 else if 1 < ratio then 1 else ratio

/-- The ratio of a candidate after the moves. -/
def moveRatio (unvotedRatios : ScoreMap 𝕜) (item : RankedCandidate 𝕜) : ScoreMap 𝕜 :=
  match scale.lookup (fusion.fileOf item) with
  | none => unvotedRatios
  | some moved =>
    let ratio := unvotedRatio unvotedRatios item.chunk.vectorKey
    let movedRatio := (moved.ratioFactor.map fun factor => ratio * factor).getD moved.slotRatio
    unvotedRatios.insert item.chunk.vectorKey (clampRatio movedRatio)

end

/-- `fuse_dense_file_order`: the candidates and their ratios after it. -/
def fuseDenseFileOrder (ranked : List (RankedCandidate 𝕜)) (unvotedRatios : ScoreMap 𝕜) :
    List (RankedCandidate 𝕜) × ScoreMap 𝕜 :=
  let files := fusion.fileEntries unvotedRatios ranked
  match denseLead files with
  | none => (ranked, unvotedRatios)
  | some (leader, decisive) =>
    if fusion.standingWeight ≤ 0 ∧ ¬ decisive then (ranked, unvotedRatios)
    else
      let scale := scales files (fusion.fusedOrder files leader decisive)
      if scale = [] then (ranked, unvotedRatios)
      else
        ((ranked.map (fusion.rescore scale)).insertionSort RankedCandidate.NotAfter,
          if unvotedRatios.isEmpty then unvotedRatios
          else ranked.foldl (fusion.moveRatio scale) unvotedRatios)

end DenseFusion

end Ivygrep.Native
