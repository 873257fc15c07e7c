import Ivygrep.ForStd.Ranking
import Ivygrep.Native.Str

/-!
# Bounded candidate collection

`collect_top_docs_with_eligibility` of `search.rs`, with the collector of a segment and the
eligibility of `search_eligibility.rs`. A segment lists its documents by document id. What the
index library decides is an argument: the score of each document that matches the query, and
the order in which a traversal calls back.
-/

namespace Ivygrep.Native

open ForStd

/-! ## Scores -/

/-- An `f32` by its bits. -/
structure F32 where
  bits : UInt32
deriving DecidableEq

namespace F32

/-- `abs().to_bits()`. -/
def magnitude (x : F32) : UInt32 := x.bits &&& 0x7fffffff

def isNan (x : F32) : Bool := 0x7f800000 < x.magnitude

/-- The value that comparisons order by; both zeros have the same one. -/
def order (x : F32) : Int :=
  if x.bits < 0x80000000 then x.magnitude.toNat else -x.magnitude.toNat

/-- `<`. -/
def lt (x y : F32) : Bool := !x.isNan && !y.isNan && decide (x.order < y.order)

/-- `<=`. -/
def le (x y : F32) : Bool := !x.isNan && !y.isNan && decide (x.order ≤ y.order)

def zero : F32 := ⟨0⟩

/-- `f32::MIN`. -/
def min : F32 := ⟨0xff7fffff⟩

end F32

/-- `CANDIDATE_SCORE_IGNORED_BITS`. -/
def candidateScoreIgnoredBits : UInt32 := 10

def candidateScoreBucket (score : F32) : Int :=
  if score.isNan then -2 ^ 63
  else
    let magnitude : Int := (score.magnitude >>> candidateScoreIgnoredBits).toNat
    if F32.lt score F32.zero then -magnitude - 1 else magnitude

def candidateBucketScore (score : F32) : F32 :=
  if score.isNan then score
  else ⟨score.bits &&& ~~~((1 <<< candidateScoreIgnoredBits) - 1)⟩

/-- `CANDIDATE_PRUNING_MARGIN_ULPS`. -/
def candidatePruningMarginUlps : UInt32 := 64

def candidateBucketThreshold (bucket : Int) : F32 :=
  if 0 < bucket ∧ bucket < 2 ^ 32 then
    ⟨(UInt32.ofNat bucket.toNat <<< candidateScoreIgnoredBits) - candidatePruningMarginUlps⟩
  else F32.min

/-! ## Ranks -/

/-- A larger rank is better: the key and the address are compared in reverse. -/
structure CandidateRank where
  bucket : Int
  key : Nat
  segmentOrd : Nat
  doc : Nat
deriving DecidableEq

/-- The lexicographic order that the source derives. -/
def CandidateRank.order (rank : CandidateRank) : Int ×ₗ ℕᵒᵈ ×ₗ ℕᵒᵈ ×ₗ ℕᵒᵈ :=
  toLex (rank.bucket, toLex (OrderDual.toDual rank.key,
    toLex (OrderDual.toDual rank.segmentOrd, OrderDual.toDual rank.doc)))

theorem CandidateRank.order_injective : Function.Injective CandidateRank.order := by
  rintro ⟨_, _, _, _⟩ ⟨_, _, _, _⟩ h
  simpa [order] using h

instance : LinearOrder CandidateRank :=
  LinearOrder.lift' CandidateRank.order CandidateRank.order_injective

/-- A rank with the bits of its score. -/
abbrev Candidate := CandidateRank ×ₗ ℕ

namespace Candidate

def rank (candidate : Candidate) : CandidateRank := (ofLex candidate).1

def score (candidate : Candidate) : F32 := ⟨UInt32.ofNat (ofLex candidate).2⟩

end Candidate

/-! ## Documents -/

/-- The stored fields that eligibility reads. -/
structure StoredDocument where
  filePath : Option Str
  language : Option Str
  vectorKey : Option Nat
  isIgnored : Option Nat
deriving DecidableEq

/-- A document of a segment: whether it is alive, its score when the query matches it, its key
    in the fast field, and its stored fields. -/
structure SegmentDocument where
  live : Bool
  score : Option F32
  key : Option Nat
  stored : StoredDocument
deriving DecidableEq

/-- The documents by document id. -/
abbrev Segment := List SegmentDocument

/-- Segment ordinal and document id. -/
abbrev DocAddress := Nat × Nat

/-- The documents that a traversal looks at, in its order, and whether it calls back for one
    whose score does not exceed the threshold. -/
abbrev Traversal := List (Nat × Bool)

/-! ## Eligibility -/

/-- Sets of paths and keys, globs and scopes are given by what they contain. -/
structure CandidateEligibility where
  skipGitignore : Bool
  typeFilter : Option Str
  scope : Option (Str → Bool)
  paths : Option (Str → Bool)
  hidden : Option ((Str → Bool) × (Str → Bool))
  allowedKeys : Option (Nat → Bool)

namespace CandidateEligibility

/-- `hasIgnoredField` says whether the schema has the field `is_ignored`. -/
def unrestricted (eligibility : CandidateEligibility) (hasIgnoredField : Bool) : Bool :=
  (eligibility.skipGitignore || !hasIgnoredField) && eligibility.typeFilter.isNone &&
    eligibility.scope.isNone && eligibility.paths.isNone && eligibility.hidden.isNone &&
    eligibility.allowedKeys.isNone

/-- `Option::is_none_or`. -/
def isNoneOr {α : Type} (value : Option α) (p : α → Bool) : Bool :=
  match value with
  | none => true
  | some value => p value

def matchesMetadata (eligibility : CandidateEligibility) (path language : Str) (ignored : Bool)
    (key : Nat) : Bool :=
  (eligibility.skipGitignore || !ignored) &&
    isNoneOr eligibility.typeFilter (fun expected =>
      decide (language.toAsciiLowercase = expected.toAsciiLowercase)) &&
    isNoneOr eligibility.scope (fun scope => scope path) &&
    isNoneOr eligibility.paths (fun matcher => matcher path) &&
    isNoneOr eligibility.hidden (fun hidden => !hidden.1 path && !hidden.2 path) &&
    isNoneOr eligibility.allowedKeys (fun keys => keys key)

def matchesDocument (eligibility : CandidateEligibility) (hasIgnoredField : Bool)
    (document : StoredDocument) : Bool :=
  if eligibility.unrestricted hasIgnoredField then true
  else
    match document.filePath, document.language, document.vectorKey with
    | some path, some language, some key =>
      let ignored := hasIgnoredField && decide (document.isIgnored.getD 0 ≠ 0)
      eligibility.matchesMetadata path language ignored key
    | _, _, _ => false

end CandidateEligibility

/-- `CandidateAdmission`: the eligibility with the path predicate that the query could not
    express, and whether the request can be cancelled. -/
structure CandidateAdmission where
  matcher : Option (Str → Bool)
  eligibility : CandidateEligibility
  hasIgnoredField : Bool
  cancelToken : Bool

def CandidateAdmission.admits (admission : CandidateAdmission) (document : StoredDocument) : Bool :=
  admission.eligibility.matchesDocument admission.hasIgnoredField document &&
    CandidateEligibility.isNoneOr admission.matcher fun matcher =>
      match document.filePath with
      | some path => matcher path
      | none => false

/-! ## The collector of a segment -/

/-- The heap, best candidate first: its top is the last entry. The request is not cancelled
    and the store does not fail. -/
structure SegmentCollector where
  heap : List Candidate
  threshold : F32

namespace SegmentCollector

/-- `BinaryHeap::push`. -/
def push (heap : List Candidate) (entry : Candidate) : List Candidate :=
  insertLast (· ≥ ·) entry heap

/-- `BinaryHeap::peek`. -/
def peek (heap : List Candidate) : Option Candidate := heap.getLast?

/-- `*heap.peek_mut() = entry`. -/
def replaceTop (heap : List Candidate) (entry : Candidate) : List Candidate :=
  push heap.dropLast entry

/-- `u64::MAX`, the key of a document without one. -/
def missingKey : Nat := 2 ^ 64 - 1

/-- The entry of a document in the heap. -/
def candidateOf (segmentOrd doc : Nat) (document : SegmentDocument) (score : F32) : Candidate :=
  toLex (⟨candidateScoreBucket score, document.key.getD missingKey, segmentOrd, doc⟩,
    score.bits.toNat)

/-- The collector after the heap has changed. -/
def withHeap (limit : Nat) (state : SegmentCollector) (heap : List Candidate) : SegmentCollector :=
  { heap
    threshold :=
      if limit ≤ heap.length then
        match peek heap with
        | some worst => candidateBucketThreshold worst.rank.bucket
        | none => state.threshold
      else state.threshold }

def collect (limit : Nat) (admission : Option CandidateAdmission) (segmentOrd doc : Nat)
    (document : SegmentDocument) (score : F32) (state : SegmentCollector) : SegmentCollector :=
  if F32.le score state.threshold then state
  else
    let entry := candidateOf segmentOrd doc document score
    let full := decide (limit ≤ state.heap.length)
    let beaten := match peek state.heap with
      | some worst => decide (entry.rank ≤ worst.rank)
      | none => false
    if full && beaten then state
    else if CandidateEligibility.isNoneOr admission fun admission =>
        admission.admits document.stored then
      if full then
        match peek state.heap with
        | some _ => withHeap limit state (replaceTop state.heap entry)
        | none => withHeap limit state state.heap
      else withHeap limit state (push state.heap entry)
    else state

/-- One document of `for_each_pruning`: a call back for every live document above the threshold,
    and perhaps for others. The callback skips a document that is not alive. -/
def visitPruning (limit : Nat) (admission : Option CandidateAdmission) (segmentOrd : Nat)
    (segment : Segment) (state : SegmentCollector) (visit : Nat × Bool) : SegmentCollector :=
  match segment[visit.1]? with
  | none => state
  | some document =>
    match document.score with
    | none => state
    | some score =>
      if F32.lt state.threshold score || visit.2 then
        if document.live then collect limit admission segmentOrd visit.1 document score state
        else state
      else state

/-- One document of the loop that a request with a token runs itself. -/
def visitScorer (limit : Nat) (admission : Option CandidateAdmission) (segmentOrd : Nat)
    (segment : Segment) (state : SegmentCollector) (visit : Nat × Bool) : SegmentCollector :=
  match segment[visit.1]? with
  | none => state
  | some document =>
    match document.score with
    | none => state
    | some score =>
      if document.live then
        if F32.lt state.threshold score then
          collect limit admission segmentOrd visit.1 document score state
        else state
      else state

def collectSegment (limit : Nat) (admission : Option CandidateAdmission) (segmentOrd : Nat)
    (segment : Segment) (traversal : Traversal) : SegmentCollector :=
  let visit :=
    match admission with
    | some admission =>
      if admission.cancelToken then visitScorer limit (some admission) segmentOrd segment
      else visitPruning limit (some admission) segmentOrd segment
    | none => visitPruning limit none segmentOrd segment
  traversal.foldl visit ⟨[], F32.min⟩

end SegmentCollector

/-! ## The search -/

/-- The ranks are distinct, since the addresses are, so no order of ties is lost in the sort. -/
def mergeFruits (limit : Nat) (fruits : List (List Candidate)) : List (F32 × DocAddress) :=
  ((fruits.flatten.insertionSort (· ≥ ·)).take limit).map fun candidate =>
    (candidateBucketScore candidate.score, (candidate.rank.segmentOrd, candidate.rank.doc))

/-- `searcher.search` with a `CandidateCollector`. -/
def searchCandidates (limit : Nat) (admission : Option CandidateAdmission)
    (segments : List Segment) (traversals : List Traversal) : List (F32 × DocAddress) :=
  mergeFruits limit ((segments.zip traversals).mapIdx fun segmentOrd parts =>
    (SegmentCollector.collectSegment limit admission segmentOrd parts.1 parts.2).heap)

/-- `searcher.doc`. -/
def storedDocument (segments : List Segment) (address : DocAddress) : Option StoredDocument :=
  (segments[address.1]?.bind fun segment => segment[address.2]?).map SegmentDocument.stored

/-- The two traversals are those of the unfiltered probe and of the filtered search. -/
def collectTopDocsWithEligibility (segments : List Segment) (probe filtered : List Traversal)
    (admission : CandidateAdmission) (limit : Nat) : List (F32 × DocAddress) :=
  if limit = 0 then []
  else
    let docs := searchCandidates limit none segments probe
    let eligible := admission.eligibility.unrestricted admission.hasIgnoredField ||
      docs.all fun doc => (storedDocument segments doc.2).any
        (admission.eligibility.matchesDocument admission.hasIgnoredField)
    if admission.matcher.isNone && eligible then docs
    else searchCandidates limit (some admission) segments filtered

end Ivygrep.Native
