import Ivygrep.ForStd.Partition
import Ivygrep.ForStd.Quota
import Ivygrep.Native.RankedCandidate
import Ivygrep.Native.Symbols

/-!
# Definition candidates

`definition_candidates_eligible` of `symbols.rs`, for a lookup that is not cancelled: the requests
of a list of names, the rows of a batch of requests, the candidates of each request, and the chunks
that fill the limit.
-/

namespace Ivygrep.Native.Symbols

open ForStd

/-- `SYMBOL_DEFINITION_LOOKUP_BATCH`. -/
def symbolDefinitionLookupBatch : Nat := 128

/-- `vector_key as u64`. -/
def DefinitionRow.vectorKey {zstd : Compression.Zstd} (row : DefinitionRow zstd) : UInt64 :=
  UInt64.ofInt row.chunk.vectorKey

/-- A chunk before its text is read. -/
def ChunkRow.metadata {zstd : Compression.Zstd} (chunk : ChunkRow zstd) : IndexedChunk where
  filePath := chunk.filePath
  startLine := chunk.startLine
  endLine := chunk.endLine
  language := chunk.language
  kind := chunk.kind
  text := []
  vectorKey := UInt64.ofInt chunk.vectorKey
  isIgnored := chunk.isIgnored

/-- A name to look up with its normalized form. -/
structure DefinitionRequest where
  normalized : Str
  query : SymbolQuery
deriving DecidableEq

/-- What repeated requests share: the owner's case does not count. -/
def DefinitionRequest.key (request : DefinitionRequest) : Str × Option Str :=
  (request.normalized, request.query.owner.map Str.toAsciiLowercase)

def definitionRequest (isXidContinue : Char → Bool) (name : Str) : DefinitionRequest :=
  let query := parseSymbolQuery isXidContinue name
  ⟨normalizeSymbol isXidContinue query.name, query⟩

/-- The requests of a list of names, in their order. -/
def definitionRequests (isXidContinue : Char → Bool) (names : List Str) :
    List DefinitionRequest :=
  retainFirst DefinitionRequest.key []
    ((names.map (definitionRequest isXidContinue)).filter fun request =>
      !request.normalized.isEmpty)

/-- How many candidates of a request are ranked. -/
def candidateLimit (limit : Nat) : Nat := if 256 < limit then limit else min (limit * 8) 256

/-- `candidate_limit as i64`, the bound of the row window. -/
def candidateLimitI64 (limit : Nat) : Int := (candidateLimit limit : Int).bmod (2 ^ 64)

def fileStemMatchesSymbol (filePath name : Str) : Bool :=
  let symbol := ((name.splitOnP fun c => ":\\./#".toList.contains c).reverse.find?
    fun part => !part.isEmpty).getD name
  (fileStem filePath).any fun stem =>
    Str.toAsciiLowercase stem == Str.toAsciiLowercase symbol

/-- A chunk with what it is ranked by. -/
structure DefinitionCandidate where
  tier : Nat
  exactCase : Bool
  canonicalFile : Bool
  chunk : IndexedChunk

/-- The comparison of `sort_by`, as a key. -/
def DefinitionCandidate.order (candidate : DefinitionCandidate) :
    Nat ×ₗ Nat ×ₗ Nat ×ₗ List (Nat ×ₗ List Nat) ×ₗ Nat :=
  toLex (candidate.tier, toLex (if candidate.exactCase then 0 else 1,
    toLex (if candidate.canonicalFile then 0 else 1,
      toLex (pathOrder candidate.chunk.filePath, candidate.chunk.startLine))))

def DefinitionCandidate.NotAfter (left right : DefinitionCandidate) : Prop :=
  left.order ≤ right.order

instance : DecidableRel DefinitionCandidate.NotAfter :=
  fun left right => inferInstanceAs (Decidable (left.order ≤ right.order))

/-- The entries of a request in `by_name` and `per_name_seen`. -/
structure NameCandidates where
  request : DefinitionRequest
  candidates : List DefinitionCandidate
  seen : List UInt64

section

variable {zstd : Compression.Zstd} (tables : Tables zstd) (skipGitignore : Bool)

/-- The rows of a request in the order of the window function. -/
def requestRows (request : DefinitionRequest) : List (DefinitionRow zstd) :=
  ((tables.join request.normalized).filter fun row =>
    skipGitignore || !row.chunk.isIgnored).insertionSort (DefinitionRow.NotAfter request.query)

/-- The rows that the query returns of a request: without a predicate only the first ones. -/
def returnedRows (limit : Nat) (eligible : Option (IndexedChunk → Bool))
    (request : DefinitionRequest) : List (DefinitionRow zstd) :=
  if eligible.isSome then requestRows tables skipGitignore request
  else (requestRows tables skipGitignore request).take (candidateLimitI64 limit).toNat

/-- The rows of a batch, each with the ordinal of its request. -/
def batchRows (limit : Nat) (eligible : Option (IndexedChunk → Bool)) (baseOrdinal : Nat)
    (batch : List DefinitionRequest) : List (Nat × DefinitionRow zstd) :=
  (batch.zipIdx baseOrdinal).flatMap fun (request, ordinal) =>
    (returnedRows tables skipGitignore limit eligible request).map fun row => (ordinal, row)

def definitionCandidate (query : SymbolQuery) (row : DefinitionRow zstd) (text : Str) :
    DefinitionCandidate where
  tier := ownerTier query.owner row.owner
  exactCase := decide (row.name = query.name)
  canonicalFile := fileStemMatchesSymbol row.chunk.filePath query.name
  chunk := { row.chunk.metadata with text := text }

/-- One row of a request; `none` is a `continue`. -/
def addRow (limit : Nat) (eligible : Option (IndexedChunk → Bool)) (entry : NameCandidates)
    (row : DefinitionRow zstd) : Except ReadError (Option NameCandidates) :=
  if candidateLimit limit ≤ entry.candidates.length then .ok none
  else if eligible.any fun eligible => !eligible row.chunk.metadata then .ok none
  else if row.vectorKey ∈ entry.seen then .ok none
  else
    match row.chunk.read with
    | .error error => .error error
    | .ok text =>
      .ok (some { entry with
        candidates := entry.candidates ++ [definitionCandidate entry.request.query row text]
        seen := row.vectorKey :: entry.seen })

/-- The loop over the rows of a batch. It ends early when the last request of the batch has all its
    candidates. -/
def addRows (limit : Nat) (eligible : Option (IndexedChunk → Bool)) (lastOrdinal : Nat)
    (byName : List NameCandidates) :
    List (Nat × DefinitionRow zstd) → Except ReadError (List NameCandidates)
  | [] => .ok byName
  | (ordinal, row) :: rows =>
    match byName[ordinal]? with
    | none => addRows limit eligible lastOrdinal byName rows
    | some entry =>
      match addRow limit eligible entry row with
      | .error error => .error error
      | .ok none => addRows limit eligible lastOrdinal byName rows
      | .ok (some next) =>
        if ordinal = lastOrdinal ∧ next.candidates.length = candidateLimit limit then
          .ok (byName.set ordinal next)
        else addRows limit eligible lastOrdinal (byName.set ordinal next) rows

/-- The loop over the batches. -/
def addBatches (limit : Nat) (eligible : Option (IndexedChunk → Bool)) (batchSize batchIndex : Nat)
    (byName : List NameCandidates) :
    List (List DefinitionRequest) → Except ReadError (List NameCandidates)
  | [] => .ok byName
  | batch :: batches =>
    let baseOrdinal := batchIndex * batchSize
    match addRows limit eligible (baseOrdinal + batch.length - 1) byName
        (batchRows tables skipGitignore limit eligible baseOrdinal batch) with
    | .error error => .error error
    | .ok byName => addBatches limit eligible batchSize (batchIndex + 1) byName batches

/-- The candidates of a request in their ranking. -/
def rankCandidates (request : DefinitionRequest) (candidates : List DefinitionCandidate) :
    List IndexedChunk :=
  ((keepBestTier DefinitionCandidate.tier request.query.owner candidates).insertionSort
    DefinitionCandidate.NotAfter).map DefinitionCandidate.chunk

/-- `definition_candidates_eligible`, for batches of any size. -/
def definitionCandidatesBatched (batchSize : Nat) (isXidContinue : Char → Bool) (names : List Str)
    (limit : Nat) (eligible : Option (IndexedChunk → Bool)) :
    Except ReadError (List IndexedChunk) :=
  if limit = 0 ∨ names = [] then .ok []
  else
    let requested := definitionRequests isXidContinue names
    if requested = [] then .ok []
    else
      match addBatches tables skipGitignore limit eligible batchSize 0
          (requested.map fun request => ⟨request, [], []⟩) (chunks batchSize requested) with
      | .error error => .error error
      | .ok byName =>
        .ok (fillQuota IndexedChunk.vectorKey limit []
          (byName.map fun entry => rankCandidates entry.request entry.candidates))

/-- `definition_candidates_eligible`. -/
def definitionCandidatesEligible : (Char → Bool) → List Str → Nat →
    Option (IndexedChunk → Bool) → Except ReadError (List IndexedChunk) :=
  definitionCandidatesBatched tables skipGitignore symbolDefinitionLookupBatch

/-- `definition_candidates`. -/
def definitionCandidates (isXidContinue : Char → Bool) (names : List Str) (limit : Nat) :
    Except ReadError (List IndexedChunk) :=
  definitionCandidatesEligible tables true isXidContinue names limit none

end

end Ivygrep.Native.Symbols
