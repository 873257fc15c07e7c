import Ivygrep.ForStd.Ranking
import Ivygrep.Native.RankedCandidate
import Ivygrep.Native.SymbolLines
import Ivygrep.Native.Symbols
import Ivygrep.Native.Usize

/-!
# Callers and references

`search_call_sites_with_references` and the definitions that restrict its languages. The search for
literal candidates is a parameter, and so are the lines of a file that match, of which the code
keeps a copy for each file. An early return is a state in which nothing is done any more.
-/

namespace Ivygrep.Native.Symbols

open ForStd Compression

inductive SymbolSearchMode where
  | definitions
  | callers
  | references
deriving DecidableEq

structure LiteralChunkBatch where
  chunks : List IndexedChunk
  exhausted : Bool

/-! ## Languages of definitions -/

structure RelationshipDefinitions where
  languages : List Str
  goGenericFunction : Bool

/-- `RelationshipDefinitions::default`. -/
def RelationshipDefinitions.empty : RelationshipDefinitions := ⟨[], false⟩

/-- What a search for callers and references reads. -/
structure CallSiteSearch where
  isXidContinue : Char → Bool
  limit : Option Nat
  typeFilter : Option Str
  requestedMode : Option SymbolSearchMode
  /-- Whether the source of a file has a generic Go function of a name. -/
  hasGoGeneric : Str → Str → Str → Bool
  /-- `exact_literal_chunks_with_context` for a name, a type filter and a limit. -/
  exactLiteralChunks : Str → Option Str → Option Nat → LiteralChunkBatch
  /-- The lines of a file that match a query, which may allow generic Go functions. -/
  symbolLines : SymbolQuery → Bool → Str → List SymbolLine

variable {zstd : Zstd}

/-- The text of a row that is a Go function. -/
def DefinitionRow.genericSource (row : DefinitionRow zstd) : Option (List UInt8) :=
  if row.chunk.language = "go".toList ∧ row.chunk.kind = "Function".toList then
    some row.chunk.text.raw
  else none

namespace CallSiteSearch

variable (search : CallSiteSearch)

/-- A row of the query, in the definitions of its tier. -/
def addDefinition (query : SymbolQuery) (definitions : RelationshipDefinitions)
    (row : DefinitionRow zstd) : Except ReadError RelationshipDefinitions :=
  let language := Str.toAsciiLowercase row.chunk.language
  let definitions :=
    if definitions.languages.contains language then definitions
    else { definitions with languages := definitions.languages ++ [language] }
  if definitions.goGenericFunction || row.genericSource.isNone then .ok definitions
  else do
    let source ← row.chunk.read
    .ok { definitions with
      goGenericFunction := search.hasGoGeneric row.chunk.filePath source query.name }

/-- The rows of a store, each in its tier. Rows that are not distinct count once. -/
def addStore (query : SymbolQuery) (normalized : Str) (tables : Tables zstd)
    (shadowed : Str → Bool) (tiers : List RelationshipDefinitions) :
    Except ReadError (List RelationshipDefinitions) :=
  let rows := keepFirst (fun row : DefinitionRow zstd =>
    (row.chunk.language, row.owner, row.chunk.filePath, row.genericSource)) (tables.join normalized)
  (rows.filter fun row => !shadowed row.chunk.filePath).foldlM
    (fun tiers row => do
      let tier := ownerTier query.owner row.owner
      let definitions ← search.addDefinition query (tiers[tier]?.getD .empty) row
      .ok (tiers.set tier definitions)) tiers

/-- `relationship_definitions`. -/
def relationshipDefinitions (stores : Stores zstd) (name : Str) :
    Except ReadError RelationshipDefinitions :=
  let query := parseSymbolQuery search.isXidContinue name
  let normalized := normalizeSymbol search.isXidContinue query.name
  if normalized.isEmpty then .ok .empty
  else do
    let tiers ← search.addStore query normalized stores.primary (fun _ => false)
      [.empty, .empty, .empty]
    let tiers ← match stores.base with
      | none => .ok tiers
      | some (tables, shadowed) => search.addStore query normalized tables shadowed tiers
    .ok ((tiers.find? fun definitions => !definitions.languages.isEmpty).getD .empty)

/-- The definitions that restrict a search: those of its symbol, unless an explicit type other than
    Go wins. -/
def definitions (stores : Stores zstd) (name : Str) : Except ReadError RelationshipDefinitions :=
  if search.typeFilter.all fun filter => Str.toAsciiLowercase filter == "go".toList then
    search.relationshipDefinitions stores name
  else .ok .empty

/-! ## Candidates -/

/-- The languages that are allowed, if any is. -/
def allowedLanguages (definitions : RelationshipDefinitions) : List Str :=
  if search.typeFilter.isNone then definitions.languages else []

/-- The type filter of the candidates. -/
def candidateType (languages : List Str) : Option Str :=
  match languages with
  | [language] => some language
  | _ => search.typeFilter

/-- `SYMBOL_RELATIONSHIP_CANDIDATE_LIMIT`, or the ceiling of `--no-limit`. -/
def candidateCeiling : Nat := if search.limit = some usizeMax then 50000 else 25000

/-- The candidates that the first round takes. -/
def firstLimit (limit : Nat) : Nat := clamp (saturatingMul limit 4) 32 search.candidateCeiling

theorem firstLimit_pos (limit : Nat) : 0 < search.firstLimit limit := by
  unfold firstLimit clamp
  omega

/-- The candidates that the round after one with a limit takes. -/
def nextLimit (limit : Nat) : Nat := min (saturatingMul limit 4) search.candidateCeiling

end CallSiteSearch

def isAllowed (languages : List Str) (chunk : IndexedChunk) : Bool :=
  languages.isEmpty || languages.contains (Str.toAsciiLowercase chunk.language)

/-! ## Call sites -/

structure CallSites where
  callers : List (SearchHit Str)
  references : List (SearchHit Str)
  seenCallSites : List (Str × Nat)
  seenReferences : List (Str × Nat)
  seenChunks : List UInt64
  isDone : Bool

def CallSites.empty : CallSites := ⟨[], [], [], [], [], false⟩

def referenceHit (filePath : Str) (occurrence : SymbolLine) : SearchHit Str where
  filePath := filePath
  startLine := occurrence.line
  endLine := occurrence.line
  preview := occurrence.preview
  reason := "exact reference match".toList
  score := 0x40c00000
  sources := ["reference".toList]
  neuralRequested := false
  neuralExecuted := false

def callerHit (chunk : IndexedChunk) : SearchHit Str where
  filePath := chunk.filePath
  startLine := chunk.startLine
  endLine := chunk.endLine
  preview := stripChunkHeader chunk.text chunk.filePath
  reason := "exact caller match".toList
  score := 0x41000000
  sources := ["caller".toList]
  neuralRequested := false
  neuralExecuted := false

/-- Whether a list may take another hit. -/
def hasRoom (limit : Option Nat) (hits : List (SearchHit Str)) : Bool :=
  limit.all fun limit => decide (hits.length < limit)

/-- A line of a chunk, and whether the chunk has a call that no chunk had before. -/
def visitLine (limit : Option Nat) (filePath : Str) (visited : CallSites × Bool)
    (occurrence : SymbolLine) : CallSites × Bool :=
  let (sites, hasCall) := visited
  let place := (filePath, occurrence.line)
  let (sites, hasCall) :=
    if occurrence.isCall ∧ place ∉ sites.seenCallSites then
      ({ sites with seenCallSites := place :: sites.seenCallSites }, true)
    else (sites, hasCall)
  let sites :=
    if hasRoom limit sites.references ∧ place ∉ sites.seenReferences then
      { sites with
        references := sites.references ++ [referenceHit filePath occurrence]
        seenReferences := place :: sites.seenReferences }
    else sites
  (sites, hasCall)

def inChunk (chunk : IndexedChunk) (occurrence : SymbolLine) : Bool :=
  decide (chunk.startLine ≤ occurrence.line ∧ occurrence.line ≤ chunk.endLine)

/-- The order of the chunks of a file: the shortest first, then from the top. -/
def ChunkNotAfter (left right : IndexedChunk) : Prop :=
  toLex (left.endLine - left.startLine, left.startLine) ≤
    toLex (right.endLine - right.startLine, right.startLine)

instance : DecidableRel ChunkNotAfter := fun left right => inferInstanceAs (Decidable
  (toLex (left.endLine - left.startLine, left.startLine) ≤
    toLex (right.endLine - right.startLine, right.startLine)))

/-- The order of the files. -/
def PathNotAfter (left right : Str) : Prop := pathOrder left ≤ pathOrder right

instance : DecidableRel PathNotAfter :=
  fun left right => inferInstanceAs (Decidable (pathOrder left ≤ pathOrder right))

namespace CallSiteSearch

variable (search : CallSiteSearch) (lines : Str → List SymbolLine)

/-- Whether the lists that are asked for are full. -/
def isFull (sites : CallSites) : Bool :=
  match search.requestedMode with
  | some .references => !hasRoom search.limit sites.references
  | some .callers => !hasRoom search.limit sites.callers
  | _ => !hasRoom search.limit sites.callers && !hasRoom search.limit sites.references

def visitChunk (sites : CallSites) (chunk : IndexedChunk) : CallSites :=
  if sites.isDone then sites
  else
    let (sites, hasCall) := ((lines chunk.filePath).filter (inChunk chunk)).foldl
      (visitLine search.limit chunk.filePath) (sites, false)
    let sites :=
      if hasCall && hasRoom search.limit sites.callers then
        { sites with callers := sites.callers ++ [callerHit chunk] }
      else sites
    { sites with isDone := search.isFull sites }

/-- The chunks of a round, file by file. -/
def visitOrder (chunks : List IndexedChunk) : List IndexedChunk :=
  ((keepFirst id (chunks.map IndexedChunk.filePath)).insertionSort PathNotAfter).flatMap fun path =>
    (chunks.filter fun chunk => chunk.filePath = path).insertionSort ChunkNotAfter

/-- A round. -/
def visitBatch (languages : List Str) (sites : CallSites) (chunks : List IndexedChunk) :
    CallSites :=
  let fresh := retainFirst IndexedChunk.vectorKey sites.seenChunks
    (chunks.filter (isAllowed languages))
  (visitOrder fresh).foldl (search.visitChunk lines)
    { sites with seenChunks := fresh.map IndexedChunk.vectorKey ++ sites.seenChunks }

variable (batch : Option Nat → LiteralChunkBatch) (languages : List Str)

/-- The loop, from a round with a limit on. -/
def widen (sites : CallSites) (limit : Nat) (hlimit : 0 < limit) : CallSites :=
  let candidates := batch (some limit)
  let sites := search.visitBatch lines languages sites candidates.chunks
  if sites.isDone then sites
  else if h : candidates.exhausted ∨ search.candidateCeiling ≤ limit then sites
  else
    have hnext : limit < search.nextLimit limit := by
      have hceiling : search.candidateCeiling ≤ 50000 := by
        unfold candidateCeiling
        split <;> omega
      have hbelow := not_or.mp h |>.2
      unfold nextLimit saturatingMul
      omega
    widen sites (search.nextLimit limit) (Nat.zero_lt_of_lt hnext)
termination_by search.candidateCeiling - limit
decreasing_by
  obtain ⟨_, _⟩ := not_or.mp h
  omega

/-- The loop. Without a limit, one round has all candidates. -/
def collectCallSites : CallSites :=
  match search.limit with
  | none => search.visitBatch lines languages .empty (batch none).chunks
  | some limit =>
    search.widen lines batch languages .empty (search.firstLimit limit) (search.firstLimit_pos limit)

/-- `search_call_sites_with_references`. -/
def searchCallSites (stores : Stores zstd) (name : Str) :
    Except ReadError (List (SearchHit Str) × List (SearchHit Str)) :=
  if search.limit = some 0 then .ok ([], [])
  else do
    let query := parseSymbolQuery search.isXidContinue name
    let definitions ← search.definitions stores name
    let languages := search.allowedLanguages definitions
    let sites := search.collectCallSites
      (search.symbolLines query definitions.goGenericFunction)
      (search.exactLiteralChunks query.name (search.candidateType languages)) languages
    .ok (sites.callers, sites.references)

end CallSiteSearch

end Ivygrep.Native.Symbols
