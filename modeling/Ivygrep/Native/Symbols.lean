import Ivygrep.ForStd.RowLimit
import Ivygrep.Native.Chunking
import Ivygrep.Native.Compression
import Ivygrep.Native.FileSearchBatch
import Ivygrep.Native.TestEdges
import Mathlib.Data.List.Lex

/-!
# Symbol definitions

The lookup of definitions in `symbols.rs`: the query of a symbol, the rows of one store that
answer it, the search over the stores of a workspace, and the definition candidates of a list of
names. SQLite's `ORDER BY` is a stable sort of the joined rows, so that rows which tie come in the
order of the join. `unicode_ident` is a parameter, and so is what a search reads of the file system.
-/

namespace Ivygrep.Native.Symbols

open ForStd

/-! ## Paths -/

/-- `std::path::Component` on Unix. -/
inductive PathComponent where
  | rootDir
  | curDir
  | parentDir
  | normal (name : Str)
deriving DecidableEq

/-- `Path::components`. Repeated separators do not count, nor does a `.` that is not the first
    name. -/
def pathComponents (path : Str) : List PathComponent :=
  let names := (path.splitOn '/').filter fun name => !name.isEmpty && name != ['.']
  let leading : List PathComponent :=
    if Str.startsWith path ['/'] then [.rootDir]
    else if (path.splitOn '/').head? = some ['.'] then [.curDir]
    else []
  leading ++ names.map fun name => if name = "..".toList then .parentDir else .normal name

/-- A text in the order of its bytes. -/
def byteOrder (text : Str) : List Nat := (Str.bytes text).map UInt8.toNat

def PathComponent.order : PathComponent → Nat ×ₗ List Nat
  | .rootDir => toLex (0, [])
  | .curDir => toLex (1, [])
  | .parentDir => toLex (2, [])
  | .normal name => toLex (3, byteOrder name)

/-- A path in the order of its components. -/
def pathOrder (path : Str) : List (Nat ×ₗ List Nat) :=
  (pathComponents path).map PathComponent.order

/-- `Path::file_stem`. -/
def fileStem (path : Str) : Option Str :=
  match (pathComponents path).getLast? with
  | some (.normal name) => some (TestEdges.splitAtDot name).1
  | _ => none

/-! ## Names -/

section

variable (isXidContinue : Char → Bool)

def isIdentifierCharacter (c : Char) : Bool :=
  isXidContinue c || c == '$' || c == '\u200c' || c == '\u200d'

/-- `canonical_symbol`. -/
def canonicalSymbol (value : Str) : Str :=
  let outer (c : Char) : Bool := c == '$' || !isIdentifierCharacter isXidContinue c
  ((Str.trim value).dropWhile outer).rdropWhile outer

def normalizeSymbol (value : Str) : Str :=
  Str.toAsciiLowercase (canonicalSymbol isXidContinue value)

structure SymbolQuery where
  name : Str
  owner : Option Str
deriving DecidableEq

/-- `str::rfind`. -/
def rfind (s pattern : Str) : Option Nat :=
  ((List.range (s.length + 1)).filter fun i => Str.startsWith (s.drop i) pattern).getLast?

/-- The last separator of an owner and a name, with its length. -/
def lastSeparator (candidate : Str) : Option (Nat × Nat) :=
  [":".toList, ".".toList, "#".toList, "->".toList].foldl (fun split separator =>
    match rfind candidate separator with
    | some index =>
      if split.all fun (best, _) => decide (best < index) then some (index, separator.length)
      else split
    | none => split) none

def parseSymbolQuery (raw : Str) : SymbolQuery :=
  let candidate := canonicalSymbol isXidContinue raw
  match lastSeparator candidate with
  | none => ⟨candidate, none⟩
  | some (index, width) =>
    let name := canonicalSymbol isXidContinue (candidate.drop (index + width))
    let owner := ((candidate.take index).splitOnP fun c => ":.#->".toList.contains c).reverse.find?
      fun part => !part.isEmpty
    match owner with
    | some owner =>
      if !name.isEmpty && name.all (isIdentifierCharacter isXidContinue) then ⟨name, some owner⟩
      else ⟨candidate, none⟩
    | none => ⟨candidate, none⟩

end

/-! ## Owner tiers -/

def ownerTierExact : Nat := 0
def ownerTierFolded : Nat := 1
def ownerTierNone : Nat := 2

def ownerTier : Option Str → Option Str → Nat
  | none, _ => ownerTierExact
  | some requested, some stored =>
    if requested = stored then ownerTierExact
    else if Str.toAsciiLowercase requested = Str.toAsciiLowercase stored then ownerTierFolded
    else ownerTierNone
  | some _, none => ownerTierNone

/-- A qualified lookup keeps the best tier that there is. -/
def keepBestTier {α : Type} (tier : α → Nat) (owner : Option Str) (hits : List α) : List α :=
  match owner, (hits.map tier).min? with
  | some _, some best =>
    if best < ownerTierNone then hits.filter fun hit => tier hit = best else hits
  | _, _ => hits

/-! ## Tables -/

open Compression

/-- A value of the `text` column that is not corrupt. -/
structure StoredText (zstd : Zstd) where
  raw : List UInt8
  readable : ∃ text, tryDecompressText zstd raw = .ok text

structure SymbolRow where
  normalizedName : Str
  chunkKey : Int
  name : Option Str
  owner : Option Str

structure ChunkRow (zstd : Zstd) where
  chunkKey : Int
  filePath : Str
  startLine : Nat
  endLine : Nat
  language : Str
  kind : Str
  text : StoredText zstd
  vectorKey : Int
  isIgnored : Bool

structure Tables (zstd : Zstd) where
  symbols : List SymbolRow
  chunks : List (ChunkRow zstd)

/-- A row of `symbols` joined with its chunk. -/
structure DefinitionRow (zstd : Zstd) where
  chunk : ChunkRow zstd
  name : Str
  owner : Option Str

variable {zstd : Zstd}

/-- `symbols JOIN chunks`, for one name. -/
def Tables.join (tables : Tables zstd) (normalized : Str) : List (DefinitionRow zstd) :=
  (tables.symbols.filter fun row => row.normalizedName = normalized).flatMap fun row =>
    (tables.chunks.filter fun chunk => chunk.chunkKey = row.chunkKey).map fun chunk =>
      ⟨chunk, row.name.getD row.normalizedName, row.owner⟩

/-- The terms of the `ORDER BY`. -/
def DefinitionRow.order (query : SymbolQuery) (row : DefinitionRow zstd) :
    Nat ×ₗ Nat ×ₗ List Nat ×ₗ Nat ×ₗ Nat ×ₗ Int :=
  toLex (ownerTier query.owner row.owner, toLex (if row.name = query.name then 0 else 1,
    toLex (byteOrder row.chunk.filePath, toLex (row.chunk.startLine,
      toLex (row.chunk.endLine, row.chunk.vectorKey)))))

def DefinitionRow.NotAfter (query : SymbolQuery) (left right : DefinitionRow zstd) : Prop :=
  left.order query ≤ right.order query

instance (query : SymbolQuery) : DecidableRel (@DefinitionRow.NotAfter zstd query) :=
  fun left right => inferInstanceAs (Decidable (left.order query ≤ right.order query))

/-- The rows of a name in the order of the query. -/
def Tables.rows (tables : Tables zstd) (query : SymbolQuery) (normalized : Str) :
    List (DefinitionRow zstd) :=
  (tables.join normalized).insertionSort (DefinitionRow.NotAfter query)

/-- The error of a text that cannot be read. -/
structure ReadError where
  filePath : Str
  startLine : Nat
  endLine : Nat
  cause : DecompressError
deriving DecidableEq

def ReadError.message (error : ReadError) : Str :=
  "failed to read stored symbol text for ".toList ++ error.filePath ++ ":".toList ++
    Nat.toDigits 10 error.startLine ++ "-".toList ++ Nat.toDigits 10 error.endLine

/-- `try_decompress_text` of a row. -/
def ChunkRow.read (chunk : ChunkRow zstd) : Except ReadError Str :=
  (tryDecompressText zstd chunk.text.raw).mapError fun cause =>
    ⟨chunk.filePath, chunk.startLine, chunk.endLine, cause⟩

/-! ## Search in a workspace -/

/-- What a search for a symbol reads beside the stores, but for its limit. -/
structure SymbolSearch where
  isXidContinue : Char → Bool
  resolveTypeAlias : Str → Option Str
  scopeFilter : Option (Str → Bool)
  typeFilter : Option Str
  pathMatches : Str → Bool
  skipGitignore : Bool
  isMissing : Str → Bool

/-- The stores of a workspace. The base is that of a worktree with an overlay, whose paths shadow
    those of the base. -/
structure Stores (zstd : Zstd) where
  primary : Tables zstd
  base : Option (Tables zstd × (Str → Bool))

namespace SymbolSearch

variable (search : SymbolSearch)

def typeMatches (language : Str) : Bool :=
  search.typeFilter.all fun filter =>
    Str.toAsciiLowercase language == Str.toAsciiLowercase filter ||
      (search.resolveTypeAlias filter).any fun canonical =>
        Str.toAsciiLowercase language == Str.toAsciiLowercase canonical

/-- The rows that a query skips. -/
def skips (shadowed : Str → Bool) (chunk : ChunkRow zstd) : Bool :=
  shadowed chunk.filePath || search.scopeFilter.any (fun scope => !scope chunk.filePath) ||
    !search.typeMatches chunk.language || !search.pathMatches chunk.filePath ||
    (!search.skipGitignore && chunk.isIgnored) || search.isMissing chunk.filePath

/-- The bits of the score: 10 for the exact case and 9 for another, less one half for an owner in
    another case. -/
def score (exactCase : Bool) (tier : Nat) : UInt32 :=
  match exactCase, decide (tier = ownerTierFolded) with
  | true, false => 0x41200000
  | true, true => 0x41180000
  | false, false => 0x41100000
  | false, true => 0x41080000

def symbolHit (query : SymbolQuery) (row : DefinitionRow zstd) (stored : Str) : SearchHit Str where
  filePath := row.chunk.filePath
  startLine := row.chunk.startLine
  endLine := row.chunk.endLine
  preview := stripChunkHeader stored row.chunk.filePath
  reason := "exact symbol match".toList
  score := score (decide (row.name = query.name)) (ownerTier query.owner row.owner)
  sources := ["symbol".toList]
  neuralRequested := false
  neuralExecuted := false

/-- The loop of `query_workspace_db`. -/
def queryRows (limit : Option Nat) (query : SymbolQuery) (shadowed : Str → Bool)
    (hits : List (Nat × SearchHit Str)) (acceptedTier : Option Nat) :
    List (DefinitionRow zstd) → Except ReadError (List (Nat × SearchHit Str))
  | [] => .ok hits
  | row :: rows =>
    let tier := ownerTier query.owner row.owner
    if acceptedTier.any fun accepted => decide (accepted < tier ∧ accepted < ownerTierNone) then
      .ok hits
    else if search.skips shadowed row.chunk then
      queryRows limit query shadowed hits acceptedTier rows
    else
      match row.chunk.read with
      | .error error => .error error
      | .ok stored =>
        let hits := hits ++ [(tier, symbolHit query row stored)]
        if limit.any fun limit => decide (limit ≤ hits.length) then .ok hits
        else queryRows limit query shadowed hits (acceptedTier.or (some tier)) rows

def queryWorkspaceDb (limit : Option Nat) (tables : Tables zstd) (query : SymbolQuery)
    (normalized : Str) (shadowed : Str → Bool) :
    Except ReadError (List (Nat × SearchHit Str)) :=
  if limit = some 0 then .ok []
  else search.queryRows limit query shadowed [] none (tables.rows query normalized)

/-- The query of the base store, if there is one. -/
def queryBase (limit : Option Nat) (stores : Stores zstd) (query : SymbolQuery)
    (normalized : Str) : Except ReadError (List (Nat × SearchHit Str)) :=
  match stores.base with
  | none => .ok []
  | some (tables, shadowed) => search.queryWorkspaceDb limit tables query normalized shadowed

/-- The order of the hits: by score, serialized path and line. -/
def hitOrder (hit : SearchHit Str) : Natᵒᵈ ×ₗ List Nat ×ₗ Nat :=
  toLex (OrderDual.toDual hit.score.toNat, toLex (byteOrder hit.filePath, hit.startLine))

def HitNotAfter (left right : SearchHit Str) : Prop := hitOrder left ≤ hitOrder right

instance : DecidableRel HitNotAfter :=
  fun left right => inferInstanceAs (Decidable (hitOrder left ≤ hitOrder right))

/-- The place of a hit, by which repeats are told. -/
def hitPlace (hit : SearchHit Str) : List PathComponent × Nat :=
  (pathComponents hit.filePath, hit.startLine)

/-- `Vec::truncate` to a limit. -/
def truncate (limit : Option Nat) (hits : List (SearchHit Str)) : List (SearchHit Str) :=
  match limit with
  | none => hits
  | some limit => hits.take limit

/-- `search_symbols_in_index` for definitions. -/
def searchSymbolsInIndex (limit : Option Nat) (stores : Stores zstd) (name : Str) :
    Except ReadError (List (SearchHit Str)) :=
  if (normalizeSymbol search.isXidContinue (canonicalSymbol search.isXidContinue name)).isEmpty then
    .ok []
  else do
    let query := parseSymbolQuery search.isXidContinue name
    let normalized := normalizeSymbol search.isXidContinue query.name
    let primary ← search.queryWorkspaceDb limit stores.primary query normalized fun _ => false
    let base ← search.queryBase limit stores query normalized
    let hits := (keepBestTier Prod.fst query.owner (primary ++ base)).map Prod.snd
    .ok (truncate limit
      (dedupAdjacent hitPlace none (hits.insertionSort HitNotAfter)))

end SymbolSearch

end Ivygrep.Native.Symbols
