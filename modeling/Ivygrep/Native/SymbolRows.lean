import Ivygrep.ForStd.Ranking
import Ivygrep.Native.Symbols

/-!
# The symbol rows of a chunk

`append_chunk_definition_rows` for a chunk with definitions from its parser: public re-exports join
them, qualified names give their leaves an owner, and a name has one row.
-/

namespace Ivygrep.Native.Symbols

open ForStd Compression

structure ChunkDefinition where
  name : Str
  owner : Option Str
deriving DecidableEq

/-! ## Public re-exports -/

/-- `str::split_once` and `str::rsplit_once` for a string pattern, at one of its places. -/
def splitAtPattern (s pattern : Str) (index : Option Nat) : Option (Str × Str) :=
  index.map fun index => (s.take index, s.drop (index + pattern.length))

/-- `str::find`, by characters. -/
def findPattern (s pattern : Str) : Option Nat :=
  (List.range (s.length + 1)).find? fun i => Str.startsWith (s.drop i) pattern

/-- `str::trim_matches`. -/
def trimMatches (p : Char → Bool) (s : Str) : Str := (s.dropWhile p).rdropWhile p

section

variable (isXidContinue : Char → Bool)

/-- An item of the clause in `exported_names_from_clause`. -/
def exportedName (item : Str) : Option Str :=
  let item := trimMatches (fun c => ['\x7b', '\x7d', '(', ')'].contains c) (Str.trim item)
  if item = [] ∨ item = "self".toList ∨ item = "*".toList then none
  else
    let renamed := ((splitAtPattern item " as ".toList (rfind item " as ".toList)).map
      Prod.snd).getD item
    let publicName := Str.trim (((splitAtPattern renamed "::".toList
      (rfind renamed "::".toList)).map Prod.snd).getD renamed)
    let name := trimMatches (fun c => !isIdentifierCharacter isXidContinue c) publicName
    if name = [] then none else some name

/-- `exported_names_from_clause`. -/
def exportedNamesFromClause (clause : Str) : List Str :=
  let list := ((Str.splitOnce '\x7b' clause).bind fun (_, rest) =>
    (splitAtPattern rest ['\x7d'] (rfind rest ['\x7d'])).map Prod.fst).getD clause
  (list.splitOn ',').filterMap (exportedName isXidContinue)

/-- The re-exports in the statements of a text, behind the last `marker` of each. The clause starts
    `kept` characters before the end of the marker. -/
def statementExports (text : Str) (marker : Str) (kept : Nat) : List Str :=
  (text.splitOn ';').flatMap fun statement =>
    match rfind statement marker with
    | none => []
    | some offset =>
      exportedNamesFromClause isXidContinue (statement.drop (offset + (marker.length - kept)))

/-- `public_reexport_names`. -/
def publicReexportNames (language filePath text : Str) : List Str :=
  let language := Str.toAsciiLowercase language
  (if language = "rust".toList then statementExports isXidContinue text "pub use ".toList 0
    else []) ++
  (if ["javascript", "typescript", "tsx", "jsx"].any fun name => name.toList = language then
      statementExports isXidContinue text "export \x7b".toList 1
    else []) ++
  (if language = "python".toList ∧
      (pathComponents filePath).getLast? = some (.normal "__init__.py".toList) then
    ((Str.lines text).map Str.trim).flatMap fun line =>
      match splitAtPattern line " import ".toList (findPattern line " import ".toList) with
      | none => []
      | some (_, imported) =>
        if Str.startsWith line "from ".toList then
          exportedNamesFromClause isXidContinue imported
        else []
    else [])

end

/-! ## Owners -/

/-- The leaf of a qualified name with its qualifier's last part. -/
def qualifiedLeaf (definition : ChunkDefinition) : Option (Str × Str) := do
  let (qualifier, leaf) ← splitAtPattern definition.name ['.'] (rfind definition.name ['.'])
  let owner ← (qualifier.splitOn '.').reverse.find? fun part => !part.isEmpty
  return (leaf, owner)

/-- The first definition of the leaf that has no owner gets one. -/
def attachOwner (leaf owner : Str) : List ChunkDefinition → List ChunkDefinition
  | [] => []
  | definition :: rest =>
    if definition.owner = none ∧ definition.name = leaf then
      { definition with owner := some owner } :: rest
    else definition :: attachOwner leaf owner rest

/-- `attach_qualified_owners`. -/
def attachQualifiedOwners (definitions : List ChunkDefinition) : List ChunkDefinition :=
  (definitions.filterMap qualifiedLeaf).foldl
    (fun definitions (leaf, owner) => attachOwner leaf owner definitions) definitions

/-! ## Rows -/

/-- A chunk as it is stored, with its text and the definitions that the parser found in it. -/
structure ParsedChunk (zstd : Zstd) where
  row : ChunkRow zstd
  text : Str
  definitions : List ChunkDefinition

variable {zstd : Zstd} (isXidContinue : Char → Bool)

/-- All definitions of a chunk, with their owners. -/
def ParsedChunk.allDefinitions (chunk : ParsedChunk zstd) : List ChunkDefinition :=
  attachQualifiedOwners (chunk.definitions ++
    (publicReexportNames isXidContinue chunk.row.language chunk.row.filePath chunk.text).map
      fun name => ⟨name, none⟩)

/-- `chunk_definitions`: the first one of each name. -/
def ParsedChunk.chunkDefinitions (chunk : ParsedChunk zstd) : List ChunkDefinition :=
  keepFirst (fun definition => normalizeSymbol isXidContinue definition.name)
    (chunk.allDefinitions isXidContinue)

/-- `stored_symbol_name`. -/
def storedSymbolName (name normalizedName : Str) : Option Str :=
  if name ≠ normalizedName then some name else none

/-- `append_chunk_definition_rows`. -/
def ParsedChunk.definitionRows (chunk : ParsedChunk zstd) : List SymbolRow :=
  (chunk.chunkDefinitions isXidContinue).map fun definition =>
    let name := canonicalSymbol isXidContinue definition.name
    let normalizedName := Str.toAsciiLowercase name
    ⟨normalizedName, chunk.row.chunkKey, storedSymbolName name normalizedName, definition.owner⟩

/-- The tables of chunks that are stored. -/
def storedTables (chunks : List (ParsedChunk zstd)) : Tables zstd where
  symbols := chunks.flatMap (ParsedChunk.definitionRows isXidContinue)
  chunks := chunks.map ParsedChunk.row

end Ivygrep.Native.Symbols
