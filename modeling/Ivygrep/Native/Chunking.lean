import Ivygrep.Native.Str

/-!
# Source-file chunking

Model of `src/chunking.rs`: the structural chunker over the ranges that
Tree-sitter captured, the signature heuristic and the fixed windows it falls back
to, and `strip_chunk_header`.

The parser is an input (`ParseResult`): its captured ranges are arbitrary. The
language registry is one too: a file has the `LanguageDef` that
`find_language_def` found for it, or none. Lines are numbered from 1, as in the
source. Chunk ids and content hashes are left out; nothing here reads them.
-/

namespace Ivygrep.Native

inductive ChunkKind where
  | Function
  | Class
  | Module
  | Documentation
  | Text
  deriving DecidableEq, Repr

/-- A definition name captured from the parser at chunk time. -/
structure ChunkDefinition where
  name : Str
  owner : Option Str
  deriving DecidableEq, Repr

structure Chunk where
  filePath : Str
  startLine : Nat
  endLine : Nat
  text : Str
  language : Str
  kind : ChunkKind
  definitions : Option (List ChunkDefinition)
  deriving DecidableEq, Repr

/-- A supported language: its name and its heuristic for lines that open a
    structural boundary. -/
structure LanguageDef where
  name : Str
  detectSignature : Str → Option ChunkKind

/-- Chunk start line (decorators included), end line, kind, parsed definitions,
    and the definition node's own start line. -/
structure CapturedRange where
  startLine : Nat
  endLine : Nat
  kind : ChunkKind
  definitions : Option (List ChunkDefinition)
  definitionStart : Nat
  deriving DecidableEq, Repr

/-- A successful parse: the converted captures, and whether the Rust query found
    a documentation include. -/
structure ParseResult where
  ranges : List CapturedRange
  hasDocIncludes : Bool
  deriving DecidableEq, Repr

def maxLeadingCommentLines : Nat := 20
def maxStructuralChunkLines : Nat := 128
def maxStructuralChunkBytes : Nat := 4096
def maxParentOverviewLines : Nat := 48
def structuralChunkOverlapLines : Nat := 8

/-- The line with this 1-based number; empty outside the text. -/
def lineAt (lines : List Str) (number : Nat) : Str := lines.getD (number - 1) []

/-! ## Line classification -/

/-- Does a trimmed line look like a doc-comment, attribute, or decorator that
    conventionally sits directly above a definition? -/
def isLeadingDocLine (trimmed language : Str) : Bool :=
  let prefixes := ["//", "/*", "*", "--", ";", "\"\"\"", "'''"].map String.toList
  if prefixes.any (Str.startsWith trimmed) then true
  else if Str.startsWith trimmed "@".toList then
    (["python", "java", "kotlin", "typescript", "javascript", "swift", "scala",
      "dart"].map String.toList).contains language
  else if Str.startsWith trimmed "#[".toList || Str.startsWith trimmed "#!".toList then true
  else if Str.startsWith trimmed "#".toList then
    (["python", "ruby", "php", "perl", "shell"].map String.toList).contains language
  else false

/-- First line of the block of leading doc lines directly above `start`. -/
def leadingDocStart (language : Str) (lines : List Str) : Nat → Nat
  | 0 => 0
  | start + 1 =>
    if 1 < start + 1 then
      if !isLeadingDocLine (Str.trim (lineAt lines start)) language then start + 1
      else leadingDocStart language lines start
    else start + 1

/-- The lines that `push_bounded_structural_chunks` does not chunk on their own. -/
def isBlankOrBracket (line : Str) : Bool :=
  (Str.trim line).isEmpty ||
    (["\x7b", "\x7d", "\x7d;", ");"].map String.toList).contains (Str.trim line)

def shouldSkipTreeSitterForGeneratedSource (language : Str) (lines : List Str)
    (detectSignature : Str → Option ChunkKind) : Bool :=
  if language ≠ "rust".toList ∨ lines.length < 200 then false
  else
    let kinds := lines.filterMap fun line => detectSignature (Str.trim line)
    let signatureCount := kinds.length
    let onlyFunctionSignatures := kinds.all (· == .Function)
    let generatedHeader := (lines.take 20).any fun line =>
      let lower := Str.toAsciiLowercase line
      Str.contains lower "@generated".toList || Str.contains lower "generated".toList ||
        Str.contains lower "automatically generated".toList ||
        Str.contains lower "do not edit".toList
    if generatedHeader then 50 ≤ signatureCount
    else onlyFunctionSignatures && 50 ≤ signatureCount && lines.length ≤ signatureCount * 4

/-! ## Bounded structural chunks -/

/-- `block` of a chunk: the lines `startLine..=endLine`, joined by newlines. -/
def joinLines (lines : List Str) (startLine endLine : Nat) : Str :=
  Str.join "\n".toList ((lines.take endLine).drop (startLine - 1))

def makeChunk (relPath : Str) (startLine endLine : Nat) (text language : Str)
    (kind : ChunkKind) (definitions : Option (List ChunkDefinition)) : Chunk :=
  { filePath := relPath, startLine, endLine, text, language, kind, definitions }

/-- The inner loop of `push_bounded_structural_chunks`: extends a window that ends
    at `windowEnd` and holds `bytes` by at most `room` lines. -/
def growWindow (lines : List Str) (endLine : Nat) : Nat → Nat → Nat → Nat
  | 0, windowEnd, _ => windowEnd
  | room + 1, windowEnd, bytes =>
    if windowEnd < endLine then
      let nextBytes := Str.len (lineAt lines (windowEnd + 1)) + 1
      if maxStructuralChunkBytes < bytes + nextBytes then windowEnd
      else growWindow lines endLine room (windowEnd + 1) (bytes + nextBytes)
    else windowEnd

/-- Last line of the window that starts at `windowStart`. -/
def windowEnd (lines : List Str) (endLine windowStart : Nat) : Nat :=
  growWindow lines endLine (maxStructuralChunkLines - 1) windowStart
    (Str.len (lineAt lines windowStart))

/-- The outer loop of `push_bounded_structural_chunks`: overlapping windows from
    `windowStart` up to `endLine`. -/
def windows (lines : List Str) (endLine windowStart : Nat) : List (Nat × Nat) :=
  if windowStart ≤ endLine then
    let stop := windowEnd lines endLine windowStart
    (windowStart, stop) ::
      if stop = endLine then []
      else windows lines endLine
        (max (stop - (structuralChunkOverlapLines - 1)) (windowStart + 1))
  else []
termination_by endLine + 1 - windowStart

/-- The chunks that one call of `push_bounded_structural_chunks` appends. -/
def boundedStructuralChunks (relPath : Str) (lines : List Str) (startLine endLine : Nat)
    (language : Str) (kind : ChunkKind) (context : Str)
    (definitions : Option (List ChunkDefinition)) : List Chunk :=
  if endLine < startLine ∨
      ((lines.take endLine).drop (startLine - 1)).all isBlankOrBracket then []
  else
    (windows lines endLine startLine).map fun (windowStart, stop) =>
      let block := joinLines lines windowStart stop
      if windowStart = startLine then
        makeChunk relPath windowStart stop
          ("// ".toList ++ relPath ++ "\n\n".toList ++ block) language kind definitions
      else
        -- Continuation windows never define a symbol of their own.
        makeChunk relPath windowStart stop
          ("// ".toList ++ relPath ++ "\n// continuation of ".toList ++ context ++
            "\n\n".toList ++ block)
          language kind (if definitions.isSome || kind != .Module then some [] else none)

/-! ## Chunks of the captured ranges -/

/-- `coalesce_inline_definition_ranges`: one merged range, and its definitions by
    lower-case name (`None` for a range without parsed definitions). -/
structure MergedRange where
  range : CapturedRange
  names : Option (List (Str × ChunkDefinition))

namespace MergedRange

def get? (names : List (Str × ChunkDefinition)) (key : Str) : Option ChunkDefinition :=
  names.lookup key

/-- `HashMap::insert`. -/
def insert (names : List (Str × ChunkDefinition)) (key : Str) (value : ChunkDefinition) :
    List (Str × ChunkDefinition) :=
  (key, value) :: names.filter (·.1 != key)

/-- May `incoming` share the physical chunk of this merged range? -/
def accepts (merged : MergedRange) (incoming : CapturedRange) : Bool :=
  merged.range.startLine == incoming.startLine && merged.range.endLine == incoming.endLine &&
    merged.range.kind == incoming.kind &&
    match merged.names, incoming.definitions with
    | none, none => true
    | some existing, some definitions => definitions.all fun definition =>
        match get? existing (Str.toAsciiLowercase definition.name) with
        | none => true
        | some found => found == definition
    | _, _ => false

/-- Adds the definitions of `incoming` whose lower-case name is new. -/
def absorb (merged : MergedRange) (incoming : CapturedRange) : MergedRange :=
  match merged.range.definitions, incoming.definitions, merged.names with
  | some existing, some definitions, some names =>
    let (existing, names) := definitions.foldl (fun (existing, names) definition =>
      let key := Str.toAsciiLowercase definition.name
      (if (get? names key).isNone then existing ++ [definition] else existing,
        insert names key definition)) (existing, names)
    { range := { merged.range with definitions := some existing }, names := some names }
  | _, _, _ => merged

def ofRange (range : CapturedRange) : MergedRange :=
  { range, names := range.definitions.map fun definitions =>
      definitions.foldl (fun names definition =>
        insert names (Str.toAsciiLowercase definition.name) definition) [] }

/-- Merges `incoming` into the first range that accepts it, or appends it. -/
def add (incoming : CapturedRange) : List MergedRange → List MergedRange
  | [] => [ofRange incoming]
  | merged :: rest =>
    if merged.accepts incoming then merged.absorb incoming :: rest
    else merged :: add incoming rest

end MergedRange

/-- Share one physical chunk for coincident-line declarations when their symbol
    rows can coexist. -/
def coalesceInlineDefinitionRanges (ranges : List CapturedRange) : List CapturedRange :=
  (ranges.foldl (fun merged range => MergedRange.add range merged) []).map (·.range)

/-- `ranges.retain` with the `unique_ranges` set: the first range of each
    (start, end, kind). -/
def retainUniqueRanges (seen : List (Nat × Nat × ChunkKind)) :
    List CapturedRange → List CapturedRange
  | [] => []
  | range :: rest =>
    let key := (range.startLine, range.endLine, range.kind)
    if seen.contains key then retainUniqueRanges seen rest
    else range :: retainUniqueRanges (key :: seen) rest

/-- `ranges.sort_by_key(|r| r.0)`, a stable sort. -/
def sortByStart (ranges : List CapturedRange) : List CapturedRange :=
  ranges.insertionSort fun left right => left.startLine ≤ right.startLine

/-- The doc-comment absorption loop: moves `start` up over at most `budget`
    uncovered comment or attribute lines. -/
def absorbLeadingDocs (language : Str) (lines : List Str) (covered : Nat → Bool) :
    Nat → Nat → Nat
  | 0, start => start
  | budget + 1, start =>
    if 1 < start then
      let line := Str.trim (lineAt lines (start - 1))
      if covered (start - 1) then start
      else if line.isEmpty || !isLeadingDocLine line language then start
      else absorbLeadingDocs language lines covered budget (start - 1)
    else start

/-- `covered.iter_mut().take(stop).skip(first)`: sets the flags of `first..stop`. -/
def setFlags (covered : Nat → Bool) (first stop : Nat) (flag : Bool) : Nat → Bool :=
  fun line => if first ≤ line ∧ line < stop then flag else covered line

/-- A declaration that an oversized parent leaves to its own range: the first
    line handed over, the declaration's own first line, and its last line. -/
structure NestedRange where
  startLine : Nat
  definition : Nat
  endLine : Nat
  deriving DecidableEq, Repr

def isOversized (lines : List Str) (start safeEnd : Nat) : Bool :=
  maxStructuralChunkLines < safeEnd - start + 1 ||
    maxStructuralChunkBytes <
      (((lines.take safeEnd).drop (start - 1)).map fun line => Str.len line + 1).sum

/-- The ranges that range `rangeIndex`, now starting at `start`, delegates to. -/
def nestedRanges (language : Str) (lines : List Str) (ranges : List CapturedRange)
    (rangeIndex : Nat) (kind : ChunkKind) (start safeEnd : Nat) : List NestedRange :=
  if isOversized lines start safeEnd && (kind == .Class || kind == .Module) then
    (ranges.zipIdx.filter fun (nested, index) =>
      index != rangeIndex && start < nested.startLine && nested.startLine ≤ safeEnd &&
        nested.endLine ≤ safeEnd).map fun (nested, _) =>
      { startLine := max (leadingDocStart language lines nested.startLine) (start + 1)
        definition := nested.startLine
        endLine := nested.endLine }
  else []

/-- Clears the lines between the start of each nested chunk and its declaration,
    so that the nested range can absorb them. -/
def clearNested (covered : Nat → Bool) (nested : List NestedRange) : Nat → Bool :=
  nested.foldl (fun covered range =>
    setFlags covered range.startLine range.definition false) covered

/-- The parts of an oversized parent that no nested declaration takes, from
    `parentStart` on. -/
def parentWindows (safeEnd : Nat) : Nat → List NestedRange → List (Nat × Nat)
  | parentStart, [] => if parentStart ≤ safeEnd then [(parentStart, safeEnd)] else []
  | parentStart, nested :: rest =>
    (if parentStart < nested.startLine then [(parentStart, nested.startLine - 1)] else []) ++
      parentWindows safeEnd (max parentStart (nested.endLine + 1)) rest

/-- One iteration of the loop over the sorted ranges, once the range is known to
    start inside the text: `start` is its first line after doc absorption. -/
structure Visit where
  index : Nat
  range : CapturedRange
  start : Nat
  safeEnd : Nat
  nested : List NestedRange

namespace Visit

/-- The `covered` array after this iteration. -/
def flags (visit : Visit) (covered : Nat → Bool) : Nat → Bool :=
  clearNested (setFlags covered visit.start (visit.safeEnd + 1) true) visit.nested

/-- The window that carries the range's own definitions: the whole range, or the
    bounded overview of a parent with nested ranges. -/
def ownWindow (visit : Visit) : Nat × Nat :=
  if visit.nested.isEmpty then (visit.start, visit.safeEnd)
  else (visit.start, min (visit.start + maxParentOverviewLines - 1) visit.safeEnd)

/-- The remaining windows of a parent with nested ranges. -/
def bodyWindows (visit : Visit) : List (Nat × Nat) :=
  if visit.nested.isEmpty then []
  else parentWindows visit.safeEnd (visit.ownWindow.2 + 1) visit.nested

end Visit

/-- The iteration for `ranges[index]`; `none` where the source continues. -/
def visitRange (language : Str) (lines : List Str) (ranges : List CapturedRange)
    (covered : Nat → Bool) (range : CapturedRange) (index : Nat) : Option Visit :=
  if range.startLine = 0 ∨ lines.length < range.startLine then none
  else
    let safeEnd := min range.endLine lines.length
    if safeEnd < range.startLine then none
    else
      let start :=
        absorbLeadingDocs language lines covered maxLeadingCommentLines range.startLine
      some { index, range, start, safeEnd
             nested := nestedRanges language lines ranges index range.kind start safeEnd }

structure PassState where
  covered : Nat → Bool
  chunks : List Chunk

section

variable (relPath language : Str) (lines : List Str)
  (uncapturedDefinitions : Option (List ChunkDefinition))

/-- The chunks that one iteration emits, under the context line of its
    definition. Only the own window keeps the parsed definitions. -/
def Visit.chunks (visit : Visit) (context : Str) : List Chunk :=
  let push (window : Nat × Nat) (definitions : Option (List ChunkDefinition)) :=
    boundedStructuralChunks relPath lines window.1 window.2 language visit.range.kind context
      definitions
  push visit.ownWindow visit.range.definitions ++
    visit.bodyWindows.flatMap fun window => push window uncapturedDefinitions

/-- One iteration of the loop over the sorted ranges. `none` is the panic of
    `lines[definition_start - 1]` out of bounds. -/
def rangeStep (ranges : List CapturedRange) (state : PassState)
    (entry : CapturedRange × Nat) : Option PassState :=
  match visitRange language lines ranges state.covered entry.1 entry.2 with
  | none => some state
  | some visit =>
    match lines[visit.range.definitionStart - 1]? with
    | none => none
    | some definitionLine =>
      some { covered := visit.flags state.covered
             chunks := state.chunks ++
               visit.chunks relPath language lines uncapturedDefinitions
                 (Str.trim definitionLine) }

structure GapState where
  gapStart : Option Nat
  gaps : List (Nat × Nat)
  deriving DecidableEq, Repr

/-- One iteration of the loop that collects the uncovered line ranges. -/
def gapStep (covered : Nat → Bool) (state : GapState) (line : Nat) : GapState :=
  if !covered line && !(Str.trim (lineAt lines line)).isEmpty then
    { state with gapStart := state.gapStart.or (some line) }
  else
    match state.gapStart with
    | some start =>
      { gapStart := none
        gaps := if start ≤ line - 1 then state.gaps ++ [(start, line - 1)] else state.gaps }
    | none => state

/-- The maximal runs of uncovered non-blank lines, the one at the end included. -/
def gapRanges (covered : Nat → Bool) : List (Nat × Nat) :=
  let state := (List.range' 1 lines.length).foldl (gapStep lines covered) ⟨none, []⟩
  match state.gapStart with
  | some start => state.gaps ++ [(start, lines.length)]
  | none => state.gaps

/-- Module-level chunks for the uncovered line ranges (imports, constants,
    top-level expressions). -/
def gapChunks (covered : Nat → Bool) : List Chunk :=
  (gapRanges lines covered).flatMap fun (start, stop) =>
    boundedStructuralChunks relPath lines start stop language .Module
      (Str.trim (lineAt lines start)) uncapturedDefinitions

/-- `chunks.sort_by_key(|c| c.start_line)`, a stable sort. -/
def sortChunks (chunks : List Chunk) : List Chunk :=
  chunks.insertionSort fun left right => left.startLine ≤ right.startLine

/-- The chunks of a parsed file, once its ranges are unique and sorted. -/
def chunkCapturedRanges (ranges : List CapturedRange) : Option (List Chunk) :=
  (ranges.zipIdx.foldlM (rangeStep relPath language lines uncapturedDefinitions ranges)
    ⟨fun _ => false, []⟩).map fun state =>
      sortChunks (state.chunks ++
        gapChunks relPath language lines uncapturedDefinitions state.covered)

end

/-- These grammars identify the declarations we index, so uncaptured text must
    not become a heuristic symbol definition. -/
def uncapturedDefinitionsFor (language : Str) : Option (List ChunkDefinition) :=
  if language = "swift".toList ∨ language = "objc".toList then some [] else none

/-- The unique ranges of a parse, sorted by start line. -/
def preparedRanges (language : Str) (ranges : List CapturedRange) : List CapturedRange :=
  sortByStart <|
    if (uncapturedDefinitionsFor language).isSome then coalesceInlineDefinitionRanges ranges
    else retainUniqueRanges [] ranges

/-- `try_tree_sitter_chunk_source_with_budget`, from the parse on. The outer
    `none` is a panic; the inner one is the source's `None`. -/
def tryTreeSitterChunkSource (relPath language : Str) (lines : List Str)
    (parse : Option ParseResult) : Option (Option (List Chunk)) :=
  match parse with
  | none => some none
  | some parsed =>
    if parsed.ranges.isEmpty && !parsed.hasDocIncludes &&
        (uncapturedDefinitionsFor language).isNone then some none
    else
      (chunkCapturedRanges relPath language lines (uncapturedDefinitionsFor language)
        (preparedRanges language parsed.ranges)).map some

/-! ## Heuristic chunks -/

/-- The 1-based lines whose text opens a structural boundary. -/
def collectSignatures (detect : Str → Option ChunkKind) (lines : List Str) :
    List (Nat × ChunkKind) :=
  lines.zipIdx.filterMap fun (line, idx) =>
    (detect (Str.trimStart line)).map fun kind => (idx + 1, kind)

/-- Fixed windows of 80 lines that overlap by 20. -/
def fallbackWindows (lineCount start : Nat) : List (Nat × Nat) :=
  if start ≤ lineCount then
    let stop := min (start + 80 - 1) lineCount
    (start, stop) ::
      if stop = lineCount then [] else fallbackWindows lineCount (stop - 20 + 1)
  else []
termination_by lineCount + 1 - start

def fallbackChunks (relPath language : Str) (lines : List Str) : List Chunk :=
  (fallbackWindows lines.length 1).map fun (start, stop) =>
    makeChunk relPath start stop
      ("// ".toList ++ relPath ++ "\n\n".toList ++ joinLines lines start stop)
      language .Text none

/-- Chunks from the heuristic signatures: a preamble, then one range from each
    signature's leading doc lines up to the next. -/
def signatureChunks (relPath language : Str) (lines : List Str)
    (signatures : List (Nat × ChunkKind)) : List Chunk :=
  let chunkStarts := signatures.map fun (start, _) => leadingDocStart language lines start
  let preamble :=
    match chunkStarts.head? with
    | some start =>
      if 0 < start - 1 then
        boundedStructuralChunks relPath lines 1 (start - 1) language .Module
          (Str.trim (lineAt lines 1)) none
      else []
    | none => []
  preamble ++ signatures.zipIdx.flatMap fun ((definitionStart, kind), idx) =>
    let start := chunkStarts.getD idx 0
    let stop := (chunkStarts[idx + 1]?.map (· - 1)).getD lines.length
    if stop < start then []
    else
      boundedStructuralChunks relPath lines start stop language kind
        (Str.trim (lineAt lines definitionStart)) none

/-- Canonical language name of a file; `text` outside the registry. -/
def languageName (langDef : Option LanguageDef) : Str :=
  (langDef.map (·.name)).getD "text".toList

/-- Large generated Rust files skip the parser. -/
def skipsTreeSitter (langDef : Option LanguageDef) (lines : List Str) : Bool :=
  langDef.any fun langDef =>
    shouldSkipTreeSitterForGeneratedSource langDef.name lines langDef.detectSignature

/-- The regex-based fallback: signatures, or fixed windows where there are none. -/
def heuristicChunks (relPath : Str) (langDef : Option LanguageDef) (lines : List Str) :
    List Chunk :=
  let signatures := match langDef with
    | some langDef => collectSignatures langDef.detectSignature lines
    | none => []
  if signatures.isEmpty then fallbackChunks relPath (languageName langDef) lines
  else signatureChunks relPath (languageName langDef) lines signatures

/-- `chunk_source_with_metadata`. `none` is a panic. -/
def chunkSource (relPath : Str) (langDef : Option LanguageDef) (parse : Option ParseResult)
    (text : Str) : Option (List Chunk) :=
  let lines := Str.lines text
  if lines.isEmpty then some []
  else if skipsTreeSitter langDef lines then some (heuristicChunks relPath langDef lines)
  else
    (tryTreeSitterChunkSource relPath (languageName langDef) lines parse).map fun chunked =>
      match chunked with
      | some chunks => if chunks.isEmpty then heuristicChunks relPath langDef lines else chunks
      | none => heuristicChunks relPath langDef lines

/-! ## Chunk headers -/

def samePathIgnoringSeparators (left right : Str) : Bool :=
  Str.len left == Str.len right && ((Str.bytes left).zip (Str.bytes right)).all fun (l, r) =>
    let isSeparator (byte : UInt8) := byte == 0x2f || byte == 0x5c
    l == r || (isSeparator l && isSeparator r)

/-- Stored chunk text starts with a path comment, optionally followed by a
    continuation or documentation-include line, then a blank line. Previews must
    drop all of it so the first line matches `start_line`. -/
def stripChunkHeader (text relPath : Str) : Str :=
  match ((Str.stripPrefix text "// ".toList).bind (Str.splitOnce '\n')).filter
      (fun (headerPath, _) => samePathIgnoringSeparators headerPath relPath) with
  | none => text
  | some (_, rest) =>
    let rest := match Str.splitOnce '\n' rest with
      | some (line, body) =>
        if Str.startsWith line "// continuation of ".toList ||
            Str.startsWith line "// Rust documentation included from ".toList then body
        else rest
      | none => rest
    (Str.stripPrefix rest "\n".toList).getD text

end Ivygrep.Native
