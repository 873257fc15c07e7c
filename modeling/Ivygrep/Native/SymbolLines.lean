import Ivygrep.Native.Symbols

/-!
# The lines of a symbol in a file without a tree

`mask_non_code`, and `matching_symbol_lines_in_source` on a masked source. An index or a slice that
panics is `none`. The depths of brackets wrap around as in the release profile.
-/

namespace Ivygrep.Native.Symbols

/-! ## Masking -/

/-- The rest of a block comment whose nesting is `depth`. -/
def blockCommentWidth : Int32 → List UInt8 → Nat
  | depth, first :: second :: rest =>
    if 0 < depth then
      if first = '/'.toUInt8 ∧ second = '*'.toUInt8 then 2 + blockCommentWidth (depth + 1) rest
      else if first = '*'.toUInt8 ∧ second = '/'.toUInt8 then
        2 + blockCommentWidth (depth - 1) rest
      else 1 + blockCommentWidth depth (second :: rest)
    else 0
  | depth, [_] => if 0 < depth then 1 else 0
  | _, [] => 0

/-- The rest of a quoted text with the closing quotes. A backslash skips the byte after it. -/
def quotedWidth (quote : UInt8) (width : Nat) : List UInt8 → Nat
  | [] => 0
  | [byte] =>
    if byte = '\\'.toUInt8 then 1
    else if (List.replicate width quote).isPrefixOf [byte] then width
    else 1
  | byte :: next :: rest =>
    if byte = '\\'.toUInt8 then 2 + quotedWidth quote width rest
    else if (List.replicate width quote).isPrefixOf (byte :: next :: rest) then width
    else 1 + quotedWidth quote width (next :: rest)

section

variable (language : Str)

def hashComments : Bool :=
  ["python", "ruby", "shell", "bash", "perl", "r", "julia", "elixir", "starlark"].any
    fun name => name.toList = language

def dashComments : Bool :=
  ["sql", "lua", "haskell", "ada"].any fun name => name.toList = language

/-- How many bytes the comment or the quoted text takes that starts here. -/
def nonCodeWidth : List UInt8 → Option Nat
  | [] => none
  | byte :: rest =>
    if ['/'.toUInt8, '/'.toUInt8].isPrefixOf (byte :: rest) ∨
        hashComments language ∧ byte = '#'.toUInt8 ∨
        dashComments language ∧ ['-'.toUInt8, '-'.toUInt8].isPrefixOf (byte :: rest) then
      some ((byte :: rest).takeWhile fun byte => byte ≠ '\n'.toUInt8).length
    else if ['/'.toUInt8, '*'.toUInt8].isPrefixOf (byte :: rest) then
      some (2 + blockCommentWidth 1 ((byte :: rest).drop 2))
    else if byte = '\x27'.toUInt8 ∨ byte = '\x22'.toUInt8 ∨ byte = '\x60'.toUInt8 then
      let width := if (List.replicate 3 byte).isPrefixOf (byte :: rest) then 3 else 1
      some (width + quotedWidth byte width ((byte :: rest).drop width))
    else none

def maskByte (byte : UInt8) : UInt8 :=
  if byte = '\n'.toUInt8 ∨ byte = '\r'.toUInt8 then byte else ' '.toUInt8

/-- The loop of `mask_non_code` from an offset on, for at most so many rounds. -/
def maskFrom : Nat → List UInt8 → Option (List UInt8)
  | _, [] => some []
  | 0, _ :: _ => none
  | rounds + 1, byte :: rest =>
    match nonCodeWidth language (byte :: rest) with
    | none => (maskFrom rounds rest).map (byte :: ·)
    | some width =>
      if width ≤ (byte :: rest).length then
        (maskFrom rounds ((byte :: rest).drop width)).map
          (((byte :: rest).take width).map maskByte ++ ·)
      else none

/-- `mask_non_code`. -/
def maskNonCode (text : Str) : Option Str :=
  (maskFrom language (Str.len text) (Str.bytes text)).bind Str.fromUtf8

end

/-! ## Occurrences -/

/-- `str::match_indices` from an offset on, where `skip` characters belong to the last match. -/
def matchIndicesFrom (pattern : Str) : Nat → Nat → Str → List Nat
  | _, _, [] => []
  | offset, 0, c :: rest =>
    if Str.startsWith (c :: rest) pattern then
      offset :: matchIndicesFrom pattern (offset + c.utf8Size) (pattern.length - 1) rest
    else matchIndicesFrom pattern (offset + c.utf8Size) 0 rest
  | offset, skip + 1, c :: rest => matchIndicesFrom pattern (offset + c.utf8Size) skip rest

@[inherit_doc matchIndicesFrom]
def matchIndices (text pattern : Str) : List Nat := matchIndicesFrom pattern 0 0 text

def lineStarts (text : Str) : List Nat :=
  0 :: (matchIndices text ['\n']).map fun offset => offset + 1

/-- `str::trim_end`. -/
def trimEnd (text : Str) : Str := text.rdropWhile isWhitespace

/-- What separates words in `looks_like_definition` and the functions that it calls. -/
def isWordBreak (c : Char) : Bool := !c.isAlphanum && c != '_'

section

variable (isXidContinue : Char → Bool)

/-- `qualifier_matches` without a node. -/
def qualifierMatches (source : Str) (nameStart : Nat) : Option Str → Option Bool
  | none => some true
  | some owner => do
    let before := trimEnd (← Str.slice source 0 nameStart)
    match ["::", ".", "->", "#"].findSome? fun separator =>
        TestEdges.stripSuffix before separator.toList with
    | none => return false
    | some before =>
      let qualifier := (trimEnd before).rtakeWhile (isIdentifierCharacter isXidContinue)
      return Str.toAsciiLowercase qualifier = Str.toAsciiLowercase owner

end

/-- `after_parameter_list`. -/
def afterParameterListFrom : Nat → Str → Option Str
  | _, [] => none
  | depth, c :: rest =>
    if c = '(' then afterParameterListFrom (depth + 1) rest
    else if c = ')' ∧ depth = 1 then some (Str.trimStart rest)
    else if c = ')' ∧ 1 < depth then afterParameterListFrom (depth - 1) rest
    else afterParameterListFrom depth rest

@[inherit_doc afterParameterListFrom]
def afterParameterList (suffix : Str) : Option Str := afterParameterListFrom 0 suffix

/-- The loop of `looks_like_prototype_suffix`, for at most so many rounds. -/
def prototypeSuffixFrom : Nat → Str → Option Bool
  | _, [] => some true
  | 0, _ :: _ => none
  | rounds + 1, c :: rest =>
    if c = '=' then
      let default := Str.trim rest
      some (default = "0".toList ∨ default = "default".toList ∨ default = "delete".toList)
    else if Str.startsWith (c :: rest) "&&".toList then
      prototypeSuffixFrom rounds (Str.trimStart (rest.drop 1))
    else if c = '&' then prototypeSuffixFrom rounds (Str.trimStart rest)
    else
      let qualifier := (c :: rest).takeWhile fun c => !isWordBreak c
      let suffix := Str.trimStart ((c :: rest).dropWhile fun c => !isWordBreak c)
      if ["const", "final", "noexcept", "override", "volatile"].any fun name =>
          name.toList = qualifier then
        if qualifier = "noexcept".toList ∧ Str.startsWith suffix ['('] then
          match afterParameterList suffix with
          | none => some false
          | some after => prototypeSuffixFrom rounds after
        else prototypeSuffixFrom rounds suffix
      else some false

/-- `looks_like_prototype_suffix`. -/
def looksLikePrototypeSuffix (suffix : Str) : Option Bool :=
  match (TestEdges.stripSuffix (trimEnd suffix) [';']).map Str.trim with
  | none => some false
  | some suffix => prototypeSuffixFrom suffix.length suffix

/-- `looks_like_prototype_prefix`. -/
def looksLikePrototypePrefix (before : Str) : Bool :=
  if before.isEmpty || ['.'].isSuffixOf before || "->".toList.isSuffixOf before then false
  else if "::".toList.isSuffixOf before && !before.any isWhitespace then false
  else
    let firstWord := (before.dropWhile isWordBreak).takeWhile fun c => !isWordBreak c
    ["await", "co_await", "co_return", "co_yield", "defer", "delete", "new", "return", "throw",
      "try", "yield"].all fun word => word.toList ≠ firstWord

/-- `looks_like_definition`. -/
def looksLikeDefinition (line : Str) (nameOffset : Nat) : Option Bool := do
  let before := trimEnd (← Str.slice line 0 nameOffset)
  if before.any fun c => c == '{' || c == ';' || c == '=' then
    return false
  let hasDefinitionKeyword := (before.splitOnP isWordBreak).any fun part =>
    ["class", "def", "enum", "fn", "func", "function", "interface", "record", "struct",
      "trait"].any fun word => word.toList = part
  if hasDefinitionKeyword then
    return true
  match afterParameterList (← Str.slice line nameOffset (Str.len line)) with
  | none => return false
  | some after =>
    if ["\x7b", "->", ":", "throws "].any fun pattern => Str.startsWith after pattern.toList then
      return true
    return (← looksLikePrototypeSuffix after) && looksLikePrototypePrefix before

/-- The loop of `follows_call_arguments` over type arguments. -/
def followsTypeArguments : Int32 → Str → Bool
  | _, [] => false
  | depth, c :: rest =>
    if c = '<' then followsTypeArguments (depth + 1) rest
    else if c = '>' then
      if depth - 1 = 0 then Str.startsWith (Str.trimStart rest) ['(']
      else followsTypeArguments (depth - 1) rest
    else if c = ';' ∨ c = '{' ∨ c = '}' then false
    else followsTypeArguments depth rest

/-- `follows_call_arguments`. -/
def followsCallArguments (suffix : Str) : Bool :=
  let trimmed := Str.trimStart suffix
  let suffix := match Str.stripPrefix trimmed "::".toList with
    | some rest => Str.trimStart rest
    | none => trimmed
  if Str.startsWith suffix ['<'] then followsTypeArguments 0 suffix
  else Str.startsWith suffix ['(']

/-! ## The lines of the occurrences -/

structure SymbolLine where
  line : Nat
  preview : Str
  isCall : Bool
deriving DecidableEq

section

variable (isXidContinue : Char → Bool)

/-- A round of the loop of `matching_symbol_lines_in_source`: the line of the occurrence, unless it
    is none of the symbol. -/
def symbolLineAt (text source normalized : Str) (owner : Option Str) (start : Nat) :
    Option (Option SymbolLine) := do
  let lower := Str.toAsciiLowercase source
  let stop := start + Str.len normalized
  let before ← Str.slice source 0 start
  if before.getLast?.any (isIdentifierCharacter isXidContinue) then
    return none
  let after ← Str.slice source stop (Str.len source)
  if after.head?.any (isIdentifierCharacter isXidContinue) then
    return none
  if !(← qualifierMatches isXidContinue source start owner) then
    return none
  let line := ((lineStarts text).takeWhile fun offset => offset ≤ start).length
  let lineStart ← (lineStarts text)[line - 1]?
  let lineEnd := (lineStarts text)[line]?.getD (Str.len source)
  if ← looksLikeDefinition (← Str.slice lower lineStart lineEnd) (start - lineStart) then
    return none
  let preview ← Str.slice text lineStart (Str.len text)
  return some
    { line
      preview := Str.trim ((Str.lines preview).head?.getD [])
      isCall := followsCallArguments after }

/-- The entry of a line in the map of the lines. -/
def recordLine (occurrence : SymbolLine) : List SymbolLine → List SymbolLine
  | [] => [occurrence]
  | found :: rest =>
    if found.line = occurrence.line then
      { found with isCall := found.isCall || occurrence.isCall } :: rest
    else if occurrence.line < found.line then occurrence :: found :: rest
    else found :: recordLine occurrence rest

/-- `matching_symbol_lines_in_source` without a tree. -/
def matchingSymbolLines (text source : Str) (query : SymbolQuery) : Option (List SymbolLine) :=
  let normalized := Str.toAsciiLowercase query.name
  if normalized = [] then some []
  else do
    let occurrences ← (matchIndices (Str.toAsciiLowercase source) normalized).mapM
      (symbolLineAt isXidContinue text source normalized query.owner)
    return occurrences.reduceOption.foldl (fun lines occurrence => recordLine occurrence lines) []

end

end Ivygrep.Native.Symbols
