import Ivygrep.Native.Str

/-!
# Lists of glob patterns

`parse_glob_csv` of `path_glob.rs` splits a list of patterns at the commas that are no part of a
pattern. No text has so many braces that the depth would saturate.
-/

namespace Ivygrep.Native

/-- The variables of the loop of `parse_glob_csv`. -/
structure GlobCsv where
  patterns : List Str
  pattern : Str
  braceDepth : Nat
  inCharacterClass : Bool
  escaped : Bool

namespace GlobCsv

/-- The patterns with the current one, unless it is blank. -/
def finished (csv : GlobCsv) : List Str :=
  if Str.trim csv.pattern = [] then csv.patterns else csv.patterns ++ [Str.trim csv.pattern]

/-- The text for the character after a backslash. -/
def escapedText (csv : GlobCsv) (character : Char) : Str :=
  if character = ',' then
    if 0 < csv.braceDepth ∧ csv.inCharacterClass = false then ['[', ',', ']'] else [',']
  else ['\\', character]

/-- A round of the loop. -/
def visit (csv : GlobCsv) (character : Char) : GlobCsv :=
  if csv.escaped then
    { csv with pattern := csv.pattern ++ csv.escapedText character, escaped := false }
  else if character = '\\' then { csv with escaped := true }
  else if csv.inCharacterClass then
    { csv with pattern := csv.pattern ++ [character], inCharacterClass := character != ']' }
  else if character = '[' then
    { csv with pattern := csv.pattern ++ [character], inCharacterClass := true }
  else if character = '{' then
    { csv with pattern := csv.pattern ++ [character], braceDepth := csv.braceDepth + 1 }
  else if character = '}' then
    { csv with pattern := csv.pattern ++ [character], braceDepth := csv.braceDepth - 1 }
  else if character = ',' ∧ csv.braceDepth = 0 then
    { csv with patterns := csv.finished, pattern := [] }
  else { csv with pattern := csv.pattern ++ [character] }

end GlobCsv

/-- `parse_glob_csv`. -/
def parseGlobCsv (raw : Option Str) : List Str :=
  let csv := (raw.getD []).foldl GlobCsv.visit ⟨[], [], 0, false, false⟩
  if csv.escaped then { csv with pattern := csv.pattern ++ ['\\'] }.finished else csv.finished

end Ivygrep.Native
