import Ivygrep.Native.LiteralFiles

/-!
# The preview of a long line

`preview_line_window` of `search.rs` with its loops and its slice, which panic where they leave the
line or a character boundary.
-/

namespace Ivygrep.Native

/-- The loop that moves `start` up to a character boundary, for at most so many rounds. -/
def nextCharBoundary (line : Str) : Nat → Nat → Option Nat
  | 0, _ => none
  | rounds + 1, start =>
    if Str.isCharBoundary line start then some start else nextCharBoundary line rounds (start + 1)

/-- The loop that moves `end` down to a character boundary. -/
def lastCharBoundary (line : Str) : Nat → Option Nat
  | 0 => if Str.isCharBoundary line 0 then some 0 else none
  | stop + 1 =>
    if Str.isCharBoundary line (stop + 1) then some (stop + 1) else lastCharBoundary line stop

/-- Where the window starts before it is moved to a character boundary. -/
def windowStart (line : Str) (firstMatch : Option (Nat × Nat)) : Nat :=
  match firstMatch.filter fun found => found.1 ≤ found.2 ∧ found.2 ≤ Str.len line with
  | none => 0
  | some (start, stop) =>
    min (start - (maxPreviewLineBytes - (stop - start)) / 2) (Str.len line - maxPreviewLineBytes)

/-- `preview_line_window`, `none` where it would not return. -/
def previewLineWindow? (line : Str) (firstMatch : Option (Nat × Nat)) : Option Str := do
  if Str.len line ≤ maxPreviewLineBytes then
    return line
  let start ← nextCharBoundary line (Str.len line + 1) (windowStart line firstMatch)
  let stop ← lastCharBoundary line (min (start + maxPreviewLineBytes) (Str.len line))
  let window ← Str.slice line start stop
  return (if 0 < start then previewCutMarker else []) ++ window ++
    (if stop < Str.len line then previewCutMarker else [])

end Ivygrep.Native
