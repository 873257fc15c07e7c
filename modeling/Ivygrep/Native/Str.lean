import Ivygrep.ForStd.Utf8

/-!
# Rust string primitives

A `str` is modelled as the list of its characters. This file has the `str`
methods that the modelled sources call, with the semantics of the Rust standard
library: Unicode trimming, `lines`, byte lengths, ASCII case folding.
-/

namespace Ivygrep.Native

/-- A `str` as the list of its characters. -/
abbrev Str := List Char

/-- `char::is_whitespace`: the Unicode `White_Space` property. -/
def isWhitespace (c : Char) : Bool :=
  let n := c.toNat
  (0x09 ≤ n && n ≤ 0x0d) || n == 0x20 || n == 0x85 || n == 0xa0 || n == 0x1680 ||
    (0x2000 ≤ n && n ≤ 0x200a) || n == 0x2028 || n == 0x2029 || n == 0x202f ||
    n == 0x205f || n == 0x3000

namespace Str

/-- `str::trim_start`. -/
def trimStart (s : Str) : Str := s.dropWhile isWhitespace

/-- `str::trim_end`. -/
def trimEnd (s : Str) : Str := s.rdropWhile isWhitespace

/-- `str::trim`. -/
def trim (s : Str) : Str := (trimStart s).rdropWhile isWhitespace

/-- `str::as_bytes`: the UTF-8 encoding. -/
def bytes (s : Str) : List UInt8 := s.flatMap String.utf8EncodeChar

/-- `str::len`: the number of UTF-8 bytes. -/
def len (s : Str) : Nat := (s.map Char.utf8Size).sum

/-- `str::starts_with` for a string pattern. -/
def startsWith (s pattern : Str) : Bool := pattern.isPrefixOf s

/-- `str::contains` for a string pattern. -/
def contains (s pattern : Str) : Bool := decide (pattern <:+: s)

/-- `str::to_ascii_lowercase`. -/
def toAsciiLowercase (s : Str) : Str := s.map Char.toLower

/-- `str::strip_prefix`. -/
def stripPrefix (s pattern : Str) : Option Str :=
  if startsWith s pattern then some (s.drop pattern.length) else none

/-- `str::split_once` for a character pattern: the text before and after its
    first occurrence. -/
def splitOnce (sep : Char) : Str → Option (Str × Str)
  | [] => none
  | c :: rest =>
    if c = sep then some ([], rest)
    else (splitOnce sep rest).map fun (before, after) => (c :: before, after)

/-- `[&str]::join`. -/
def join (sep : Str) (parts : List Str) : Str := (parts.intersperse sep).flatten

/-- `str::lines`. `cur` is the current line, reversed. A line that ends in `\n`
    also loses a `\r` before it; the last line needs no `\n`. -/
def linesFrom (cur : Str) : Str → List Str
  | [] => if cur.isEmpty then [] else [cur.reverse]
  | c :: rest =>
    if c = '\n' then
      (match cur with
        | '\r' :: cur' => cur'.reverse
        | _ => cur.reverse) :: linesFrom [] rest
    else linesFrom (c :: cur) rest

@[inherit_doc linesFrom]
def lines (text : Str) : List Str := linesFrom [] text

/-- `String::from_utf8`. -/
def fromUtf8 (bytes : List UInt8) : Option Str :=
  if (ForStd.Utf8.valid bytes).2 = [] then some (ForStd.Utf8.valid bytes).1 else none

/-- `String::from_utf8_lossy`. -/
def fromUtf8Lossy (bytes : List UInt8) : Str := ForStd.Utf8.lossy bytes

/-- `str::split_at_checked`. -/
def splitAtByte : Nat → Str → Option (Str × Str)
  | 0, text => some ([], text)
  | _ + 1, [] => none
  | offset + 1, c :: rest =>
    if c.utf8Size ≤ offset + 1 then
      (splitAtByte (offset + 1 - c.utf8Size) rest).map fun (before, after) => (c :: before, after)
    else none

/-- `str::is_char_boundary`. -/
def isCharBoundary (text : Str) (offset : Nat) : Bool := (splitAtByte offset text).isSome

/-- `&text[start..stop]`, which is `none` where that panics. -/
def slice (text : Str) (start stop : Nat) : Option Str :=
  if start ≤ stop then
    (splitAtByte stop text).bind fun (before, _) => (splitAtByte start before).map Prod.snd
  else none

end Str

end Ivygrep.Native
