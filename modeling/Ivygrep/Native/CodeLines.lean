import Ivygrep.Native.Str

/-!
# Lines of code

`code_line_ranges` of `text.rs`, which skips comments and annotations line by line. Slices that panic
are `none`.
-/

namespace Ivygrep.Native

namespace Str

/-- `str::split_inclusive` for `\n`. -/
def splitInclusive : Str → List Str
  | [] => []
  | c :: rest =>
    if c = '\n' then [c] :: splitInclusive rest
    else
      match splitInclusive rest with
      | [] => [[c]]
      | line :: lines => (c :: line) :: lines

/-- `&text[offset..]`, which is `none` where that panics. -/
def sliceFrom (text : Str) (offset : Nat) : Option Str := (splitAtByte offset text).map Prod.snd

/-- What `str::strip_suffix` leaves for a character. -/
def withoutLast (c : Char) (s : Str) : Str := if s.getLast? = some c then s.dropLast else s

end Str

namespace CodeLines

/-! ## Brackets of an annotation -/

/-- `u8::is_ascii_whitespace`. -/
def isAsciiWhitespace (byte : UInt8) : Bool :=
  byte == 0x20 || byte == 0x09 || byte == 0x0a || byte == 0x0c || byte == 0x0d

inductive StringDelimiter where
  | tripleDouble
  | tripleSingle
  | double
  | single
  | backtick
deriving DecidableEq

namespace StringDelimiter

def chars : StringDelimiter → Str
  | tripleDouble => ['"', '"', '"']
  | tripleSingle => ['\x27', '\x27', '\x27']
  | double => ['"']
  | single => ['\x27']
  | backtick => ['`']

def bytes (delimiter : StringDelimiter) : List UInt8 := Str.bytes delimiter.chars

/-- Whether a string goes on in the next line. -/
def isLong (delimiter : StringDelimiter) : Bool :=
  delimiter.bytes.length == 3 || delimiter.bytes.head? == some 0x60

end StringDelimiter

/-- `STRING_DELIMITERS`. -/
def stringDelimiters : List StringDelimiter :=
  [.tripleDouble, .tripleSingle, .double, .single, .backtick]

/-- What is open at a place of a line. Between lines, `string` is long. -/
structure OpenBrackets where
  depth : Nat
  string : Option StringDelimiter
  blockComment : Bool
deriving DecidableEq

/-- `OpenBrackets::default`. -/
def OpenBrackets.default : OpenBrackets := ⟨0, none, false⟩

inductive LineComments where
  | hash
  | mixed
deriving DecidableEq

namespace LineComments

/-- `LineComments::for_language`. -/
def forLanguage (language : Str) : LineComments :=
  if Str.toAsciiLowercase language = "python".toList then hash else mixed

/-- Whether a line comment starts at an offset. -/
def startsAt (comments : LineComments) (bytes : List UInt8) (offset : Nat) : Bool :=
  match comments with
  | hash => bytes[offset]? == some 0x23
  | mixed =>
    [0x2f, 0x2f].isPrefixOf (bytes.drop offset) ||
      bytes[offset]? == some 0x23 &&
        (offset == 0 || bytes[offset - 1]?.any isAsciiWhitespace) &&
        bytes[offset + 1]?.all isAsciiWhitespace

end LineComments

/-- The position of a pair of bytes, as `windows(2)` finds it. -/
def findPair (pair : UInt8 × UInt8) (bytes : List UInt8) : Option Nat :=
  (bytes.zip bytes.tail).findIdx? (· == pair)

/-- What is still open at the end of a line. -/
def OpenBrackets.atLineEnd (brackets : OpenBrackets) : OpenBrackets :=
  { brackets with string := brackets.string.filter StringDelimiter.isLong }

/-- The loop of `close_bracketsbrackets`. The string that is open is part of what is open here. -/
def closeFrom (comments : LineComments) (bytes : List UInt8) (brackets : OpenBrackets)
    (offset : Nat) : Except OpenBrackets Nat :=
  if h : offset < bytes.length then
    let rest := bytes.drop offset
    match brackets.string with
    | some delimiter =>
      if bytes[offset] = 0x5c then closeFrom comments bytes brackets (offset + 2)
      else if delimiter.bytes.isPrefixOf rest then
        closeFrom comments bytes { brackets with string := none } (offset + delimiter.bytes.length)
      else closeFrom comments bytes brackets (offset + 1)
    | none =>
      if brackets.blockComment then
        match findPair (0x2a, 0x2f) rest with
        | none => .error brackets.atLineEnd
        | some stop =>
          closeFrom comments bytes { brackets with blockComment := false } (offset + stop + 2)
      else
        match stringDelimiters.find? fun delimiter => delimiter.bytes.isPrefixOf rest with
        | some delimiter =>
          closeFrom comments bytes { brackets with string := some delimiter }
            (offset + delimiter.bytes.length)
        | none =>
          if [0x2f, 0x2a].isPrefixOf rest then
            closeFrom comments bytes { brackets with blockComment := true } (offset + 2)
          else if comments.startsAt bytes offset then .error brackets.atLineEnd
          else if bytes[offset] ∈ [0x28, 0x5b, 0x7b] then
            closeFrom comments bytes { brackets with depth := brackets.depth + 1 } (offset + 1)
          else if bytes[offset] ∈ [0x29, 0x5d, 0x7d] then
            if brackets.depth - 1 = 0 then .ok (offset + 1)
            else closeFrom comments bytes { brackets with depth := brackets.depth - 1 } (offset + 1)
          else closeFrom comments bytes brackets (offset + 1)
  else .error brackets.atLineEnd
termination_by bytes.length - offset
decreasing_by
  all_goals try omega
  all_goals
    have hpos : 0 < delimiter.bytes.length := by cases delimiter <;> decide
    omega

/-- `close_bracketsbrackets`. -/
def closeOpenBrackets (text : Str) (brackets : OpenBrackets) (comments : LineComments) :
    Except OpenBrackets Nat :=
  closeFrom comments (Str.bytes text) brackets 0

theorem closeFrom_pos {comments : LineComments} {bytes : List UInt8} {brackets : OpenBrackets}
    {offset stop : Nat} (h : closeFrom comments bytes brackets offset = .ok stop) : 0 < stop := by
  fun_induction closeFrom comments bytes brackets offset
  all_goals first
    | contradiction
    | exact Except.ok.inj h ▸ Nat.succ_pos _
    | (rename_i ih; exact ih h)

/-! ## Annotations -/

def isIdentifier (c : Char) : Bool := c.isAlphanum || c == '_' || c == '.' || c == '$'

/-- The text after the brackets that a text starts with. -/
def closeAnnotation? (comments : LineComments) (text : Str) :
    Option (Except OpenBrackets Str) :=
  match closeOpenBrackets text .default comments with
  | .error brackets => some (.error brackets)
  | .ok stop => (Str.sliceFrom text stop).map fun rest => .ok (Str.trimStart rest)

/-- `csharp_attribute_has_arguments`. -/
def csharpAttributeHasArguments (rest : Str) : Bool :=
  let isTarget : Char → Bool := fun c => c.isAlphanum || c == '_'
  let target :=
    if (rest.takeWhile isTarget).isEmpty then rest
    else
      match Str.trimStart (rest.dropWhile isTarget) with
      | ':' :: afterTarget =>
        if Str.startsWith afterTarget [':'] then rest else Str.trimStart afterTarget
      | _ => rest
  let isName : Char → Bool := fun c => c.isAlphanum || c == '_' || c == '.' || c == ':'
  !(target.takeWhile isName).isEmpty &&
    Str.startsWith (Str.trimStart (target.dropWhile isName)) ['(']

/-- The annotation that a line starts with, from its brackets on or without any. -/
inductive Annotation where
  | bare (rest : Str)
  | withBrackets (text : Str)

/-- `@Name` and `@Name(`, `#[` and `#![`, and a C# attribute with arguments. -/
def annotation? (line : Str) : Option Annotation :=
  match line with
  | '@' :: rest =>
    let afterName := rest.dropWhile isIdentifier
    if (rest.takeWhile isIdentifier).isEmpty then none
    else if Str.startsWith afterName ['('] then some (.withBrackets afterName)
    else some (.bare afterName)
  | '#' :: rest =>
    let afterHash := (Str.stripPrefix rest ['!']).getD rest
    if Str.startsWith afterHash ['['] then some (.withBrackets afterHash) else none
  | '[' :: rest => if csharpAttributeHasArguments rest then some (.withBrackets line) else none
  | _ => none

/-- The text that is left of a line. -/
def Annotation.text : Annotation → Str
  | bare rest => rest
  | withBrackets text => text

theorem annotation?_length {line : Str} {found : Annotation}
    (h : annotation? line = some found) : found.text.length ≤ line.length ∧
      (∀ rest, found = .bare rest → rest.length < line.length) := by
  unfold annotation? at h
  split at h
  · next rest =>
    have hname := (List.dropWhile_sublist isIdentifier (l := rest)).length_le
    simp only at h
    split at h
    · cases h
    · split at h <;> cases h
      · exact ⟨Nat.le_succ_of_le hname, nofun⟩
      · exact ⟨Nat.le_succ_of_le hname, fun _ heq => by cases heq; exact Nat.lt_succ_of_le hname⟩
  · next rest =>
    have hhash : ((Str.stripPrefix rest ['!']).getD rest).length ≤ rest.length := by
      unfold Str.stripPrefix
      split
      · simp
      · exact Nat.le_refl _
    simp only at h
    split at h <;> cases h
    exact ⟨Nat.le_succ_of_le hhash, nofun⟩
  · split at h <;> cases h
    exact ⟨Nat.le_refl _, nofun⟩
  · cases h

theorem length_of_splitAtByte {text before after : Str} {offset : Nat}
    (h : Str.splitAtByte offset text = some (before, after)) :
    after.length ≤ text.length ∧ (0 < offset → after.length < text.length) := by
  induction text generalizing offset before with
  | nil =>
    cases offset with
    | zero =>
      cases h
      exact ⟨Nat.le_refl _, fun hpos => absurd hpos (Nat.lt_irrefl 0)⟩
    | succ offset => cases h
  | cons c text ih =>
    cases offset with
    | zero =>
      cases h
      exact ⟨Nat.le_refl _, fun hpos => absurd hpos (Nat.lt_irrefl 0)⟩
    | succ offset =>
      rw [Str.splitAtByte] at h
      split at h
      · obtain ⟨split, hsplit, heq⟩ := Option.map_eq_some_iff.mp h
        cases heq
        have hlt := Nat.lt_succ_of_le (ih hsplit).1
        exact ⟨Nat.le_of_lt hlt, fun _ => hlt⟩
      · cases h

theorem closeAnnotation?_length {comments : LineComments} {text rest : Str}
    (h : closeAnnotation? comments text = some (.ok rest)) : rest.length < text.length := by
  unfold closeAnnotation? at h
  split at h
  · cases h
  · next stop hstop =>
    obtain ⟨after, hafter, heq⟩ := Option.map_eq_some_iff.mp h
    obtain rfl := Except.ok.inj heq
    obtain ⟨split, hsplit, rfl⟩ := Option.map_eq_some_iff.mp hafter
    have hlt := (length_of_splitAtByte hsplit).2 (closeFrom_pos hstop)
    exact Nat.lt_of_le_of_lt (List.dropWhile_sublist _).length_le hlt

/-- `strip_annotation_prefix`. -/
def stripAnnotationPrefix? (comments : LineComments) (line : Str) :
    Option (Except OpenBrackets Str) :=
  match _hline : annotation? line with
  | none => some (.ok line)
  | some (.bare rest) => stripAnnotationPrefix? comments (Str.trimStart rest)
  | some (.withBrackets text) =>
    match _htext : closeAnnotation? comments text with
    | none => none
    | some (.error brackets) => some (.error brackets)
    | some (.ok rest) => stripAnnotationPrefix? comments rest
termination_by line.length
decreasing_by
  · exact Nat.lt_of_le_of_lt (List.dropWhile_sublist _).length_le
      ((annotation?_length _hline).2 _ rfl)
  · exact Nat.lt_of_lt_of_le (closeAnnotation?_length _htext) (annotation?_length _hline).1

/-! ## Lines -/

structure LineState where
  inBlockComment : Bool
  brackets : Option OpenBrackets

def LineState.start : LineState := ⟨false, none⟩

/-- Whether what is left of a line after its annotations is no code. -/
def isSkipped (code : Str) : Bool :=
  code.isEmpty || Str.startsWith code ['/', '/'] || Str.startsWith code ['#'] ||
    Str.startsWith code ['*'] || Str.startsWith code ['@'] || Str.startsWith code ['*', '/'] ||
    Str.startsWith code ['['] && code.getLast? == some ']'

/-- What is left of a line, behind what it starts with. -/
def visitCode? (comments : LineComments) (rest : Str) : Option (LineState × Option Str) :=
  (stripAnnotationPrefix? comments rest).map fun
    | .error brackets => ({ LineState.start with brackets := some brackets }, none)
    | .ok code => (.start, if isSkipped code then none else some code)

/-- A trimmed line, behind the brackets that were open before it. -/
def visitRest? (comments : LineComments) (rest : Str) : Option (LineState × Option Str) :=
  if Str.startsWith rest ['/', '*'] then
    some ({ LineState.start with inBlockComment := !Str.contains rest ['*', '/'] }, none)
  else visitCode? comments rest

/-- A trimmed line, and the code at its end. -/
def visitLine? (comments : LineComments) (state : LineState) (trimmed : Str) :
    Option (LineState × Option Str) :=
  if state.inBlockComment then
    some ({ state with inBlockComment := !Str.contains trimmed ['*', '/'] }, none)
  else
    match state.brackets with
    | none => visitRest? comments trimmed
    | some brackets =>
      match closeOpenBrackets trimmed brackets comments with
      | .error brackets => some ({ LineState.start with brackets := some brackets }, none)
      | .ok stop =>
        (Str.sliceFrom trimmed stop).bind fun rest => visitRest? comments (Str.trimStart rest)

/-- A line without its newline. -/
def withoutNewline (line : Str) : Str := Str.withoutLast '\r' (Str.withoutLast '\n' line)

/-- The range of the code at the end of a line. -/
def codeRange (lineStart : Nat) (line code : Str) : Nat × Nat :=
  let trimmed := Str.trim line
  let leadingBytes := Str.len line - Str.len (Str.trimStart line) + (Str.len trimmed - Str.len code)
  let trailingBytes := Str.len line - Str.len (Str.trimEnd line)
  (lineStart + leadingBytes, lineStart + Str.len line - trailingBytes)

/-- The ranges of lines from an offset on. -/
def rangesFrom? (comments : LineComments) (offset : Nat) (state : LineState) :
    List Str → Option (List (Nat × Nat))
  | [] => some []
  | line :: lines => do
    let (state, code) ← visitLine? comments state (Str.trim (withoutNewline line))
    let ranges ← rangesFrom? comments (offset + Str.len line) state lines
    return (code.map (codeRange offset (withoutNewline line))).toList ++ ranges

/-- `code_line_ranges`, all that the iterator yields. -/
def codeLineRanges? (text language : Str) : Option (List (Nat × Nat)) :=
  rangesFrom? (.forLanguage language) 0 .start (Str.splitInclusive text)

end CodeLines

end Ivygrep.Native
