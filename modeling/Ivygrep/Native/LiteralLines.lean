import Ivygrep.ForStd.Kmp
import Ivygrep.Native.TextSniff

/-!
# Counting the lines with a literal

`LineMatcher` and `LineCounter` of `search_literal.rs`: the number of lines of a file that have a
literal, in any case, counted while the file is read and without keeping it.
-/

namespace Ivygrep.Native

/-- `char::to_lowercase`, with what the Unicode tables say of it. -/
structure Lowercase where
  toLowercase : Char → Str
  ascii : ∀ c : Char, c.toNat < 0x80 → toLowercase c = [c.toLower]
  nonempty : ∀ c, toLowercase c ≠ []
  cr : ∀ c, '\r' ∈ toLowercase c → c = '\r'

/-- `char::is_ascii`. -/
def isAsciiChar (c : Char) : Bool := c.toNat < 0x80

namespace Lowercase

variable (lowercase : Lowercase)

/-- `fold_literal_char`, what it adds to the text. -/
def foldLiteralChar (character : Char) : Str :=
  (lowercase.toLowercase character).map fun lower => if lower = 'ς' then 'σ' else lower

/-- `fold_literal_case`. -/
def foldLiteralCase (text : Str) : Str :=
  if text.all isAsciiChar then Str.toAsciiLowercase text
  else text.flatMap lowercase.foldLiteralChar

end Lowercase

structure LineMatcher where
  needle : List UInt8
  prefixTable : List Nat

namespace LineMatcher

/-- `LineMatcher::new`. -/
def new (queryLower : Str) : LineMatcher :=
  let needle := Str.bytes queryLower
  { needle := needle, prefixTable := ForStd.Kmp.buildTable needle }

end LineMatcher

structure LineCount where
  matchCount : Nat
  isLowerBound : Bool
  deriving DecidableEq

structure LineCounter where
  matched : Nat
  matchedLine : Bool
  lines : Nat
  sniffedBytes : Nat

namespace LineCounter

/-- `LineCounter::new`. -/
def new : LineCounter := { matched := 0, matchedLine := false, lines := 0, sniffedBytes := 0 }

variable (lowercase : Lowercase) (matcher : LineMatcher)

/-- `LineCounter::byte`. The line has no match yet, so the next byte of the needle exists. -/
def byte (counter : LineCounter) (byte : UInt8) : LineCounter :=
  let matched := ForStd.Kmp.advance matcher.needle matcher.prefixTable counter.matched byte
  { counter with matched := matched, matchedLine := matched == matcher.needle.length }

/-- The loops over the lowercase characters and over the bytes of each, which both stop at a
    match. -/
def feed (counter : LineCounter) : List UInt8 → LineCounter
  | [] => counter
  | byte :: bytes =>
    let counter := counter.byte matcher byte
    if counter.matchedLine then counter else feed counter bytes

/-- `LineCounter::character`, `none` for a file that is binary. -/
def character (counter : LineCounter) (character : Char) : Option LineCounter :=
  if counter.sniffedBytes < textSniffBytes ∧ character = '\x00' then none
  else
    let counter := { counter with
      sniffedBytes := min (counter.sniffedBytes + character.utf8Size) textSniffBytes }
    if character = '\n' then
      some { counter with
        lines := counter.lines + counter.matchedLine.toNat
        matched := 0
        matchedLine := false }
    else if counter.matchedLine then some counter
    else if isAsciiChar character then
      some (counter.byte matcher (UInt8.ofNat character.toLower.toNat))
    else some (counter.feed matcher (Str.bytes (lowercase.foldLiteralChar character)))

/-- `LineCounter::text`. An ASCII text is read as bytes, which are its characters. -/
def text (counter : LineCounter) : Str → Option LineCounter
  | [] => some counter
  | character :: rest =>
    (counter.character lowercase matcher character).bind fun counter => text counter rest

/-- `LineCounter::finish`. -/
def finish (counter : LineCounter) : Nat := counter.lines + counter.matchedLine.toNat

end LineCounter

/-- `error_len` of the error of `str::from_utf8`, from the bytes after `valid_up_to`. -/
def errorLen (rest : List UInt8) : Option Nat :=
  match ForStd.Utf8.decode rest with
  | .invalid width => some width
  | _ => none

/-- What one call of `Read::read` gives before the end of the file: at least one byte, and at most
    what the buffer has room for, on which nothing depends. -/
inductive LineRead (ε : Type) where
  | interrupted
  | failed (error : ε)
  | bytes (read : { bytes : List UInt8 // bytes ≠ [] })

namespace LineMatcher

variable (lowercase : Lowercase) (matcher : LineMatcher)

/-- The loop over the buffer: the bytes that the next read continues are left. There are at most
    as many rounds as bytes. -/
def decodeBuffer (atEnd : Bool) : Nat → LineCounter → List UInt8 →
    Option (LineCounter × List UInt8)
  | 0, counter, _ => some (counter, [])
  | fuel + 1, counter, buffer =>
    if buffer = [] then some (counter, [])
    else
      let validText := (ForStd.Utf8.valid buffer).1
      let rest := (ForStd.Utf8.valid buffer).2
      (counter.text lowercase matcher validText).bind fun counter =>
        if rest = [] then some (counter, [])
        else
          match errorLen rest with
          | some invalidBytes =>
            (counter.character lowercase matcher '\uFFFD').bind fun counter =>
              decodeBuffer atEnd fuel counter (rest.drop invalidBytes)
          | none =>
            if atEnd then
              (counter.character lowercase matcher '\uFFFD').map fun counter => (counter, [])
            else some (counter, rest)

variable {ε : Type} (cancelled : Nat → Bool) (stopAfterFirstMatch : Bool)

/-- The loop over the reads. `round` counts its rounds: the search can be cancelled before each of
    them. -/
def countLoop (round : Nat) (counter : LineCounter) (carry : List UInt8) :
    List (LineRead ε) → Except ε (Option LineCount)
  | [] =>
    if cancelled round then .ok none
    else
      match decodeBuffer lowercase matcher true carry.length counter carry with
      | none => .ok none
      | some (counter, _) => .ok (some ⟨counter.finish, false⟩)
  | read :: reads =>
    if cancelled round then .ok none
    else
      match read with
      | .interrupted => countLoop (round + 1) counter carry reads
      | .failed error => .error error
      | .bytes read =>
        let buffer := carry ++ read.val
        match decodeBuffer lowercase matcher false buffer.length counter buffer with
        | none => .ok none
        | some (counter, carry) =>
          if stopAfterFirstMatch ∧ textSniffBytes ≤ counter.sniffedBytes ∧
              (0 < counter.lines ∨ counter.matchedLine) then
            .ok (some ⟨counter.finish, true⟩)
          else countLoop (round + 1) counter carry reads

/-- `LineMatcher::count_lines`: `none` for binary files and cancelled searches. -/
def countLines (reads : List (LineRead ε)) : Except ε (Option LineCount) :=
  countLoop lowercase matcher cancelled stopAfterFirstMatch 0 LineCounter.new [] reads

end LineMatcher

end Ivygrep.Native
