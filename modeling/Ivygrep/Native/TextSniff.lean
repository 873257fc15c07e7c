import Ivygrep.Native.Str

/-!
# Which files are text

`is_indexable_file` of `chunking.rs`, which has the whole file, and `is_indexable_file_reader`,
which reads it piece by piece.
-/

namespace Ivygrep.Native

def textSniffBytes : Nat := 8 * 1024

def maxSourceLineBytes : Nat := 50000

/-- A continuation byte of UTF-8. -/
def isContinuation (byte : UInt8) : Bool := 0x80 ≤ byte && byte ≤ 0xbf

/-- The length of the character that starts with a non-ASCII byte, less one, or the
    `error_len` of `Utf8Error`. -/
def utf8Tail (first : UInt8) (rest : List UInt8) : Except (Option Nat) Nat :=
  if 0xc2 ≤ first && first ≤ 0xdf then
    match rest with
    | [] => .error none
    | second :: _ => if isContinuation second then .ok 1 else .error (some 1)
  else if 0xe0 ≤ first && first ≤ 0xef then
    match rest with
    | [] => .error none
    | second :: rest =>
      let low := if first = 0xe0 then 0xa0 else 0x80
      let high := if first = 0xed then 0x9f else 0xbf
      if !(low ≤ second && second ≤ high) then .error (some 1)
      else
        match rest with
        | [] => .error none
        | third :: _ => if isContinuation third then .ok 2 else .error (some 2)
  else if 0xf0 ≤ first && first ≤ 0xf4 then
    match rest with
    | [] => .error none
    | second :: rest =>
      let low := if first = 0xf0 then 0x90 else 0x80
      let high := if first = 0xf4 then 0x8f else 0xbf
      if !(low ≤ second && second ≤ high) then .error (some 1)
      else
        match rest with
        | [] => .error none
        | third :: rest =>
          if !isContinuation third then .error (some 2)
          else
            match rest with
            | [] => .error none
            | fourth :: _ => if isContinuation fourth then .ok 3 else .error (some 3)
  else .error (some 1)

/-- `str::from_utf8`, with `valid_up_to` and `error_len` of the error. `skip` counts the
    bytes that are left of the current character. -/
def fromUtf8 (offset skip : Nat) : List UInt8 → Except (Nat × Option Nat) Unit
  | [] => .ok ()
  | byte :: rest =>
    match skip with
    | skip + 1 => fromUtf8 (offset + 1) skip rest
    | 0 =>
      if byte < 0x80 then fromUtf8 (offset + 1) 0 rest
      else
        match utf8Tail byte rest with
        | .ok length => fromUtf8 (offset + 1) length rest
        | .error errorLen => .error (offset, errorLen)

/-- `is_probably_text`. The ratio is compared with `MIN_PRINTABLE_RATIO`, 0.85; on a
    sample of this size the `f32` comparison is exact. -/
def isProbablyText (bytes : List UInt8) : Bool :=
  let sample := bytes.take textSniffBytes
  if sample.isEmpty || sample.contains 0 then false
  else
    let printable := sample.countP fun byte =>
      byte == 0x0a || byte == 0x0d || byte == 0x09 || byte == 0x0c ||
        (0x20 ≤ byte && byte ≤ 0x7e)
    match fromUtf8 0 0 sample with
    | .ok _ => true
    | .error (validUpTo, none) => 0 < validUpTo || 85 * sample.length ≤ 100 * printable
    | .error (_, some _) => 85 * sample.length ≤ 100 * printable

/-- `scan_minified_run`: a run of bytes without a line end that is too long. -/
def scanMinifiedRun (run : Nat) : List UInt8 → Bool
  | [] => false
  | byte :: rest =>
    if byte = 0x0a then scanMinifiedRun 0 rest
    else if maxSourceLineBytes ≤ run + 1 then true
    else scanMinifiedRun (run + 1) rest

/-- `is_indexable_file`. It also takes the path, but accepts every extension. -/
def isIndexableFile (bytes : List UInt8) : Bool :=
  !bytes.isEmpty && isProbablyText bytes && !scanMinifiedRun 0 bytes

/-! ## Piece by piece -/

/-- What `scan_minified_run` leaves in its counter, where it finds no run that is too long. -/
def runAfter (run : Nat) : List UInt8 → Nat
  | [] => run
  | byte :: rest => if byte = 0x0a then runAfter 0 rest else runAfter (run + 1) rest

/-- What one call of `Read::read` with a buffer of `TEXT_SNIFF_BYTES` gives before the end. -/
abbrev Read := { bytes : List UInt8 // 0 < bytes.length ∧ bytes.length ≤ textSniffBytes }

/-- The sample with more bytes, `none` if it is full now and not text. -/
def fillSample (sample bytes : List UInt8) : Option (List UInt8) :=
  if sample.length < textSniffBytes then
    let filled := sample ++ bytes.take (textSniffBytes - sample.length)
    if filled.length = textSniffBytes ∧ isProbablyText filled = false then none else some filled
  else some sample

/-- The loop over the reads, which end with the file or with an error. -/
def readLoop {ε : Type} (sample : List UInt8) (run : Nat) :
    List (Except ε Read) → Except ε Bool
  | [] => .ok (isProbablyText sample)
  | .error error :: _ => .error error
  | .ok read :: reads =>
    match fillSample sample read.val with
    | none => .ok false
    | some sample =>
      if scanMinifiedRun run read.val then .ok false
      else readLoop sample (runAfter run read.val) reads

/-- `is_indexable_file_reader`. It also takes the path, but does not use it. -/
def isIndexableFileReader {ε : Type} (reads : List (Except ε Read)) : Except ε Bool :=
  readLoop [] 0 reads

end Ivygrep.Native
