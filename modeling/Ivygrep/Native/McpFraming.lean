import Mathlib
import Ivygrep.Native.Str
import Ivygrep.Native.Usize

/-!
# Message framing of the MCP server

`read_message`, `read_line_capped`, `skip_line` and `write_message` of `mcp.rs`: a message is a line
of JSON or a body after a `Content-Length` header, which is found out from the first line that is
not blank. `serde_json::to_vec` is a parameter.
-/

namespace Ivygrep.Native

def maxMessageBytes : Nat := 16 * 1024 * 1024

inductive FramingMode where
  | unknown
  | jsonLine
  | contentLength
  deriving DecidableEq, Repr

/-- One message read from the stdio transport. -/
inductive Frame where
  | payload (bytes : List UInt8)
  | oversized
  deriving DecidableEq, Repr

/-! ## Input -/

/-- A `BufRead` that does not fail: the buffers that it still fills. -/
structure Reader where
  buffers : List (List UInt8)
  filled : ∀ buffer ∈ buffers, buffer ≠ []

/-- `consume`, over several buffers. -/
def dropBytes : Nat → List (List UInt8) → List (List UInt8)
  | _, [] => []
  | count, buffer :: rest =>
    if buffer.length ≤ count then dropBytes (count - buffer.length) rest
    else buffer.drop count :: rest

theorem dropBytes_filled {count : Nat} {buffers : List (List UInt8)}
    (h : ∀ buffer ∈ buffers, buffer ≠ []) : ∀ buffer ∈ dropBytes count buffers, buffer ≠ [] := by
  induction buffers generalizing count with
  | nil => simp [dropBytes]
  | cons first rest ih =>
    intro buffer hbuffer
    have hrest : ∀ buffer ∈ rest, buffer ≠ [] := fun buffer hmem =>
      h buffer (List.mem_cons_of_mem _ hmem)
    rw [dropBytes] at hbuffer
    split at hbuffer
    · exact ih hrest buffer hbuffer
    · rcases List.mem_cons.mp hbuffer with rfl | hmem
      · rw [ne_eq, List.drop_eq_nil_iff]
        omega
      · exact hrest buffer hmem

/-- The loop of `skip_line`. -/
def skipBuffers : List (List UInt8) → List (List UInt8)
  | [] => []
  | buffer :: rest =>
    match buffer.findIdx? (· = 0x0A) with
    | some newline => dropBytes (newline + 1) (buffer :: rest)
    | none => skipBuffers rest

theorem skipBuffers_filled {buffers : List (List UInt8)} (h : ∀ buffer ∈ buffers, buffer ≠ []) :
    ∀ buffer ∈ skipBuffers buffers, buffer ≠ [] := by
  induction buffers with
  | nil => simp [skipBuffers]
  | cons first rest ih =>
    rw [skipBuffers]
    split
    · exact dropBytes_filled h
    · exact ih fun buffer hmem => h buffer (List.mem_cons_of_mem _ hmem)

/-- The bytes up to the first newline, with it. -/
def throughNewline : List UInt8 → List UInt8
  | [] => []
  | byte :: rest => if byte = 0x0A then [byte] else byte :: throughNewline rest

namespace Reader

/-- Everything that is still to be read. -/
def bytes (reader : Reader) : List UInt8 := reader.buffers.flatten

def consume (reader : Reader) (count : Nat) : Reader :=
  ⟨dropBytes count reader.buffers, dropBytes_filled reader.filled⟩

/-- `take(limit).read_until(b'\n', ..)`. -/
def readUntil (reader : Reader) (limit : Nat) : List UInt8 × Reader :=
  let line := throughNewline (reader.bytes.take limit)
  (line, reader.consume line.length)

/-- `read_exact`. -/
def readExact (reader : Reader) (count : Nat) : Except Str (List UInt8 × Reader) :=
  if reader.bytes.length < count then .error "failed to fill whole buffer".toList
  else .ok (reader.bytes.take count, reader.consume count)

def skipLine (reader : Reader) : Reader :=
  ⟨skipBuffers reader.buffers, skipBuffers_filled reader.filled⟩

end Reader

theorem flatten_dropBytes (count : Nat) (buffers : List (List UInt8)) :
    (dropBytes count buffers).flatten = buffers.flatten.drop count := by
  induction buffers generalizing count with
  | nil => simp [dropBytes]
  | cons first rest ih =>
    rw [dropBytes, List.flatten_cons, List.drop_append]
    split
    · next hle => rw [ih, List.drop_eq_nil_of_le hle, List.nil_append]
    · next hlt =>
      have hzero : count - first.length = 0 := by omega
      simp [hzero]

namespace Reader

@[simp] theorem consume_bytes (reader : Reader) (count : Nat) :
    (reader.consume count).bytes = reader.bytes.drop count :=
  flatten_dropBytes count reader.buffers

theorem readUntil_fst (reader : Reader) (limit : Nat) :
    (reader.readUntil limit).1 = throughNewline (reader.bytes.take limit) := rfl

theorem readUntil_snd (reader : Reader) (limit : Nat) :
    (reader.readUntil limit).2.bytes =
      reader.bytes.drop (reader.readUntil limit).1.length :=
  consume_bytes reader _

/-- What is read is no longer there. -/
theorem readUntil_lt {reader : Reader} {limit : Nat}
    (h : (reader.readUntil limit).1 ≠ []) :
    (reader.readUntil limit).2.bytes.length < reader.bytes.length := by
  have hlength := List.length_pos_of_ne_nil h
  rw [readUntil_snd, List.length_drop]
  by_contra hnot
  have hempty : reader.bytes = [] := List.length_eq_zero_iff.mp (by omega)
  rw [readUntil_fst, hempty] at h
  exact h (by simp [throughNewline])

end Reader

/-! ## Numbers -/

/-- The digits of `parse::<usize>`. -/
def parseDigits (value : Nat) : Str → Except Str Nat
  | [] => .ok value
  | c :: rest =>
    if !c.isDigit then .error "invalid digit found in string".toList
    else if usizeMax < value * 10 + (c.toNat - '0'.toNat) then
      .error "number too large to fit in target type".toList
    else parseDigits (value * 10 + (c.toNat - '0'.toNat)) rest

/-- `parse::<usize>`. -/
def parseUsize : Str → Except Str Nat
  | [] => .error "cannot parse integer from empty string".toList
  | ['+'] => .error "invalid digit found in string".toList
  | '+' :: digits => parseDigits 0 digits
  | digits => parseDigits 0 digits

/-! ## Reading a message -/

/-- What the first loop of `read_message` stops at. -/
inductive MessageLine where
  | ended
  | tooLong (line : List UInt8)
  | trimmed (text : Str)

/-- The first loop of `read_message`, which skips blank lines. -/
def nextLine (reader : Reader) : MessageLine × Reader :=
  let (line, rest) := reader.readUntil (maxMessageBytes + 1)
  if hempty : (reader.readUntil (maxMessageBytes + 1)).1 = [] then (.ended, rest)
  else if maxMessageBytes < line.length then (.tooLong line, rest)
  else
    let trimmed := Str.trim (Str.fromUtf8Lossy line)
    if trimmed ≠ [] then (.trimmed trimmed, rest)
    else nextLine (reader.readUntil (maxMessageBytes + 1)).2
termination_by reader.bytes.length
decreasing_by exact Reader.readUntil_lt hempty

def tooLongMessage : Str :=
  "request line exceeds maximum of ".toList ++ Nat.toDigits 10 maxMessageBytes ++ " bytes".toList

/-- `read_line_capped`: the line, and how many bytes were read. -/
def readLineCapped (reader : Reader) : Except Str (Str × Nat × Reader) :=
  let (line, rest) := reader.readUntil (maxMessageBytes + 1)
  if maxMessageBytes < line.length then .error tooLongMessage
  else .ok (Str.fromUtf8Lossy line, line.length, rest)

theorem readLineCapped_lt {reader rest : Reader} {line : Str} {count : Nat}
    (h : readLineCapped reader = .ok (line, count, rest)) (hcount : count ≠ 0) :
    rest.bytes.length < reader.bytes.length := by
  simp only [readLineCapped] at h
  split at h
  · cases h
  · obtain ⟨-, hlength, rfl⟩ : _ ∧ _ ∧ _ := by simpa using h
    exact Reader.readUntil_lt fun hempty => hcount (by rw [← hlength, hempty]; rfl)

/-- `u8::is_ascii_whitespace`. -/
def isAsciiWhitespace (byte : UInt8) : Bool :=
  byte = 0x20 || byte = 0x09 || byte = 0x0A || byte = 0x0C || byte = 0x0D

/-- Whether an oversized line is one of JSON. -/
def isJsonLine (mode : FramingMode) (line : List UInt8) : Bool :=
  match mode with
  | .jsonLine => true
  | .unknown =>
    (line.find? fun byte => !isAsciiWhitespace byte).any fun byte => byte = 0x7B || byte = 0x5B
  | .contentLength => false

/-- The framing that the first line that is not blank tells. -/
def detectMode (mode : FramingMode) (trimmed : Str) : FramingMode :=
  if mode = .unknown then
    if trimmed.head? = some '{' ∨ trimmed.head? = some '[' then .jsonLine else .contentLength
  else mode

/-- What a header line says of the content length. -/
def headerLength (current : Option Nat) (line : Str) : Except Str (Option Nat) :=
  match Str.stripPrefix (Str.toAsciiLowercase line) "content-length:".toList with
  | some value => (parseUsize (Str.trim value)).map some
  | none => .ok current

/-- `trim_end_matches(['\r', '\n'])`. -/
def trimLineEnd (line : Str) : Str := line.rdropWhile fun c => c = '\r' || c = '\n'

/-- The header loop: nothing if the input ends, else the length that the headers tell. -/
def readHeaders (reader : Reader) (contentLength : Option Nat) :
    Except Str (Option (Option Nat) × Reader) :=
  match _hread : readLineCapped reader with
  | .error message => .error message
  | .ok (line, count, rest) =>
    if _hend : count = 0 then .ok (none, rest)
    else
      let text := trimLineEnd line
      if text = [] then .ok (some contentLength, rest)
      else
        match headerLength contentLength text with
        | .error message => .error message
        | .ok found => readHeaders rest found
termination_by reader.bytes.length
decreasing_by exact readLineCapped_lt _hread _hend

/-- The body of `read_message` for `Content-Length` framing. -/
def readContent (reader : Reader) (trimmed : Str) : Except Str (Option Frame × Reader) := do
  let contentLength ← headerLength none trimmed
  match ← readHeaders reader contentLength with
  | (none, rest) => .ok (none, rest)
  | (some none, _) => .error "missing Content-Length header".toList
  | (some (some length), rest) =>
    if maxMessageBytes < length then
      .error ("Content-Length ".toList ++ Nat.toDigits 10 length ++ " exceeds maximum of ".toList ++
        Nat.toDigits 10 maxMessageBytes ++ " bytes".toList)
    else
      let (payload, rest) ← rest.readExact length
      .ok (some (.payload payload), rest)

/-- `read_message`. An error ends the session. -/
def readMessage (reader : Reader) (mode : FramingMode) :
    Except Str (Option Frame × Reader × FramingMode) :=
  match nextLine reader with
  | (.ended, rest) => .ok (none, rest, mode)
  | (.tooLong line, rest) =>
    if !isJsonLine mode line then .error tooLongMessage
    else
      .ok (some .oversized, if line.getLast? ≠ some 0x0A then rest.skipLine else rest, .jsonLine)
  | (.trimmed trimmed, rest) =>
    match detectMode mode trimmed with
    | .jsonLine => .ok (some (.payload (Str.bytes trimmed)), rest, .jsonLine)
    | .contentLength =>
      (readContent rest trimmed).map fun (frame, rest) => (frame, rest, .contentLength)
    | .unknown => .error "unreachable".toList

/-- The frames that a session reads until its input ends. -/
inductive ReadsFrames : Reader → FramingMode → List Frame → Prop where
  | ended {reader rest : Reader} {mode next : FramingMode}
      (h : readMessage reader mode = .ok (none, rest, next)) : ReadsFrames reader mode []
  | frame {reader rest : Reader} {mode next : FramingMode} {frame : Frame} {frames : List Frame}
      (h : readMessage reader mode = .ok (some frame, rest, next))
      (hrest : ReadsFrames rest next frames) : ReadsFrames reader mode (frame :: frames)

/-! ## Writing a message -/

/-- The header line without its end. -/
def headerText (length : Nat) : Str := "Content-Length: ".toList ++ Nat.toDigits 10 length

def contentLengthHeader (length : Nat) : Str := headerText length ++ "\r\n\r\n".toList

/-- `write_message`: what it writes, where `to_vec` can fail. -/
def writeMessage {Value : Type} (toVec : Value → Option (List UInt8)) (response : Value)
    (mode : FramingMode) : Option (List UInt8) :=
  (toVec response).map fun payload =>
    match mode with
    | .jsonLine | .unknown => payload ++ [0x0A]
    | .contentLength => Str.bytes (contentLengthHeader payload.length) ++ payload

end Ivygrep.Native
