import Ivygrep.Native.McpFraming
import Ivygrep.Spec.StrCorrect

/-!
# The framing of MCP messages round-trips

What `write_message` writes is read back by `read_message`, one frame for each message, but for a
line of JSON of exactly `maxMessageBytes` bytes: with its newline it is over the limit.

## Key results

- `readMessage_blank`, `readMessage_line`, `readMessage_long`, `readMessage_content`: one line or
  one message
- `framing_roundTrip_iff`: when the messages of a session are read as they were written
- `full_line_is_oversized`: the message of `maxMessageBytes` bytes
-/

namespace Ivygrep.Native

/-! ## Lines -/

theorem throughNewline_append {line : List UInt8} (h : 0x0A ∉ line) (rest : List UInt8) :
    throughNewline (line ++ 0x0A :: rest) = line ++ [0x0A] := by
  induction line with
  | nil => simp [throughNewline]
  | cons byte line ih =>
    simp only [List.mem_cons, not_or] at h
    simp [throughNewline, Ne.symm h.1, ih h.2]

theorem throughNewline_of_not_mem {line : List UInt8} (h : 0x0A ∉ line) :
    throughNewline line = line := by
  induction line with
  | nil => rfl
  | cons byte line ih =>
    simp only [List.mem_cons, not_or] at h
    simp [throughNewline, Ne.symm h.1, ih h.2]

/-- The loop over the buffers stops behind the first newline, whatever buffer it is in. -/
theorem flatten_skipBuffers {buffers : List (List UInt8)} {line rest : List UInt8}
    (h : buffers.flatten = line ++ 0x0A :: rest) (hline : 0x0A ∉ line) :
    (skipBuffers buffers).flatten = rest := by
  induction buffers generalizing line with
  | nil => simp at h
  | cons buffer buffers ih =>
    rw [skipBuffers]
    split
    · next newline hfound =>
      obtain ⟨hlt, hat, hbefore⟩ := List.findIdx?_eq_some_iff_getElem.mp hfound
      have hbyte : buffer[newline] = 0x0A := by simpa using hat
      have hlength : newline = line.length := by
        have hget : (line ++ 0x0A :: rest)[newline]? = some 0x0A := by
          rw [← h, List.flatten_cons, List.getElem?_append_left hlt, List.getElem?_eq_getElem hlt,
            hbyte]
        -- Before the newline of the line there is none in the buffer, and the other way round.
        rcases Nat.lt_trichotomy newline line.length with hless | heq | hmore
        · rw [List.getElem?_append_left hless] at hget
          exact absurd (List.mem_of_getElem? hget) hline
        · exact heq
        · have hearly := hbefore line.length hmore
          have hline' : (buffer ++ buffers.flatten)[line.length]? = some 0x0A := by
            rw [← List.flatten_cons, h]
            simp
          rw [List.getElem?_append_left (hmore.trans hlt),
            List.getElem?_eq_getElem (hmore.trans hlt), Option.some.injEq] at hline'
          simp [hline'] at hearly
      rw [flatten_dropBytes, h, hlength]
      simp
    · next hnone =>
      have hbuffer : 0x0A ∉ buffer := by
        intro hmem
        have hnot := List.findIdx?_eq_none_iff.mp hnone 0x0A hmem
        simp at hnot
      rw [List.flatten_cons, List.append_eq_append_iff] at h
      rcases h with ⟨more, rfl, hrest⟩ | ⟨more, rfl, hrest⟩
      · exact ih hrest fun hmem => hline (List.mem_append_right _ hmem)
      · cases more with
        | nil => exact ih (show _ = [] ++ 0x0A :: rest from hrest.symm) (by simp)
        | cons byte more =>
          obtain ⟨rfl, -⟩ := List.cons_eq_cons.mp hrest
          exact absurd (by simp) hbuffer

namespace Reader

variable {reader : Reader} {line rest : List UInt8}

theorem skipLine_bytes (h : reader.bytes = line ++ 0x0A :: rest) (hline : 0x0A ∉ line) :
    reader.skipLine.bytes = rest :=
  flatten_skipBuffers h hline

/-- A line that fits is read with its newline. -/
theorem readUntil_fits (h : reader.bytes = line ++ 0x0A :: rest) (hline : 0x0A ∉ line) {limit : Nat}
    (hfits : line.length < limit) :
    (reader.readUntil limit).1 = line ++ [0x0A] ∧ (reader.readUntil limit).2.bytes = rest := by
  obtain ⟨more, hmore⟩ : ∃ more, limit - line.length = more + 1 := ⟨limit - line.length - 1, by omega⟩
  have hfirst : (reader.readUntil limit).1 = line ++ [0x0A] := by
    rw [readUntil_fst, h, List.take_append, List.take_of_length_le hfits.le, hmore,
      List.take_succ_cons]
    exact throughNewline_append hline _
  refine ⟨hfirst, ?_⟩
  rw [readUntil_snd, hfirst, h]
  simp

/-- Of a longer line the limit is read. -/
theorem readUntil_long (h : reader.bytes = line ++ 0x0A :: rest) (hline : 0x0A ∉ line) {limit : Nat}
    (hlong : limit ≤ line.length) :
    (reader.readUntil limit).1 = line.take limit ∧
      (reader.readUntil limit).2.bytes = line.drop limit ++ 0x0A :: rest := by
  have hfirst : (reader.readUntil limit).1 = line.take limit := by
    rw [readUntil_fst, h, List.take_append_of_le_length hlong]
    exact throughNewline_of_not_mem fun hmem => hline (List.mem_of_mem_take hmem)
  refine ⟨hfirst, ?_⟩
  rw [readUntil_snd, hfirst, h, List.length_take, Nat.min_eq_left hlong,
    List.drop_append_of_le_length hlong]

theorem readExact_append {payload : List UInt8} (h : reader.bytes = payload ++ rest) :
    ∃ next, reader.readExact payload.length = .ok (payload, next) ∧ next.bytes = rest := by
  refine ⟨reader.consume payload.length, ?_, by simp [h]⟩
  simp [readExact, h]

end Reader

/-! ## Texts on a line -/

/-- A text without newlines has none in its bytes. -/
theorem newline_not_mem_bytes {text : Str} (h : '\n' ∉ text) : (0x0A : UInt8) ∉ Str.bytes text := by
  intro hmem
  obtain ⟨c, hc, hbyte⟩ := List.mem_flatMap.mp hmem
  have hnewline : c = '\n' := Str.eq_of_mem_utf8EncodeChar hbyte (by decide)
  exact h (hnewline ▸ hc)

theorem lossy_line (text : Str) :
    Str.fromUtf8Lossy (Str.bytes text ++ [0x0A]) = text ++ ['\n'] := by
  have hline : Str.bytes text ++ [0x0A] = ForStd.Utf8.encode (text ++ ['\n']) := by
    rw [ForStd.Utf8.encode_append]
    rfl
  rw [Str.fromUtf8Lossy, hline, ForStd.Utf8.lossy_encode]

/-- A blank line: white space before a newline. -/
structure BlankLine where
  text : Str
  blank : ∀ c ∈ text, isWhitespace c = true
  no_newline : '\n' ∉ text

def BlankLine.bytes (line : BlankLine) : List UInt8 := Str.bytes line.text ++ [0x0A]

theorem BlankLine.trim (line : BlankLine) : Str.trim (line.text ++ ['\n']) = [] := by
  have hstart : Str.trimStart (line.text ++ ['\n']) = [] := by
    rw [Str.trimStart, List.dropWhile_eq_nil_iff]
    intro c hc
    rcases List.mem_append.mp hc with htext | hnewline
    · exact line.blank c htext
    · rw [List.mem_singleton.mp hnewline]
      rfl
  rw [Str.trim, hstart]
  rfl

/-- The text of a JSON object or array on one line. -/
structure IsContainerText (text : Str) : Prop where
  no_newline : '\n' ∉ text
  opens : text.head? = some '{' ∨ text.head? = some '['
  closes : text.getLast? = some '}' ∨ text.getLast? = some ']'

theorem IsContainerText.ne_nil {text : Str} (h : IsContainerText text) : text ≠ [] := by
  rintro rfl
  rcases h.opens with hopens | hopens <;> cases hopens

/-- Only the newline after it is trimmed. -/
theorem IsContainerText.trim {text : Str} (h : IsContainerText text) :
    Str.trim (text ++ ['\n']) = text := by
  have hself : Str.trim text = text := by
    rcases h.opens with hopens | hopens <;> rcases h.closes with hcloses | hcloses <;>
      exact Str.trim_of_ends hopens hcloses rfl rfl
  have hbetween := Str.trim_between [] ['\n'] (by simp)
    (by simp [isWhitespace]) hself h.ne_nil
  simpa using hbetween

/-! ## The next line -/

section NextLine

variable {reader next : Reader} {mode : FramingMode}

theorem nextLine_ended (h : reader.bytes = []) :
    ∃ next, next.bytes = [] ∧ nextLine reader = (.ended, next) := by
  have hempty : (reader.readUntil (maxMessageBytes + 1)).1 = [] := by
    simp [Reader.readUntil_fst, h, throughNewline]
  refine ⟨(reader.readUntil (maxMessageBytes + 1)).2, ?_, ?_⟩
  · rw [Reader.readUntil_snd, h, List.drop_nil]
  · rw [nextLine]
    simp [hempty]

theorem nextLine_tooLong
    (hlong : maxMessageBytes < (reader.readUntil (maxMessageBytes + 1)).1.length) :
    nextLine reader = (.tooLong (reader.readUntil (maxMessageBytes + 1)).1,
      (reader.readUntil (maxMessageBytes + 1)).2) := by
  have hne : (reader.readUntil (maxMessageBytes + 1)).1 ≠ [] := by
    intro hempty
    rw [hempty] at hlong
    simp at hlong
  rw [nextLine]
  simp [hne, hlong]

/-- A line that fits is trimmed, and skipped if nothing is left of it. -/
theorem nextLine_fits {text : Str} {rest : List UInt8}
    (h : reader.bytes = Str.bytes text ++ 0x0A :: rest) (hnewline : '\n' ∉ text)
    (hfits : (Str.bytes text).length < maxMessageBytes) :
    ∃ next, next.bytes = rest ∧ nextLine reader =
      if Str.trim (text ++ ['\n']) ≠ [] then (.trimmed (Str.trim (text ++ ['\n'])), next)
      else nextLine next := by
  obtain ⟨hline, hnext⟩ := Reader.readUntil_fits h (newline_not_mem_bytes hnewline)
    (show _ < maxMessageBytes + 1 by omega)
  have hne : (reader.readUntil (maxMessageBytes + 1)).1 ≠ [] := by simp [hline]
  have hshort : ¬ maxMessageBytes < (reader.readUntil (maxMessageBytes + 1)).1.length := by
    rw [hline, List.length_append, List.length_singleton]
    omega
  refine ⟨_, hnext, ?_⟩
  rw [nextLine]
  dsimp only
  rw [dif_neg hne, if_neg hshort, hline, lossy_line]

/-- A blank line that fits is skipped. -/
theorem readMessage_blank (line : BlankLine) {rest : List UInt8}
    (h : reader.bytes = line.bytes ++ rest) (hfits : line.bytes.length ≤ maxMessageBytes) :
    ∃ next, next.bytes = rest ∧ ∀ mode, readMessage reader mode = readMessage next mode := by
  simp only [BlankLine.bytes, List.length_append, List.length_singleton] at hfits
  have hbytes : reader.bytes = Str.bytes line.text ++ 0x0A :: rest := by
    simp [h, BlankLine.bytes]
  obtain ⟨next, hnext, hread⟩ := nextLine_fits hbytes line.no_newline (by omega)
  rw [if_neg (by simp [line.trim])] at hread
  exact ⟨next, hnext, fun mode => by rw [readMessage, readMessage, hread]⟩

theorem readMessage_ended (h : reader.bytes = []) (mode : FramingMode) :
    ∃ next, readMessage reader mode = .ok (none, next, mode) := by
  obtain ⟨next, -, hread⟩ := nextLine_ended h
  exact ⟨next, by rw [readMessage, hread]⟩

theorem detectMode_container {text : Str} (h : IsContainerText text)
    (hmode : mode ≠ .contentLength) : detectMode mode text = .jsonLine := by
  cases mode with
  | unknown => simp [detectMode, h.opens]
  | jsonLine => rfl
  | contentLength => exact absurd rfl hmode

/-- A line of JSON that fits is a message. -/
theorem readMessage_line {text : Str} (htext : IsContainerText text) {rest : List UInt8}
    (h : reader.bytes = Str.bytes text ++ 0x0A :: rest)
    (hfits : (Str.bytes text).length < maxMessageBytes) (hmode : mode ≠ .contentLength) :
    ∃ next, next.bytes = rest ∧
      readMessage reader mode = .ok (some (.payload (Str.bytes text)), next, .jsonLine) := by
  obtain ⟨next, hnext, hread⟩ := nextLine_fits h htext.no_newline hfits
  rw [htext.trim, if_pos htext.ne_nil] at hread
  exact ⟨next, hnext, by rw [readMessage, hread]; simp [detectMode_container htext hmode]⟩

/-- What is read of a line that does not fit, and where the next one starts. -/
theorem nextLine_long {line rest : List UInt8} (h : reader.bytes = line ++ 0x0A :: rest)
    (hline : 0x0A ∉ line) (hlong : maxMessageBytes ≤ line.length) :
    ∃ first next, nextLine reader = (.tooLong first, next) ∧ first <+: line ++ [0x0A] ∧
      first ≠ [] ∧
      (if first.getLast? ≠ some 0x0A then next.skipLine else next).bytes = rest := by
  by_cases hfits : line.length < maxMessageBytes + 1
  · obtain ⟨hfirst, hnext⟩ := Reader.readUntil_fits h hline hfits
    refine ⟨_, _, nextLine_tooLong (by simp [hfirst]; omega), by rw [hfirst],
      by simp [hfirst], ?_⟩
    rw [hfirst, if_neg (by simp)]
    exact hnext
  · obtain ⟨hfirst, hnext⟩ := Reader.readUntil_long h hline (Nat.not_lt.mp hfits)
    have hlength : (line.take (maxMessageBytes + 1)).length = maxMessageBytes + 1 := by
      rw [List.length_take]
      omega
    have hne : line.take (maxMessageBytes + 1) ≠ [] := by
      intro hempty
      rw [hempty] at hlength
      simp at hlength
    have hlast : (line.take (maxMessageBytes + 1)).getLast? ≠ some 0x0A := by
      intro hnewline
      exact hline (List.mem_of_mem_take (List.mem_of_getLast? hnewline))
    refine ⟨_, _, nextLine_tooLong (by rw [hfirst, hlength]; omega), ?_, by rwa [hfirst], ?_⟩
    · rw [hfirst]
      exact (List.take_prefix _ _).trans (List.prefix_append _ _)
    · rw [hfirst, if_pos hlast]
      exact Reader.skipLine_bytes hnext fun hmem => hline (List.mem_of_mem_drop hmem)

/-- A line that does not fit is one oversized frame, if it is known to be JSON. -/
theorem readMessage_long {line rest : List UInt8} (h : reader.bytes = line ++ 0x0A :: rest)
    (hline : 0x0A ∉ line) (hlong : maxMessageBytes ≤ line.length)
    (hjson : ∀ first, first <+: line ++ [0x0A] → first ≠ [] → isJsonLine mode first = true) :
    ∃ next, next.bytes = rest ∧ readMessage reader mode = .ok (some .oversized, next, .jsonLine) := by
  obtain ⟨first, next, hread, hprefix, hne, hnext⟩ := nextLine_long h hline hlong
  refine ⟨_, hnext, ?_⟩
  rw [readMessage, hread]
  simp [hjson first hprefix hne]

/-- Otherwise it ends the session. -/
theorem readMessage_long_error {line rest : List UInt8} (h : reader.bytes = line ++ 0x0A :: rest)
    (hline : 0x0A ∉ line) (hlong : maxMessageBytes ≤ line.length)
    (hjson : ∀ first, first <+: line ++ [0x0A] → isJsonLine mode first = false) :
    readMessage reader mode = .error tooLongMessage := by
  obtain ⟨first, next, hread, hprefix, -, -⟩ := nextLine_long h hline hlong
  rw [readMessage, hread]
  simp [hjson first hprefix]

/-- The text of an object or an array is known to be JSON from its first byte. -/
theorem isJsonLine_container {text : Str} (htext : IsContainerText text)
    (hmode : mode ≠ .contentLength) {first : List UInt8}
    (hfirst : first <+: Str.bytes text ++ [0x0A]) (hne : first ≠ []) :
    isJsonLine mode first = true := by
  obtain ⟨c, rest, rfl⟩ := List.exists_cons_of_ne_nil htext.ne_nil
  obtain ⟨byte, more, rfl⟩ := List.exists_cons_of_ne_nil hne
  have hopens : c = '{' ∨ c = '[' := by simpa using htext.opens
  have hbyte : byte = UInt8.ofNat c.toNat := by
    have hencode : String.utf8EncodeChar c = [UInt8.ofNat c.toNat] :=
      Str.utf8EncodeChar_of_ascii (by rcases hopens with rfl | rfl <;> decide)
    rw [show Str.bytes (c :: rest) = String.utf8EncodeChar c ++ Str.bytes rest from rfl,
      hencode] at hfirst
    exact (List.cons_prefix_cons.mp hfirst).1
  cases mode with
  | unknown => rcases hopens with rfl | rfl <;> subst hbyte <;> rfl
  | jsonLine => rfl
  | contentLength => exact absurd rfl hmode

/-- A blank line is not taken for JSON before a message was. -/
theorem isJsonLine_blank (line : BlankLine) (hmode : mode ≠ .jsonLine) {first : List UInt8}
    (hfirst : first <+: line.bytes) : isJsonLine mode first = false := by
  have hbytes : ∀ byte ∈ line.bytes, byte ≠ 0x7B ∧ byte ≠ 0x5B := by
    intro byte hbyte
    rcases List.mem_append.mp hbyte with htext | hnewline
    · obtain ⟨c, hc, hencoded⟩ := List.mem_flatMap.mp htext
      by_cases hascii : c.toNat ≤ 0x7f
      · exact Str.forall_ascii (p := fun c => isWhitespace c = true →
          ∀ byte ∈ String.utf8EncodeChar c, byte ≠ 0x7B ∧ byte ≠ 0x5B) (by decide +kernel) hascii
          (line.blank c hc) byte hencoded
      · have hhigh := Str.not_ascii_of_mem_utf8EncodeChar hascii byte hencoded
        constructor <;> rintro rfl <;> exact hhigh (by decide)
    · rw [List.mem_singleton.mp hnewline]
      decide
  cases mode with
  | jsonLine => exact absurd rfl hmode
  | contentLength => rfl
  | unknown =>
    show Option.any _ _ = false
    rw [Option.any_eq_false_iff_get]
    intro hsome
    obtain ⟨hbrace, hbracket⟩ := hbytes _ (hfirst.subset (List.mem_of_find?_eq_some
      (Option.eq_some_of_isSome hsome)))
    simp [hbrace, hbracket]

end NextLine

/-! ## The header -/

theorem le_ofDigitChars (digits : Str) (value : Nat) :
    value ≤ Nat.ofDigitChars 10 digits value := by
  induction digits generalizing value with
  | nil => simp [Nat.ofDigitChars_nil]
  | cons c rest ih =>
    have hrest := ih (10 * value + (c.toNat - '0'.toNat))
    rw [Nat.ofDigitChars_cons]
    omega

theorem parseDigits_eq {digits : Str} (hdigits : ∀ c ∈ digits, c.isDigit = true) {value : Nat}
    (hle : Nat.ofDigitChars 10 digits value ≤ usizeMax) :
    parseDigits value digits = .ok (Nat.ofDigitChars 10 digits value) := by
  induction digits generalizing value with
  | nil => simp [parseDigits, Nat.ofDigitChars_nil]
  | cons c rest ih =>
    rw [Nat.ofDigitChars_cons] at hle ⊢
    have hnext : 10 * value + (c.toNat - '0'.toNat) ≤ usizeMax := (le_ofDigitChars rest _).trans hle
    rw [parseDigits, if_neg (by simp [hdigits c]), if_neg (by omega), Nat.mul_comm value 10]
    exact ih (fun d hd => hdigits d (List.mem_cons_of_mem _ hd)) hle

theorem isDigit_of_mem_toDigits {n : Nat} {c : Char} (h : c ∈ Nat.toDigits 10 n) :
    c.isDigit = true := Nat.isDigit_of_mem_toDigits (by decide) (by decide) h

/-- A number that was written in decimal is read back. -/
theorem parseUsize_toDigits {n : Nat} (h : n ≤ usizeMax) :
    parseUsize (Nat.toDigits 10 n) = .ok n := by
  have hparse := parseDigits_eq (fun c => isDigit_of_mem_toDigits (n := n))
    (show Nat.ofDigitChars 10 (Nat.toDigits 10 n) 0 ≤ usizeMax by
      rwa [Nat.ofDigitChars_ten_toDigits])
  rw [Nat.ofDigitChars_ten_toDigits] at hparse
  obtain ⟨first, rest, hdigits⟩ := List.exists_cons_of_ne_nil (Nat.toDigits_ne_nil (n := n) (b := 10))
  have hfirst : first.isDigit = true := isDigit_of_mem_toDigits (n := n) (by rw [hdigits]; simp)
  have hplus : first ≠ '+' := by
    rintro rfl
    cases hfirst
  rw [hdigits] at hparse ⊢
  rw [← hparse]
  unfold parseUsize
  split
  · next heq => cases heq
  · next heq => exact absurd (List.cons_eq_cons.mp heq).1 hplus
  · next heq => exact absurd (List.cons_eq_cons.mp heq).1 hplus
  · rfl

theorem isDigit_ascii {c : Char} (h : c.isDigit = true) : c.toNat ≤ 0x7f := by
  obtain ⟨-, hle⟩ : '0' ≤ c ∧ c ≤ '9' := by
    simpa [Char.isDigit, Char.le_def, UInt32.le_iff_toNat_le] using h
  have hnat : c.toNat ≤ '9'.toNat := hle
  exact hnat.trans (by decide)

/-- A digit is not white space and has no lower case. -/
theorem isDigit_plain {c : Char} (h : c.isDigit = true) :
    isWhitespace c = false ∧ c.toLower = c ∧ c ≠ '\n' :=
  Str.forall_ascii
    (p := fun c => c.isDigit = true → isWhitespace c = false ∧ c.toLower = c ∧ c ≠ '\n')
    (by decide +kernel) (isDigit_ascii h) h

theorem headerText_newline (length : Nat) : '\n' ∉ headerText length := by
  intro hmem
  rcases List.mem_append.mp hmem with hname | hdigit
  · exact absurd hname (by decide)
  · exact (isDigit_plain (isDigit_of_mem_toDigits hdigit)).2.2 rfl

theorem bytes_lineEnds (text : Str) :
    Str.bytes (text ++ ['\r', '\n', '\r', '\n']) =
      Str.bytes (text ++ ['\r']) ++ 0x0A :: [0x0D, 0x0A] := by
  have hends : Str.bytes ['\r', '\n', '\r', '\n'] = Str.bytes ['\r'] ++ 0x0A :: [0x0D, 0x0A] := by
    decide
  rw [Str.bytes_append, Str.bytes_append, hends, List.append_assoc]

theorem contentLengthHeader_eq (length : Nat) :
    contentLengthHeader length = headerText length ++ ['\r', '\n', '\r', '\n'] := by
  have hends : "\r\n\r\n".toList = ['\r', '\n', '\r', '\n'] := by decide
  rw [contentLengthHeader, hends]

/-- A text before a number ends with a digit. -/
theorem exists_getLast?_digits (text : Str) (n : Nat) :
    ∃ last, (text ++ Nat.toDigits 10 n).getLast? = some last ∧ last.isDigit = true := by
  rcases List.eq_nil_or_concat (Nat.toDigits 10 n) with hnil | ⟨others, last, hdigits⟩
  · exact absurd hnil Nat.toDigits_ne_nil
  · have hlast : last ∈ Nat.toDigits 10 n := by simp [hdigits]
    refine ⟨last, ?_, isDigit_of_mem_toDigits hlast⟩
    rw [hdigits, List.concat_eq_append, ← List.append_assoc, List.getLast?_concat]

theorem headerText_trim (length : Nat) :
    Str.trim (headerText length ++ ['\r'] ++ ['\n']) = headerText length := by
  obtain ⟨last, hlast, hdigit⟩ := exists_getLast?_digits "Content-Length: ".toList length
  have hself : Str.trim (headerText length) = headerText length :=
    Str.trim_of_ends (show _ = some 'C' from rfl) hlast rfl (isDigit_plain hdigit).1
  have hbetween := Str.trim_between [] ['\r', '\n'] (by simp)
    (by simp [isWhitespace]) hself (List.cons_ne_nil _ _)
  simpa using hbetween

theorem trim_blank_toDigits (n : Nat) : Str.trim (' ' :: Nat.toDigits 10 n) = Nat.toDigits 10 n := by
  obtain ⟨last, hlast, hdigit⟩ := exists_getLast?_digits [] n
  obtain ⟨first, rest, hdigits⟩ :=
    List.exists_cons_of_ne_nil (Nat.toDigits_ne_nil (n := n) (b := 10))
  have hfirst : first.isDigit = true := isDigit_of_mem_toDigits (n := n) (by rw [hdigits]; simp)
  have hself : Str.trim (Nat.toDigits 10 n) = Nat.toDigits 10 n :=
    Str.trim_of_ends (by rw [hdigits]; rfl) hlast (isDigit_plain hfirst).1 (isDigit_plain hdigit).1
  have hbetween := Str.trim_between [' '] [] (by simp [isWhitespace])
    (by simp) hself Nat.toDigits_ne_nil
  simpa using hbetween

theorem toAsciiLowercase_headerText (length : Nat) :
    Str.toAsciiLowercase (headerText length) =
      "content-length:".toList ++ (' ' :: Nat.toDigits 10 length) := by
  have hname : "Content-Length: ".toList.map Char.toLower = "content-length:".toList ++ [' '] := by
    decide
  have hdigits : (Nat.toDigits 10 length).map Char.toLower = Nat.toDigits 10 length :=
    List.map_congr_left (fun c hc => (isDigit_plain (isDigit_of_mem_toDigits hc)).2.1) |>.trans
      (List.map_id _)
  calc Str.toAsciiLowercase (headerText length)
    _ = "Content-Length: ".toList.map Char.toLower ++ (Nat.toDigits 10 length).map Char.toLower :=
      List.map_append
    _ = "content-length:".toList ++ [' '] ++ Nat.toDigits 10 length :=
      congrArg₂ (· ++ ·) hname hdigits
    _ = "content-length:".toList ++ (' ' :: Nat.toDigits 10 length) :=
      List.append_assoc _ [' '] _

theorem headerLength_headerText {length : Nat} (h : length ≤ usizeMax) :
    headerLength none (headerText length) = .ok (some length) := by
  rw [headerLength, toAsciiLowercase_headerText, Str.stripPrefix_append]
  dsimp only
  rw [trim_blank_toDigits, parseUsize_toDigits h]
  rfl

/-! ## A message with a header -/

section Content

variable {reader : Reader} {mode : FramingMode}

theorem readHeaders_end {rest : Reader} {line : Str} {count : Nat}
    (h : readLineCapped reader = .ok (line, count, rest)) (hcount : count ≠ 0)
    (hblank : trimLineEnd line = []) (contentLength : Option Nat) :
    readHeaders reader contentLength = .ok (some contentLength, rest) := by
  rw [readHeaders]
  split
  · next message herror => simp [h] at herror
  · next line' count' rest' hread =>
    rw [h, Except.ok.injEq, Prod.mk.injEq, Prod.mk.injEq] at hread
    obtain ⟨rfl, rfl, rfl⟩ := hread
    rw [dif_neg hcount]
    simp [hblank]

/-- The blank line after the headers. -/
theorem readHeaders_blank {rest : List UInt8} (h : reader.bytes = 0x0D :: 0x0A :: rest)
    (contentLength : Option Nat) :
    ∃ next, next.bytes = rest ∧ readHeaders reader contentLength = .ok (some contentLength, next) := by
  have hone : 1 < maxMessageBytes + 1 := by simp [maxMessageBytes]
  obtain ⟨hline, hnext⟩ := Reader.readUntil_fits
    (show reader.bytes = [0x0D] ++ 0x0A :: rest from h) (by simp) hone
  have hlossy : Str.fromUtf8Lossy ([0x0D] ++ [0x0A]) = ['\r', '\n'] := lossy_line ['\r']
  have hshort : ¬ maxMessageBytes < ([0x0D] ++ [0x0A] : List UInt8).length := by
    simp [maxMessageBytes]
  have hread : readLineCapped reader =
      .ok (['\r', '\n'], 2, (reader.readUntil (maxMessageBytes + 1)).2) := by
    rw [readLineCapped]
    dsimp only
    rw [hline, if_neg hshort, hlossy]
    rfl
  exact ⟨_, hnext, readHeaders_end hread (by simp) rfl contentLength⟩

/-- The header line of a message that fits is short. -/
theorem headerText_length {length : Nat} (h : length ≤ maxMessageBytes) :
    (Str.bytes (headerText length ++ ['\r'])).length < maxMessageBytes := by
  have hascii : ∀ c ∈ headerText length ++ ['\r'], c.toNat ≤ 0x7f := by
    have hname : "Content-Length: ".toList.all (fun c => c.toNat ≤ 0x7f) = true := by decide
    intro c hc
    rcases List.mem_append.mp hc with hheader | hreturn
    · rcases List.mem_append.mp hheader with hletter | hdigit
      · simpa using List.all_eq_true.mp hname c hletter
      · exact isDigit_ascii (isDigit_of_mem_toDigits hdigit)
    · rw [List.mem_singleton.mp hreturn]
      decide
  have hdigits : (Nat.toDigits 10 length).length ≤ 8 := by
    rw [Nat.length_toDigits_le_iff (by decide) (by decide)]
    rw [maxMessageBytes] at h
    omega
  have hname : "Content-Length: ".toList.length = 16 := by decide
  have htotal : (headerText length).length = 16 + (Nat.toDigits 10 length).length :=
    List.length_append.trans (congrArg (· + (Nat.toDigits 10 length).length) hname)
  rw [Str.bytes_length_of_ascii hascii, List.length_append, List.length_singleton, htotal,
    maxMessageBytes]
  omega

/-- A body that fits is read whole, whatever is in it. -/
theorem readMessage_content {payload rest : List UInt8}
    (h : reader.bytes = Str.bytes (contentLengthHeader payload.length) ++ payload ++ rest)
    (hfits : payload.length ≤ maxMessageBytes) (hmode : mode ≠ .jsonLine) :
    ∃ next, next.bytes = rest ∧
      readMessage reader mode = .ok (some (.payload payload), next, .contentLength) := by
  have hsmall : payload.length ≤ usizeMax := hfits.trans (by simp [maxMessageBytes, usizeMax])
  have hbytes : reader.bytes = Str.bytes (headerText payload.length ++ ['\r']) ++
      0x0A :: (0x0D :: 0x0A :: (payload ++ rest)) := by
    rw [h, contentLengthHeader_eq, bytes_lineEnds]
    simp
  have hnewline : '\n' ∉ headerText payload.length ++ ['\r'] := by
    simp [headerText_newline]
  have hne : headerText payload.length ≠ [] := List.cons_ne_nil _ _
  obtain ⟨headers, hheaders, hread⟩ := nextLine_fits hbytes hnewline (headerText_length hfits)
  obtain ⟨body, hbody, hblank⟩ := readHeaders_blank hheaders (some payload.length)
  obtain ⟨next, hexact, hnext⟩ := Reader.readExact_append hbody
  rw [headerText_trim, if_pos hne] at hread
  have hdetect : detectMode mode (headerText payload.length) = .contentLength := by
    cases mode with
    | unknown =>
      have hhead : (headerText payload.length).head? = some 'C' := rfl
      simp [detectMode, hhead]
    | jsonLine => exact absurd rfl hmode
    | contentLength => rfl
  have hcontent : readContent headers (headerText payload.length) =
      .ok (some (.payload payload), next) := by
    unfold readContent
    rw [headerLength_headerText hsmall]
    simp only [bind, Except.bind, hblank, if_neg (Nat.not_lt.mpr hfits), hexact]
  refine ⟨next, hnext, ?_⟩
  rw [readMessage, hread]
  dsimp only
  rw [hdetect]
  dsimp only
  rw [hcontent]
  rfl

end Content

/-! ## Sessions -/

/-- What is documented of `serde_json::to_vec`: it writes one line of text. -/
def WritesLines {Value : Type} (toVec : Value → Option (List UInt8)) : Prop :=
  ∀ value payload, toVec value = some payload → ∃ text, payload = Str.bytes text ∧ '\n' ∉ text

/-- A value that serializes to an object or to an array. -/
structure Message {Value : Type} (toVec : Value → Option (List UInt8)) where
  value : Value
  payload : List UInt8
  serialized : toVec value = some payload
  opens : payload.head? = some 0x7B ∨ payload.head? = some 0x5B
  closes : payload.getLast? = some 0x7D ∨ payload.getLast? = some 0x5D

/-- What is written in a session: messages, and blank lines between them. -/
inductive SessionItem {Value : Type} (toVec : Value → Option (List UInt8)) where
  | blank (line : BlankLine)
  | message (sent : Message toVec)

namespace SessionItem

variable {Value : Type} {toVec : Value → Option (List UInt8)}

def written (framing : FramingMode) : SessionItem toVec → Option (List UInt8)
  | blank line => some line.bytes
  | message sent => writeMessage toVec sent.value framing

/-- The frame of a message: one over the limit is to be reported as such. -/
def frames : SessionItem toVec → List Frame
  | blank _ => []
  | message sent =>
    [if sent.payload.length ≤ maxMessageBytes then .payload sent.payload else .oversized]

/-- A line, with the newline that ends it, is within the limit or carries a message over it. -/
def Fits (framing : FramingMode) : SessionItem toVec → Prop
  | blank line => line.bytes.length ≤ maxMessageBytes
  | message sent => framing = .contentLength ∨ sent.payload.length ≠ maxMessageBytes

end SessionItem

/-- The output of a session. -/
def writtenItems {Value : Type} {toVec : Value → Option (List UInt8)} (framing : FramingMode)
    (items : List (SessionItem toVec)) : Option (List UInt8) :=
  (items.mapM (SessionItem.written framing)).map List.flatten

section Sessions

variable {Value : Type} {toVec : Value → Option (List UInt8)}

theorem writtenItems_cons {framing : FramingMode} {item : SessionItem toVec}
    {items : List (SessionItem toVec)} {bytes : List UInt8}
    (h : writtenItems framing (item :: items) = some bytes) :
    ∃ first rest, item.written framing = some first ∧ writtenItems framing items = some rest ∧
      bytes = first ++ rest := by
  obtain ⟨parts, hparts, rfl⟩ := Option.map_eq_some_iff.mp h
  obtain ⟨first, hfirst, hmap⟩ := Option.bind_eq_some_iff.mp ((List.mapM_cons).symm.trans hparts)
  obtain ⟨rest, hrest, heq⟩ := Option.bind_eq_some_iff.mp hmap
  obtain rfl := Option.some.inj heq
  exact ⟨first, rest.flatten, hfirst, by rw [writtenItems, hrest]; rfl, rfl⟩

theorem written_line {framing : FramingMode} (hframing : framing ≠ .contentLength)
    (sent : Message toVec) :
    (SessionItem.message sent).written framing = some (sent.payload ++ [0x0A]) := by
  rw [SessionItem.written, writeMessage, sent.serialized]
  cases framing with
  | contentLength => exact absurd rfl hframing
  | unknown => rfl
  | jsonLine => rfl

theorem written_content (sent : Message toVec) :
    (SessionItem.message sent).written .contentLength =
      some (Str.bytes (contentLengthHeader sent.payload.length) ++ sent.payload) := by
  rw [SessionItem.written, writeMessage, sent.serialized]
  rfl

/-- The payload of a message is the text of an object or an array. -/
theorem Message.container (hvec : WritesLines toVec) (sent : Message toVec) :
    ∃ text, sent.payload = Str.bytes text ∧ IsContainerText text := by
  obtain ⟨text, hpayload, hnewline⟩ := hvec sent.value sent.payload sent.serialized
  have hopens := sent.opens
  have hcloses := sent.closes
  rw [hpayload] at hopens hcloses
  refine ⟨text, hpayload, hnewline, ?_, ?_⟩
  · cases text with
    | nil => simp [Str.bytes] at hopens
    | cons c rest =>
      -- The first byte is one of the first character.
      have hfirst : ∀ byte, byte < 0x80 → (Str.bytes (c :: rest)).head? = some byte →
          c = Char.ofNat byte.toNat := by
        intro byte hascii hhead
        obtain ⟨first, more, hencode, -⟩ := ForStd.Utf8.utf8EncodeChar_parts c
        rw [show Str.bytes (c :: rest) = String.utf8EncodeChar c ++ Str.bytes rest from rfl,
          hencode, List.cons_append, List.head?_cons] at hhead
        exact Str.eq_of_mem_utf8EncodeChar (by rw [hencode, ← Option.some.inj hhead]; simp) hascii
      exact hopens.imp (fun h => congrArg some (hfirst 0x7B (by decide) h))
        (fun h => congrArg some (hfirst 0x5B (by decide) h))
  · rcases List.eq_nil_or_concat text with rfl | ⟨init, c, rfl⟩
    · simp [Str.bytes] at hcloses
    · have hlast : ∀ byte, byte < 0x80 →
          (Str.bytes (init.concat c)).getLast? = some byte → c = Char.ofNat byte.toNat := by
        intro byte hascii hlast
        have hne : String.utf8EncodeChar c ≠ [] := by
          obtain ⟨first, more, hencode, -⟩ := ForStd.Utf8.utf8EncodeChar_parts c
          simp [hencode]
        rw [List.concat_eq_append, Str.bytes_append, Str.bytes_singleton,
          List.getLast?_append_of_ne_nil _ hne] at hlast
        exact Str.eq_of_mem_utf8EncodeChar (List.mem_of_getLast? hlast) hascii
      rw [List.concat_eq_append, List.getLast?_concat]
      exact hcloses.imp (fun h => congrArg some (hlast 0x7D (by decide) h))
        (fun h => congrArg some (hlast 0x5D (by decide) h))

variable {reader next : Reader} {mode : FramingMode} {frames : List Frame}

theorem readsFrames_congr (h : ∀ mode, readMessage reader mode = readMessage next mode) :
    ReadsFrames reader mode frames ↔ ReadsFrames next mode frames := by
  constructor
  · intro hreads
    cases hreads with
    | ended hend => exact .ended ((h mode).symm.trans hend)
    | frame hframe hrest => exact .frame ((h mode).symm.trans hframe) hrest
  · intro hreads
    cases hreads with
    | ended hend => exact .ended ((h mode).trans hend)
    | frame hframe hrest => exact .frame ((h mode).trans hframe) hrest

theorem readsFrames_iff_of_frame {nextMode : FramingMode} {frame : Frame}
    (h : readMessage reader mode = .ok (some frame, next, nextMode)) :
    ReadsFrames reader mode frames ↔
      ∃ rest, frames = frame :: rest ∧ ReadsFrames next nextMode rest := by
  constructor
  · intro hreads
    cases hreads with
    | ended hend =>
      rw [h] at hend
      cases hend
    | frame hframe hrest =>
      rw [h] at hframe
      cases hframe
      exact ⟨_, rfl, hrest⟩
  · rintro ⟨rest, rfl, hrest⟩
    exact .frame h hrest

theorem not_readsFrames_of_error {message : Str} (h : readMessage reader mode = .error message) :
    ¬ ReadsFrames reader mode frames := by
  intro hreads
  cases hreads with
  | ended hend =>
    rw [h] at hend
    cases hend
  | frame hframe _ =>
    rw [h] at hframe
    cases hframe

/-- The input of a session without items has ended. -/
theorem readsFrames_nil (h : reader.bytes = []) : ReadsFrames reader mode [] := by
  obtain ⟨next, hend⟩ := readMessage_ended h mode
  exact .ended hend

theorem BlankLine.length (line : BlankLine) :
    line.bytes.length = (Str.bytes line.text).length + 1 := by
  simp [BlankLine.bytes]

/-- In a session of lines every message is a frame, whatever else is one. -/
theorem length_frames_le (hvec : WritesLines toVec) {framing : FramingMode}
    (hframing : framing ≠ .contentLength) {items : List (SessionItem toVec)}
    (h : writtenItems framing items = some reader.bytes)
    (hreads : ReadsFrames reader .jsonLine frames) :
    (items.flatMap SessionItem.frames).length ≤ frames.length := by
  induction items generalizing reader frames with
  | nil => simp
  | cons item items ih =>
    obtain ⟨first, rest, hfirst, hrest, hbytes⟩ := writtenItems_cons h
    cases item with
    | blank line =>
      obtain rfl := Option.some.inj hfirst
      show (items.flatMap SessionItem.frames).length ≤ _
      by_cases hfits : line.bytes.length ≤ maxMessageBytes
      · obtain ⟨next, hnext, hread⟩ := readMessage_blank line hbytes hfits
        exact ih (hnext ▸ hrest) ((readsFrames_congr hread).mp hreads)
      · have hline : reader.bytes = Str.bytes line.text ++ 0x0A :: rest := by
          simp [hbytes, BlankLine.bytes]
        have hlong : maxMessageBytes ≤ (Str.bytes line.text).length := by
          rw [line.length] at hfits
          omega
        obtain ⟨next, hnext, hread⟩ : ∃ next, next.bytes = rest ∧
            readMessage reader .jsonLine = .ok (some .oversized, next, .jsonLine) :=
          readMessage_long hline (newline_not_mem_bytes line.no_newline) hlong (fun _ _ _ => rfl)
        obtain ⟨others, rfl, hothers⟩ := (readsFrames_iff_of_frame hread).mp hreads
        exact (ih (hnext ▸ hrest) hothers).trans (by simp)
    | message sent =>
      obtain ⟨text, hpayload, htext⟩ := sent.container hvec
      have hline : reader.bytes = Str.bytes text ++ 0x0A :: rest := by
        rw [written_line hframing] at hfirst
        rw [hbytes, ← Option.some.inj hfirst, hpayload]
        simp
      obtain ⟨frame, next, hnext, hread⟩ : ∃ frame next, next.bytes = rest ∧
          readMessage reader .jsonLine = .ok (some frame, next, .jsonLine) := by
        by_cases hfits : (Str.bytes text).length < maxMessageBytes
        · exact ⟨_, readMessage_line htext hline hfits (by simp)⟩
        · exact ⟨_, readMessage_long hline (newline_not_mem_bytes htext.no_newline)
            (Nat.not_lt.mp hfits) (fun _ _ _ => rfl)⟩
      obtain ⟨others, rfl, hothers⟩ := (readsFrames_iff_of_frame hread).mp hreads
      have hle := ih (hnext ▸ hrest) hothers
      rw [List.flatMap_cons, List.length_append, List.length_cons, Nat.add_comm]
      exact Nat.add_le_add_right hle 1

/-- A session of lines is read as it was written exactly when its lines fit. -/
theorem readsFrames_lines (hvec : WritesLines toVec) {framing : FramingMode}
    (hframing : framing ≠ .contentLength) {items : List (SessionItem toVec)}
    (h : writtenItems framing items = some reader.bytes) (hmode : mode ≠ .contentLength) :
    ReadsFrames reader mode (items.flatMap SessionItem.frames) ↔
      ∀ item ∈ items, item.Fits framing := by
  induction items generalizing reader mode with
  | nil =>
    have hempty : reader.bytes = [] := (Option.some.inj h).symm
    simpa using readsFrames_nil hempty
  | cons item items ih =>
    obtain ⟨first, rest, hfirst, hrest, hbytes⟩ := writtenItems_cons h
    rw [List.flatMap_cons, List.forall_mem_cons]
    cases item with
    | blank line =>
      obtain rfl := Option.some.inj hfirst
      show ReadsFrames reader mode (items.flatMap SessionItem.frames) ↔
        line.bytes.length ≤ maxMessageBytes ∧ _
      by_cases hfits : line.bytes.length ≤ maxMessageBytes
      · obtain ⟨next, hnext, hread⟩ := readMessage_blank line hbytes hfits
        rw [readsFrames_congr hread, ih (hnext ▸ hrest) hmode]
        simp [hfits]
      · simp only [hfits, false_and, iff_false]
        have hline : reader.bytes = Str.bytes line.text ++ 0x0A :: rest := by
          simp [hbytes, BlankLine.bytes]
        have hlong : maxMessageBytes ≤ (Str.bytes line.text).length := by
          rw [line.length] at hfits
          omega
        have hnewline := newline_not_mem_bytes line.no_newline
        by_cases hknown : mode = .jsonLine
        · -- It would be one frame more than there are messages.
          subst hknown
          intro hreads
          obtain ⟨next, hnext, hread⟩ : ∃ next, next.bytes = rest ∧
              readMessage reader .jsonLine = .ok (some .oversized, next, .jsonLine) :=
            readMessage_long hline hnewline hlong (fun _ _ _ => rfl)
          obtain ⟨others, hframes, hothers⟩ := (readsFrames_iff_of_frame hread).mp hreads
          have hle := length_frames_le hvec hframing (hnext ▸ hrest) hothers
          rw [hframes] at hle
          simp at hle
        · exact not_readsFrames_of_error (readMessage_long_error hline hnewline hlong
            fun first hprefix => isJsonLine_blank line hknown hprefix)
    | message sent =>
      obtain ⟨text, hpayload, htext⟩ := sent.container hvec
      have hline : reader.bytes = Str.bytes text ++ 0x0A :: rest := by
        rw [written_line hframing] at hfirst
        rw [hbytes, ← Option.some.inj hfirst, hpayload]
        simp
      by_cases hfits : (Str.bytes text).length < maxMessageBytes
      · obtain ⟨next, hnext, hread⟩ := readMessage_line htext hline hfits hmode
        rw [readsFrames_iff_of_frame hread, ← ih (hnext ▸ hrest) (show FramingMode.jsonLine ≠ .contentLength by simp)]
        simp [SessionItem.frames, SessionItem.Fits, hpayload, hfits.le, hfits.ne]
      · obtain ⟨next, hnext, hread⟩ := readMessage_long hline
          (newline_not_mem_bytes htext.no_newline) (Nat.not_lt.mp hfits)
          (fun first => isJsonLine_container htext hmode)
        rw [readsFrames_iff_of_frame hread, ← ih (hnext ▸ hrest) (show FramingMode.jsonLine ≠ .contentLength by simp)]
        by_cases hfull : (Str.bytes text).length = maxMessageBytes
        · simp [SessionItem.frames, SessionItem.Fits, hpayload, hfull, hframing]
        · have hlong : ¬ (Str.bytes text).length ≤ maxMessageBytes := by omega
          simp [SessionItem.frames, SessionItem.Fits, hpayload, hlong, hfull]

/-- A session of headers and bodies is read as it was written exactly when its blank lines fit. -/
theorem readsFrames_content {items : List (SessionItem toVec)}
    (hsizes : ∀ sent, .message sent ∈ items → sent.payload.length ≤ maxMessageBytes)
    (h : writtenItems .contentLength items = some reader.bytes) (hmode : mode ≠ .jsonLine) :
    ReadsFrames reader mode (items.flatMap SessionItem.frames) ↔
      ∀ item ∈ items, item.Fits .contentLength := by
  induction items generalizing reader mode with
  | nil =>
    have hempty : reader.bytes = [] := (Option.some.inj h).symm
    simpa using readsFrames_nil hempty
  | cons item items ih =>
    have ih := fun {reader mode} => @ih reader mode
      fun sent hsent => hsizes sent (List.mem_cons_of_mem _ hsent)
    obtain ⟨first, rest, hfirst, hrest, hbytes⟩ := writtenItems_cons h
    rw [List.flatMap_cons, List.forall_mem_cons]
    cases item with
    | blank line =>
      obtain rfl := Option.some.inj hfirst
      show ReadsFrames reader mode (items.flatMap SessionItem.frames) ↔
        line.bytes.length ≤ maxMessageBytes ∧ _
      by_cases hfits : line.bytes.length ≤ maxMessageBytes
      · obtain ⟨next, hnext, hread⟩ := readMessage_blank line hbytes hfits
        rw [readsFrames_congr hread, ih (hnext ▸ hrest) hmode]
        simp [hfits]
      · simp only [hfits, false_and, iff_false]
        have hline : reader.bytes = Str.bytes line.text ++ 0x0A :: rest := by
          simp [hbytes, BlankLine.bytes]
        have hlong : maxMessageBytes ≤ (Str.bytes line.text).length := by
          rw [line.length] at hfits
          omega
        exact not_readsFrames_of_error (readMessage_long_error hline
          (newline_not_mem_bytes line.no_newline) hlong
          fun first hprefix => isJsonLine_blank line hmode hprefix)
    | message sent =>
      have hsize := hsizes sent (by simp)
      have hcontent : reader.bytes =
          Str.bytes (contentLengthHeader sent.payload.length) ++ sent.payload ++ rest := by
        rw [written_content] at hfirst
        rw [hbytes, ← Option.some.inj hfirst]
      obtain ⟨next, hnext, hread⟩ := readMessage_content hcontent hsize hmode
      rw [readsFrames_iff_of_frame hread, ← ih (hnext ▸ hrest) (show FramingMode.contentLength ≠ .jsonLine by simp)]
      simp [SessionItem.frames, SessionItem.Fits, hsize]

/-- What is written in either framing, with blank lines anywhere, is read as one frame for each
    message, the payload or, for a line over the limit, its report, and then as the end: exactly
    when no line of JSON has `maxMessageBytes` bytes and no blank line is longer with its newline. -/
theorem framing_roundTrip_iff (hvec : WritesLines toVec) (framing : FramingMode)
    (items : List (SessionItem toVec))
    (hsizes : framing = .contentLength → ∀ sent, .message sent ∈ items →
      sent.payload.length ≤ maxMessageBytes)
    (reader : Reader) (h : writtenItems framing items = some reader.bytes) :
    ReadsFrames reader .unknown (items.flatMap SessionItem.frames) ↔
      ∀ item ∈ items, item.Fits framing := by
  by_cases hframing : framing = .contentLength
  · subst hframing
    exact readsFrames_content (hsizes rfl) h (by simp)
  · exact readsFrames_lines hvec hframing h (by simp)

end Sessions

/-! ## Samples -/

/-- `to_vec` of an array that holds one string of letters `x`. -/
def arrayToVec (length : Nat) : Option (List UInt8) :=
  some (Str.bytes ('[' :: '"' :: (List.replicate length 'x' ++ ['"', ']'])))

theorem arrayToVec_writesLines : WritesLines arrayToVec := by
  intro length payload h
  obtain rfl := Option.some.inj h
  exact ⟨_, rfl, by simp [List.mem_replicate]⟩

def arrayMessage (length : Nat) : Message arrayToVec where
  value := length
  payload := Str.bytes ('[' :: '"' :: (List.replicate length 'x' ++ ['"', ']']))
  serialized := rfl
  opens := .inr rfl
  closes := by
    right
    rw [← List.cons_append, ← List.cons_append, Str.bytes_append]
    exact List.getLast?_append_of_ne_nil _ (by decide)

theorem arrayMessage_length (length : Nat) : (arrayMessage length).payload.length = length + 4 := by
  have hascii : ∀ c ∈ '[' :: '"' :: (List.replicate length 'x' ++ ['"', ']']), c.toNat ≤ 0x7f := by
    intro c hc
    simp only [List.mem_cons, List.mem_append, List.mem_replicate, List.not_mem_nil, or_false] at hc
    rcases hc with rfl | rfl | ⟨-, rfl⟩ | rfl | rfl <;> decide
  show (Str.bytes _).length = _
  rw [Str.bytes_length_of_ascii hascii]
  simp

def emptyLine : BlankLine := ⟨['\r'], by simp [isWhitespace], by simp⟩

/-- An input that comes one byte at a time. -/
def bytewise (bytes : List UInt8) : Reader := ⟨bytes.map fun byte => [byte], by simp⟩

theorem bytewise_bytes (bytes : List UInt8) : (bytewise bytes).bytes = bytes := by
  simp [bytewise, Reader.bytes, ← List.flatMap_def]

/-- A blank line between two messages. -/
theorem framing_roundTrip_iff_sample :
    ∃ reader : Reader,
      writtenItems .contentLength
          [.message (arrayMessage 1), .blank emptyLine, .message (arrayMessage 2)] =
        some reader.bytes ∧
      ReadsFrames reader .unknown
        [.payload (arrayMessage 1).payload, .payload (arrayMessage 2).payload] := by
  obtain ⟨bytes, hbytes⟩ : ∃ bytes, writtenItems .contentLength
      [.message (arrayMessage 1), .blank emptyLine, .message (arrayMessage 2)] = some bytes :=
    ⟨_, rfl⟩
  rw [← bytewise_bytes bytes] at hbytes
  have hone : (arrayMessage 1).payload.length ≤ maxMessageBytes := by
    simp [arrayMessage_length, maxMessageBytes]
  have htwo : (arrayMessage 2).payload.length ≤ maxMessageBytes := by
    simp [arrayMessage_length, maxMessageBytes]
  have hreads := (framing_roundTrip_iff arrayToVec_writesLines .contentLength
    [.message (arrayMessage 1), .blank emptyLine, .message (arrayMessage 2)] ?_ _ hbytes).mpr ?_
  · exact ⟨_, hbytes, by simpa [SessionItem.frames, hone, htwo] using hreads⟩
  · intro _ sent hsent
    simp only [List.mem_cons, List.not_mem_nil, or_false, SessionItem.message.injEq,
      reduceCtorEq, false_or] at hsent
    rcases hsent with rfl | rfl
    · exact hone
    · exact htwo
  · simp only [List.forall_mem_cons, SessionItem.Fits]
    have hempty : emptyLine.bytes.length ≤ maxMessageBytes := by
      rw [show emptyLine.bytes = [0x0D, 0x0A] by decide]
      simp [maxMessageBytes]
    exact ⟨by simp, hempty, by simp, by simp⟩

/-- A line of JSON of `maxMessageBytes` bytes is reported as oversized. -/
theorem full_line_is_oversized :
    ∃ (sent : Message arrayToVec) (reader : Reader), sent.payload.length ≤ maxMessageBytes ∧
      writtenItems .jsonLine [.message sent] = some reader.bytes ∧
      ReadsFrames reader .unknown [.oversized] ∧
      ¬ ReadsFrames reader .unknown [.payload sent.payload] := by
  obtain ⟨sent, hsent⟩ : ∃ sent : Message arrayToVec, sent.payload.length = maxMessageBytes :=
    ⟨arrayMessage (maxMessageBytes - 4), by rw [arrayMessage_length]; simp [maxMessageBytes]⟩
  obtain ⟨text, hpayload, htext⟩ := sent.container arrayToVec_writesLines
  have hwritten : writtenItems .jsonLine [.message sent] =
      some (bytewise (sent.payload ++ [0x0A])).bytes := by
    simp [writtenItems, written_line, bytewise_bytes]
  have hline : (bytewise (sent.payload ++ [0x0A])).bytes = Str.bytes text ++ 0x0A :: [] := by
    rw [bytewise_bytes, hpayload]
  obtain ⟨next, hnext, hread⟩ : ∃ next, next.bytes = [] ∧
      readMessage _ .unknown = .ok (some .oversized, next, .jsonLine) := readMessage_long hline
    (newline_not_mem_bytes htext.no_newline) (by rw [← hpayload, hsent])
    (fun first => isJsonLine_container htext (by simp))
  refine ⟨sent, _, hsent.le, hwritten, ?_, ?_⟩
  · exact (readsFrames_iff_of_frame hread).mpr ⟨[], rfl, readsFrames_nil hnext⟩
  · intro hreads
    obtain ⟨rest, hframes, -⟩ := (readsFrames_iff_of_frame hread).mp hreads
    cases hframes

end Ivygrep.Native
