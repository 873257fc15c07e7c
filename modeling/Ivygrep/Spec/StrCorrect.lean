import Mathlib.Data.List.DropRight
import Ivygrep.Native.Str

/-!
# Properties of the string primitives

How `split_once` and `strip_prefix` undo a concatenation, what trimming keeps, that the
lines of a text hold no newline, and what the UTF-8 bytes of a text say about it.
-/

namespace Ivygrep.Native.Str

/-- A fact about the ASCII characters is checked on each of them. -/
theorem forall_ascii {p : Char → Prop} (h : ∀ n : Fin 128, p (Char.ofNat n)) {c : Char}
    (hc : c.toNat ≤ 0x7f) : p c := by
  have := h ⟨c.toNat, by omega⟩
  rwa [Char.ofNat_toNat] at this

/-- A character above ASCII is above every ASCII bound. -/
theorem not_le_of_not_ascii {c : Char} (hc : ¬ c.toNat ≤ 0x7f) {bound : UInt32}
    (hbound : bound.toNat ≤ 0x7f) : ¬ c.val ≤ bound := by
  intro hle
  have hnat : c.toNat ≤ bound.toNat := UInt32.le_iff_toNat_le.mp hle
  omega

/-- Letters and digits are ASCII. -/
theorem ascii_of_isAlphanum {c : Char} (h : c.isAlphanum = true) : c.toNat ≤ 0x7f := by
  by_contra hc
  have hbound : ∀ bound : UInt32, bound.toNat ≤ 0x7f → ¬ c.val ≤ bound :=
    fun _ => not_le_of_not_ascii hc
  simp [Char.isAlphanum, Char.isAlpha, Char.isUpper, Char.isLower, Char.isDigit,
    hbound 90 (by decide), hbound 122 (by decide), hbound 57 (by decide)] at h

/-- `split_once` cuts at the separator when the text before it has none. -/
theorem splitOnce_append {sep : Char} {before : Str} (after : Str) (h : sep ∉ before) :
    splitOnce sep (before ++ sep :: after) = some (before, after) := by
  induction before with
  | nil => simp [splitOnce]
  | cons c rest ih =>
    simp only [List.mem_cons, not_or] at h
    simp [splitOnce, Ne.symm h.1, ih h.2]

@[simp] theorem startsWith_append (pattern rest : Str) :
    startsWith (pattern ++ rest) pattern = true := by
  simp [startsWith, List.isPrefixOf_iff_prefix]

@[simp] theorem stripPrefix_append (pattern rest : Str) :
    stripPrefix (pattern ++ rest) pattern = some rest := by
  simp [stripPrefix]

/-- Trimming only drops characters. -/
theorem mem_of_mem_trim {c : Char} {s : Str} (h : c ∈ trim s) : c ∈ s := by
  have hrev := List.mem_reverse.mp h
  have hstart := (List.dropWhile_suffix isWhitespace).subset hrev
  exact (List.dropWhile_suffix isWhitespace).subset (List.mem_reverse.mp hstart)

/-! ## Trimming -/

theorem trimStart_trim (text : Str) : trimStart (trim text) = trim text := by
  apply List.dropWhile_eq_self_iff.mpr
  intro hpos
  have hstart : trim text <+: trimStart text := List.rdropWhile_prefix _ _
  have hlength := hstart.length_le
  have hself : trimStart (trimStart text) = trimStart text := List.dropWhile_idempotent _ _
  rw [hstart.getElem hpos]
  exact List.dropWhile_eq_self_iff.mp hself (by omega)

theorem trim_trim (text : Str) : trim (trim text) = trim text := by
  rw [trim, trimStart_trim]
  exact List.rdropWhile_idempotent _ _

/-- Blanks around a trimmed text are trimmed. -/
theorem trim_between {middle : Str} (left right : Str) (hleft : ∀ c ∈ left, isWhitespace c = true)
    (hright : ∀ c ∈ right, isWhitespace c = true) (hmiddle : trim middle = middle)
    (hne : middle ≠ []) : trim (left ++ middle ++ right) = middle := by
  have hstart : trimStart middle = middle := by
    rw [← hmiddle]
    exact trimStart_trim middle
  have hleading : trimStart (left ++ middle ++ right) = middle ++ right := by
    unfold trimStart
    rw [List.append_assoc, List.dropWhile_append_of_pos hleft, List.dropWhile_append,
      show List.dropWhile isWhitespace middle = middle from hstart]
    simp [hne]
  rw [trim, hleading, List.rdropWhile, List.reverse_append,
    List.dropWhile_append_of_pos fun c hc => hright c (List.mem_reverse.mp hc)]
  rw [trim, hstart] at hmiddle
  exact hmiddle

/-- A text that starts and ends with something is not trimmed. -/
theorem trim_of_ends {text : Str} {first last : Char} (hfirst : text.head? = some first)
    (hlast : text.getLast? = some last) (hstart : isWhitespace first = false)
    (hend : isWhitespace last = false) : trim text = text := by
  have hkept : trimStart text = text := by
    unfold trimStart
    cases text with
    | nil => rfl
    | cons c rest =>
      obtain rfl : c = first := by simpa using hfirst
      rw [List.dropWhile_cons_of_neg (by simp [hstart])]
  rw [trim, hkept, List.rdropWhile_eq_self_iff]
  intro hne
  rw [List.getLast?_eq_some_getLast hne, Option.some.injEq] at hlast
  simp [hlast, hend]

/-! ## Lines -/

/-- No line of a text contains a newline. -/
private theorem linesFrom_newline (text cur : Str) (hcur : '\n' ∉ cur) :
    ∀ line ∈ linesFrom cur text, '\n' ∉ line := by
  induction text generalizing cur with
  | nil =>
    intro line hline
    simp only [linesFrom] at hline
    split at hline
    · simp at hline
    · simp only [List.mem_singleton] at hline
      simpa [hline] using hcur
  | cons c rest ih =>
    intro line hline
    simp only [linesFrom] at hline
    split at hline
    · rcases List.mem_cons.mp hline with rfl | hline
      · split
        · simp only [List.mem_cons, not_or] at hcur
          simpa using hcur.2
        · simpa using hcur
      · exact ih [] (by simp) line hline
    · rename_i hc
      exact ih (c :: cur) (by simpa using ⟨Ne.symm hc, hcur⟩) line hline

/-- No line of a text contains a newline. -/
theorem newline_not_mem_lines {text line : Str} (h : line ∈ lines text) : '\n' ∉ line :=
  linesFrom_newline text [] (by simp) line h

/-! ## UTF-8 -/

/-- An ASCII character is encoded as one byte. -/
theorem utf8EncodeChar_of_ascii {c : Char} (h : c.toNat ≤ 0x7f) :
    String.utf8EncodeChar c = [UInt8.ofNat c.toNat] := by
  unfold String.utf8EncodeChar
  exact if_pos h

/-- The bytes of another character are not ASCII. -/
theorem not_ascii_of_mem_utf8EncodeChar {c : Char} (h : ¬ c.toNat ≤ 0x7f) :
    ∀ byte ∈ String.utf8EncodeChar c, ¬ byte < 0x80 := by
  have hhigh : ∀ n, 0x80 ≤ n → n < 0x100 → ¬ UInt8.ofNat n < 0x80 := by
    intro n hlow hhigh
    rw [UInt8.lt_iff_toNat_lt, UInt8.toNat_ofNat', Nat.mod_eq_of_lt hhigh]
    exact Nat.not_lt_of_le hlow
  intro byte hbyte
  simp only [String.utf8EncodeChar, if_neg (show ¬ c.val.toNat ≤ 0x7f from h)] at hbyte
  split at hbyte
  · simp only [List.mem_cons, List.not_mem_nil, or_false] at hbyte
    rcases hbyte with rfl | rfl <;> exact hhigh _ (by omega) (by omega)
  · split at hbyte
    · simp only [List.mem_cons, List.not_mem_nil, or_false] at hbyte
      rcases hbyte with rfl | rfl | rfl <;> exact hhigh _ (by omega) (by omega)
    · simp only [List.mem_cons, List.not_mem_nil, or_false] at hbyte
      rcases hbyte with rfl | rfl | rfl | rfl <;> exact hhigh _ (by omega) (by omega)

/-- An ASCII byte is a character of its own. -/
theorem eq_of_mem_utf8EncodeChar {c : Char} {byte : UInt8} (h : byte ∈ String.utf8EncodeChar c)
    (hbyte : byte < 0x80) : c = Char.ofNat byte.toNat := by
  by_cases hc : c.toNat ≤ 0x7f
  · rw [utf8EncodeChar_of_ascii hc, List.mem_singleton] at h
    rw [h, UInt8.toNat_ofNat', Nat.mod_eq_of_lt (by omega), Char.ofNat_toNat]
  · exact absurd hbyte (not_ascii_of_mem_utf8EncodeChar hc byte h)

theorem bytes_append (left right : Str) : bytes (left ++ right) = bytes left ++ bytes right :=
  List.flatMap_append

theorem bytes_cons (c : Char) (text : Str) :
    bytes (c :: text) = String.utf8EncodeChar c ++ bytes text :=
  List.flatMap_cons

theorem bytes_singleton (c : Char) : bytes [c] = String.utf8EncodeChar c :=
  List.flatMap_singleton _ _

/-- Only the NUL character has a zero byte. -/
theorem zero_mem_utf8EncodeChar {c : Char} (h : (0 : UInt8) ∈ String.utf8EncodeChar c) :
    c = '\x00' := by
  by_cases hc : c.toNat ≤ 0x7f
  · exact forall_ascii (p := fun c => (0 : UInt8) ∈ String.utf8EncodeChar c → c = '\x00')
      (by decide +kernel) hc h
  · exact absurd (by decide) (not_ascii_of_mem_utf8EncodeChar hc 0 h)

/-- An ASCII text has one byte for each character. -/
theorem bytes_length_of_ascii {s : Str} (h : ∀ c ∈ s, c.toNat ≤ 0x7f) :
    (bytes s).length = s.length := by
  rw [bytes, List.flatMap_congr fun c hc => utf8EncodeChar_of_ascii (h c hc),
    ← List.map_eq_flatMap, List.length_map]

/-- A text is determined by its bytes. -/
theorem bytes_injective : Function.Injective bytes := by
  intro left right h
  have hencode : left.utf8Encode = right.utf8Encode := congrArg List.toByteArray h
  rw [← String.toByteArray_ofList, ← String.toByteArray_ofList, String.toByteArray_inj] at hencode
  exact String.ofList_injective hencode

theorem fromUtf8_bytes (text : Str) : fromUtf8 (bytes text) = some text := by
  rw [fromUtf8, show bytes text = ForStd.Utf8.encode text from rfl, ForStd.Utf8.valid_encode]
  rfl

/-- A text that is read has the bytes that it is read from. -/
theorem bytes_of_fromUtf8 {raw : List UInt8} {text : Str} (h : fromUtf8 raw = some text) :
    bytes text = raw := by
  unfold fromUtf8 at h
  split at h
  · next hrest =>
    have hsplit := (ForStd.Utf8.valid_spec raw).1
    rw [hrest, List.append_nil, Option.some.inj h] at hsplit
    exact hsplit.symm
  · cases h

/-! ## Byte offsets -/

@[simp] theorem len_nil : len [] = 0 := rfl

@[simp] theorem len_cons (c : Char) (text : Str) : len (c :: text) = c.utf8Size + len text := by
  simp [len]

@[simp] theorem len_append (left right : Str) : len (left ++ right) = len left + len right := by
  simp [len]

theorem len_eq_zero {text : Str} (h : len text = 0) : text = [] := by
  cases text with
  | nil => rfl
  | cons c rest =>
    have hpos := c.utf8Size_pos
    rw [len_cons] at h
    omega

theorem length_bytes (text : Str) : (bytes text).length = len text := by
  induction text with
  | nil => rfl
  | cons c text ih =>
    rw [bytes, List.flatMap_cons, List.length_append, len_cons, String.length_utf8EncodeChar]
    exact congrArg _ ih

theorem splitAtByte_zero (text : Str) : splitAtByte 0 text = some ([], text) := by
  cases text <;> rfl

theorem splitAtByte_eq_some {offset : Nat} {text before after : Str} :
    splitAtByte offset text = some (before, after) ↔ text = before ++ after ∧ len before = offset := by
  induction text generalizing offset before with
  | nil =>
    cases offset with
    | zero =>
      constructor
      · intro h
        cases h
        exact ⟨rfl, rfl⟩
      · rintro ⟨heq, -⟩
        obtain ⟨rfl, rfl⟩ := List.append_eq_nil_iff.mp heq.symm
        rfl
    | succ offset =>
      constructor
      · intro h
        cases h
      · rintro ⟨heq, hlen⟩
        obtain ⟨rfl, -⟩ := List.append_eq_nil_iff.mp heq.symm
        cases hlen
  | cons c text ih =>
    have hpos := c.utf8Size_pos
    cases offset with
    | zero =>
      constructor
      · intro h
        cases h
        exact ⟨rfl, rfl⟩
      · rintro ⟨heq, hlen⟩
        obtain rfl := len_eq_zero hlen
        rw [heq, splitAtByte_zero]
        rfl
    | succ offset =>
      rw [splitAtByte]
      constructor
      · intro h
        split at h
        · next hfits =>
          obtain ⟨⟨first, rest⟩, hsplit, heq⟩ := Option.map_eq_some_iff.mp h
          cases heq
          obtain ⟨rfl, hlen⟩ := ih.mp hsplit
          exact ⟨rfl, by rw [len_cons]; omega⟩
        · cases h
      · rintro ⟨heq, hlen⟩
        cases before with
        | nil => cases hlen
        | cons d before =>
          obtain ⟨rfl, rfl⟩ := List.cons.inj heq
          rw [len_cons] at hlen
          rw [if_pos (by omega), ih.mpr ⟨rfl, show len before = offset + 1 - c.utf8Size by omega⟩]
          rfl

theorem isCharBoundary_iff {text : Str} {offset : Nat} :
    isCharBoundary text offset ↔ ∃ before after, text = before ++ after ∧ len before = offset := by
  rw [isCharBoundary, Option.isSome_iff_exists]
  constructor
  · rintro ⟨⟨before, after⟩, h⟩
    exact ⟨before, after, splitAtByte_eq_some.1 h⟩
  · rintro ⟨before, after, h⟩
    exact ⟨(before, after), splitAtByte_eq_some.2 h⟩

theorem isCharBoundary_len (before after : Str) : isCharBoundary (before ++ after) (len before) :=
  isCharBoundary_iff.2 ⟨before, after, rfl, rfl⟩

theorem isCharBoundary_le {text : Str} {offset : Nat} (h : isCharBoundary text offset) :
    offset ≤ len text := by
  obtain ⟨before, after, rfl, rfl⟩ := isCharBoundary_iff.1 h
  simp

/-- Of two places in a text the earlier one leaves what is between them. -/
theorem exists_middle {before after before' after' : Str} (h : before ++ after = before' ++ after')
    (hle : len before ≤ len before') :
    ∃ middle, before' = before ++ middle ∧ after = middle ++ after' := by
  rcases List.append_eq_append_iff.mp h with ⟨middle, hbefore, hafter⟩ | ⟨middle, hbefore, hafter⟩
  · exact ⟨middle, hbefore, hafter⟩
  · rw [hbefore, len_append] at hle
    obtain rfl : middle = [] := len_eq_zero (by omega)
    rw [List.append_nil] at hbefore
    exact ⟨[], by rw [hbefore, List.append_nil], hafter.symm⟩

theorem slice_eq_some {text part : Str} {start stop : Nat} :
    slice text start stop = some part ↔
      ∃ before after, text = before ++ part ++ after ∧ len before = start ∧
        stop = start + len part := by
  unfold slice
  constructor
  · intro h
    split at h
    · obtain ⟨⟨whole, after⟩, hstop, h⟩ := Option.bind_eq_some_iff.mp h
      obtain ⟨⟨before, rest⟩, hstart, heq⟩ := Option.map_eq_some_iff.mp h
      obtain rfl : rest = part := heq
      obtain ⟨rfl, hlen⟩ := splitAtByte_eq_some.1 hstop
      obtain ⟨rfl, rfl⟩ := splitAtByte_eq_some.1 hstart
      exact ⟨before, after, rfl, rfl, by rw [← hlen, len_append]⟩
    · cases h
  · rintro ⟨before, after, rfl, rfl, rfl⟩
    have hstop : splitAtByte (len before + len part) (before ++ part ++ after) =
        some (before ++ part, after) := splitAtByte_eq_some.2 ⟨rfl, len_append _ _⟩
    have hstart : splitAtByte (len before) (before ++ part) = some (before, part) :=
      splitAtByte_eq_some.2 ⟨rfl, rfl⟩
    rw [if_pos (Nat.le_add_right _ _), hstop]
    simp [hstart]

/-- A range between character boundaries can be taken out. -/
theorem exists_slice {text : Str} {start stop : Nat} (hstart : isCharBoundary text start)
    (hstop : isCharBoundary text stop) (hle : start ≤ stop) :
    ∃ part, slice text start stop = some part ∧ stop = start + len part := by
  obtain ⟨before, rest, htext, rfl⟩ := isCharBoundary_iff.1 hstart
  obtain ⟨whole, after, htext', rfl⟩ := isCharBoundary_iff.1 hstop
  obtain ⟨part, rfl, rfl⟩ := exists_middle (htext.symm.trans htext') hle
  refine ⟨part, slice_eq_some.2 ⟨before, after, ?_, rfl, ?_⟩, ?_⟩
  · rw [htext, List.append_assoc]
  · rw [len_append]
  · rw [len_append]

theorem isCharBoundary_zero (text : Str) : isCharBoundary text 0 :=
  isCharBoundary_len [] text

theorem isCharBoundary_end (text : Str) : isCharBoundary text (len text) := by
  simpa using isCharBoundary_len text []

theorem isCharBoundary_append (before : Str) {after : Str} {place : Nat} :
    isCharBoundary (before ++ after) (len before + place) ↔ isCharBoundary after place := by
  constructor
  · intro h
    obtain ⟨first, last, hsplit, hplace⟩ := isCharBoundary_iff.1 h
    obtain ⟨middle, rfl, hafter⟩ := exists_middle hsplit (by omega)
    rw [len_append] at hplace
    exact isCharBoundary_iff.2 ⟨middle, last, hafter, by omega⟩
  · intro h
    obtain ⟨first, last, rfl, rfl⟩ := isCharBoundary_iff.1 h
    exact isCharBoundary_iff.2 ⟨before ++ first, last, by simp, len_append _ _⟩

/-- An ASCII byte is a character that stands between two boundaries. -/
theorem split_at_ascii {text : Str} {i : Nat} {byte : UInt8} (h : (bytes text)[i]? = some byte)
    (hascii : byte < 0x80) :
    ∃ before c after, text = before ++ c :: after ∧ len before = i ∧
      String.utf8EncodeChar c = [byte] := by
  induction text generalizing i with
  | nil => simp [bytes] at h
  | cons c text ih =>
    have hlength := String.length_utf8EncodeChar c
    rw [bytes, List.flatMap_cons] at h
    rcases Nat.lt_or_ge i c.utf8Size with hlt | hge
    · rw [List.getElem?_append_left (by omega)] at h
      have hmem := List.mem_of_getElem? h
      have hc : c.toNat ≤ 0x7f := by
        by_contra hwide
        exact not_ascii_of_mem_utf8EncodeChar hwide byte hmem hascii
      rw [utf8EncodeChar_of_ascii hc] at h hmem hlength
      have hi : i = 0 := by
        rw [List.length_singleton] at hlength
        omega
      exact ⟨[], c, text, rfl, hi.symm, by
        rw [utf8EncodeChar_of_ascii hc, List.mem_singleton.mp hmem]⟩
    · rw [List.getElem?_append_right (by omega), hlength] at h
      obtain ⟨before, d, after, rfl, hbefore, hd⟩ := ih h
      exact ⟨c :: before, d, after, rfl, by rw [len_cons]; omega, hd⟩

/-- Both sides of an ASCII byte are character boundaries. -/
theorem isCharBoundary_of_ascii {text : Str} {i : Nat} {byte : UInt8}
    (h : (bytes text)[i]? = some byte) (hascii : byte < 0x80) :
    isCharBoundary text i ∧ isCharBoundary text (i + 1) := by
  obtain ⟨before, c, after, rfl, rfl, hc⟩ := split_at_ascii h hascii
  have hsize : c.utf8Size = 1 := by rw [← String.length_utf8EncodeChar, hc, List.length_singleton]
  refine ⟨isCharBoundary_len before (c :: after), ?_⟩
  have hnext := isCharBoundary_len (before ++ [c]) after
  simpa [hsize] using hnext

/-- A boundary between the ends of a part is a boundary of the part. -/
theorem isCharBoundary_slice {text part : Str} {start stop place : Nat}
    (hpart : slice text start stop = some part) (hplace : isCharBoundary text place)
    (hstart : start ≤ place) (hstop : place ≤ stop) : isCharBoundary part (place - start) := by
  obtain ⟨before, after, rfl, rfl, rfl⟩ := slice_eq_some.1 hpart
  obtain ⟨first, last, hsplit, rfl⟩ := isCharBoundary_iff.1 hplace
  rw [List.append_assoc] at hsplit
  obtain ⟨middle, rfl, hrest⟩ := exists_middle hsplit hstart
  rw [len_append] at hstop ⊢
  obtain ⟨rest, rfl, -⟩ := exists_middle hrest.symm (by omega)
  rw [Nat.add_sub_cancel_left]
  exact isCharBoundary_len middle rest

/-! ## ASCII case -/

theorem toLower_of_not_ascii {c : Char} (h : ¬ c.toNat ≤ 0x7f) : c.toLower = c := by
  unfold Char.toLower
  rw [dif_neg]
  exact fun hupper => h (Nat.le_trans hupper.2 (by decide))

theorem utf8Size_toLower (c : Char) : c.toLower.utf8Size = c.utf8Size := by
  by_cases hascii : c.toNat ≤ 0x7f
  · exact forall_ascii (p := fun c => c.toLower.utf8Size = c.utf8Size) (by decide +kernel) hascii
  · rw [toLower_of_not_ascii hascii]

@[simp] theorem len_toAsciiLowercase (text : Str) : len (toAsciiLowercase text) = len text := by
  induction text with
  | nil => rfl
  | cons c text ih =>
    rw [len_cons, ← ih, ← utf8Size_toLower]
    rfl

/-- A byte of an ASCII letter in lower case. -/
def lowerByte (byte : UInt8) : UInt8 :=
  if 'A'.toUInt8 ≤ byte ∧ byte ≤ 'Z'.toUInt8 then byte + 32 else byte

theorem map_lowerByte_char (c : Char) :
    (String.utf8EncodeChar c).map lowerByte = String.utf8EncodeChar c.toLower := by
  by_cases hascii : c.toNat ≤ 0x7f
  · exact forall_ascii
      (p := fun c => (String.utf8EncodeChar c).map lowerByte = String.utf8EncodeChar c.toLower)
      (by decide +kernel) hascii
  · rw [toLower_of_not_ascii hascii]
    have hsame : ∀ byte ∈ String.utf8EncodeChar c, lowerByte byte = byte := by
      intro byte hbyte
      have hhigh := not_ascii_of_mem_utf8EncodeChar hascii byte hbyte
      refine if_neg fun hletter => hhigh ?_
      exact UInt8.lt_of_le_of_lt hletter.2 (by decide)
    rw [List.map_congr_left hsame, List.map_id']

theorem bytes_toAsciiLowercase (text : Str) :
    bytes (toAsciiLowercase text) = (bytes text).map lowerByte := by
  induction text with
  | nil => rfl
  | cons c text ih =>
    rw [bytes_cons, List.map_append, map_lowerByte_char, ← ih]
    exact bytes_cons _ _

theorem isCharBoundary_toAsciiLowercase {text : Str} {offset : Nat} :
    isCharBoundary (toAsciiLowercase text) offset ↔ isCharBoundary text offset := by
  rw [isCharBoundary_iff, isCharBoundary_iff]
  constructor
  · rintro ⟨before, after, hsplit, rfl⟩
    obtain ⟨first, last, rfl, rfl, rfl⟩ := List.map_eq_append_iff.mp hsplit
    exact ⟨first, last, rfl, (len_toAsciiLowercase first).symm⟩
  · rintro ⟨before, after, rfl, rfl⟩
    exact ⟨toAsciiLowercase before, toAsciiLowercase after, List.map_append,
      len_toAsciiLowercase before⟩

end Ivygrep.Native.Str
