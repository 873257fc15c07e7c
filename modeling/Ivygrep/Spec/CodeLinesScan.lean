import Ivygrep.Spec.CodeLinesCorrect

/-!
# The scan for closing brackets

One equation for each mode of the scan. Blanks at the end of a line change nothing of what it finds,
and each character of an annotation moves it on.

## Key results

- `closeFrom_append`: blanks at the end
- `scan_string_skip`, `scan_block_skip`, `scan_code_skip`: characters that open and close nothing
- `scan_comment`: the rest of a line behind a line comment
-/

namespace Ivygrep.Native.CodeLines

open Str

/-! ## One byte -/

section

variable (comments : LineComments) {brackets : OpenBrackets} {before rest : List UInt8}
  {byte : UInt8}

theorem closeFrom_string {delimiter : StringDelimiter} (h : brackets.string = some delimiter) :
    closeFrom comments (before ++ byte :: rest) brackets before.length =
      if byte = 0x5c then closeFrom comments (before ++ byte :: rest) brackets (before.length + 2)
      else if delimiter.bytes.isPrefixOf (byte :: rest) then
        closeFrom comments (before ++ byte :: rest) { brackets with string := none }
          (before.length + delimiter.bytes.length)
      else closeFrom comments (before ++ byte :: rest) brackets (before.length + 1) := by
  rw [closeFrom, dif_pos (by simp)]
  simp [h]

theorem closeFrom_block (hstring : brackets.string = none) (h : brackets.blockComment = true) :
    closeFrom comments (before ++ byte :: rest) brackets before.length =
      match findPair (0x2a, 0x2f) (byte :: rest) with
      | none => .error brackets.atLineEnd
      | some stop =>
        closeFrom comments (before ++ byte :: rest) { brackets with blockComment := false }
          (before.length + stop + 2) := by
  rw [closeFrom, dif_pos (by simp)]
  simp [h, hstring] <;> rfl

theorem closeFrom_code (hstring : brackets.string = none) (h : brackets.blockComment = false) :
    closeFrom comments (before ++ byte :: rest) brackets before.length =
      match stringDelimiters.find? fun delimiter => delimiter.bytes.isPrefixOf (byte :: rest) with
      | some delimiter =>
        closeFrom comments (before ++ byte :: rest) { brackets with string := some delimiter }
          (before.length + delimiter.bytes.length)
      | none =>
        if [0x2f, 0x2a].isPrefixOf (byte :: rest) then
          closeFrom comments (before ++ byte :: rest) { brackets with blockComment := true }
            (before.length + 2)
        else if comments.startsAt (before ++ byte :: rest) before.length then
          .error brackets.atLineEnd
        else if byte ∈ [0x28, 0x5b, 0x7b] then
          closeFrom comments (before ++ byte :: rest) { brackets with depth := brackets.depth + 1 }
            (before.length + 1)
        else if byte ∈ [0x29, 0x5d, 0x7d] then
          if brackets.depth - 1 = 0 then .ok (before.length + 1)
          else
            closeFrom comments (before ++ byte :: rest)
              { brackets with depth := brackets.depth - 1 } (before.length + 1)
        else closeFrom comments (before ++ byte :: rest) brackets (before.length + 1) := by
  rw [closeFrom, dif_pos (by simp)]
  simp [h, hstring] <;> rfl

theorem closeFrom_end {bytes : List UInt8} {offset : Nat} (h : bytes.length ≤ offset) :
    closeFrom comments bytes brackets offset = .error brackets.atLineEnd := by
  rw [closeFrom, dif_neg (Nat.not_lt.mpr h)]

end

/-! ## Blanks at the end -/

/-- Bytes of blanks, and of characters that are not ASCII. -/
def Inert (byte : UInt8) : Prop := 0x80 ≤ byte ∨ byte = 0x20 ∨ 0x09 ≤ byte ∧ byte ≤ 0x0d

instance : DecidablePred Inert := fun _ => inferInstanceAs (Decidable (_ ∨ _))

/-- The bytes that mean something to the scan. -/
def specialBytes : List UInt8 :=
  [0x22, 0x27, 0x60, 0x5c, 0x2a, 0x2f, 0x23, 0x28, 0x5b, 0x7b, 0x29, 0x5d, 0x7d]

theorem Inert.not_special {byte : UInt8} (h : Inert byte) : byte ∉ specialBytes := by
  intro hmem
  have hall : ∀ special ∈ specialBytes, ¬ Inert special := by decide +kernel
  exact hall byte hmem h

theorem StringDelimiter.bytes_special (delimiter : StringDelimiter) :
    ∀ byte ∈ delimiter.bytes, byte ∈ specialBytes := by
  cases delimiter <;> decide +kernel

/-- A list of special bytes does not start among inert ones. -/
theorem isPrefixOf_append_inert {pattern tail : List UInt8} (bytes : List UInt8)
    (hpattern : ∀ byte ∈ pattern, byte ∈ specialBytes) (htail : ∀ byte ∈ tail, Inert byte) :
    pattern.isPrefixOf (bytes ++ tail) = pattern.isPrefixOf bytes := by
  induction pattern generalizing bytes with
  | nil => simp
  | cons first pattern ih =>
    obtain ⟨hfirst, hpattern⟩ := List.forall_mem_cons.mp hpattern
    cases bytes with
    | nil =>
      cases tail with
      | nil => rfl
      | cons byte tail =>
        have hne : first ≠ byte := by
          rintro rfl
          exact (htail first List.mem_cons_self).not_special hfirst
        simp [List.isPrefixOf, hne]
    | cons byte bytes => simp [List.isPrefixOf, ih bytes hpattern]

theorem findPair_cons (pair : UInt8 × UInt8) (byte : UInt8) (rest : List UInt8) :
    findPair pair (byte :: rest) =
      if [pair.1, pair.2].isPrefixOf (byte :: rest) then some 0
      else (findPair pair rest).map (· + 1) := by
  obtain ⟨first, second⟩ := pair
  cases rest with
  | nil => simp [findPair, List.isPrefixOf]
  | cons next rest =>
    have hpair : ((byte, next) == (first, second)) = [first, second].isPrefixOf (byte :: next :: rest) := by
      rw [Bool.eq_iff_iff, List.isPrefixOf_iff_prefix, beq_iff_eq, Prod.mk.injEq,
        List.cons_prefix_cons, List.cons_prefix_cons, eq_comm, eq_comm (a := next)]
      simp
    rw [findPair, List.tail_cons, List.zip_cons_cons, List.findIdx?_cons, hpair]
    rfl

theorem findPair_append_inert (bytes : List UInt8) {tail : List UInt8}
    (htail : ∀ byte ∈ tail, Inert byte) :
    findPair (0x2a, 0x2f) (bytes ++ tail) = findPair (0x2a, 0x2f) bytes := by
  have hpair : ∀ byte ∈ ([0x2a, 0x2f] : List UInt8), byte ∈ specialBytes := by
    simp [specialBytes]
  induction bytes with
  | nil =>
    induction tail with
    | nil => rfl
    | cons byte tail ih =>
      have hnone := ih (List.forall_mem_cons.mp htail).2
      have hstart := isPrefixOf_append_inert [] hpair htail
      rw [List.nil_append] at hnone hstart ⊢
      rw [findPair_cons, hstart, hnone]
      rfl
  | cons byte bytes ih =>
    have hstart := isPrefixOf_append_inert (byte :: bytes) hpair htail
    rw [List.cons_append] at hstart ⊢
    rw [findPair_cons, findPair_cons, hstart, ih]

section

variable (comments : LineComments) {brackets : OpenBrackets}

theorem isPrefixOf_of_not_special {pattern : List UInt8} {byte : UInt8} (rest : List UInt8)
    (hpattern : ∀ byte ∈ pattern, byte ∈ specialBytes) (hne : pattern ≠ [])
    (h : byte ∉ specialBytes) : pattern.isPrefixOf (byte :: rest) = false := by
  obtain ⟨first, more, rfl⟩ := List.exists_cons_of_ne_nil hne
  rw [Bool.eq_false_iff]
  intro hprefix
  rw [List.isPrefixOf_iff_prefix, List.cons_prefix_cons] at hprefix
  obtain ⟨rfl, -⟩ := hprefix
  exact h (hpattern _ List.mem_cons_self)

theorem StringDelimiter.bytes_ne_nil (delimiter : StringDelimiter) : delimiter.bytes ≠ [] := by
  cases delimiter <;> exact List.cons_ne_nil _ _

theorem find?_of_not_special {byte : UInt8} (rest : List UInt8) (h : byte ∉ specialBytes) :
    stringDelimiters.find? (fun delimiter => delimiter.bytes.isPrefixOf (byte :: rest)) = none := by
  rw [List.find?_eq_none]
  intro delimiter _
  rw [isPrefixOf_of_not_special rest delimiter.bytes_special delimiter.bytes_ne_nil h]
  exact Bool.false_ne_true

/-- A comment in terms of what stands before and after its first byte. -/
theorem startsAt_eq (before rest : List UInt8) (byte : UInt8) :
    comments.startsAt (before ++ byte :: rest) before.length =
      match comments with
      | .hash => byte == 0x23
      | .mixed =>
        [0x2f, 0x2f].isPrefixOf (byte :: rest) ||
          byte == 0x23 && before.getLast?.all isAsciiWhitespace &&
            rest.head?.all isAsciiWhitespace := by
  have hnext : (before ++ byte :: rest)[before.length + 1]? = rest.head? := by
    rw [List.getElem?_append_right (Nat.le_succ _), List.head?_eq_getElem?]
    simp
  cases comments with
  | hash => simp [LineComments.startsAt]
  | mixed =>
    simp only [LineComments.startsAt, hnext]
    rcases List.eq_nil_or_concat before with rfl | ⟨init, last, rfl⟩
    · simp
    · simp

/-- No comment starts with a byte that is neither `#` nor `/`. -/
theorem startsAt_eq_false {before rest : List UInt8} {byte : UInt8} (hhash : byte ≠ 0x23)
    (hslash : byte ≠ 0x2f) :
    comments.startsAt (before ++ byte :: rest) before.length = false := by
  rw [startsAt_eq]
  cases comments with
  | hash => simp [hhash]
  | mixed => simp [hhash, hslash.symm, List.isPrefixOf]

/-- A byte that means nothing is skipped, outside block comments. -/
theorem closeFrom_skip (before rest : List UInt8) {byte : UInt8} (hbyte : byte ∉ specialBytes)
    (hblock : brackets.string = none → brackets.blockComment = false) :
    closeFrom comments (before ++ byte :: rest) brackets before.length =
      closeFrom comments (before ++ byte :: rest) brackets (before.length + 1) := by
  have hne : ∀ special ∈ specialBytes, byte ≠ special := by
    rintro special hspecial rfl
    exact hbyte hspecial
  have hopening : ∀ special ∈ ([0x28, 0x5b, 0x7b] : List UInt8), special ∈ specialBytes := by
    simp [specialBytes]
  have hclosing : ∀ special ∈ ([0x29, 0x5d, 0x7d] : List UInt8), special ∈ specialBytes := by
    simp [specialBytes]
  cases hstring : brackets.string with
  | some delimiter =>
    rw [closeFrom_string comments hstring, if_neg (hne _ (by simp [specialBytes])),
      isPrefixOf_of_not_special rest delimiter.bytes_special delimiter.bytes_ne_nil hbyte,
      if_neg Bool.false_ne_true]
  | none =>
    have hcomment : [0x2f, 0x2a].isPrefixOf (byte :: rest) = false :=
      isPrefixOf_of_not_special rest (by simp [specialBytes]) (List.cons_ne_nil _ _) hbyte
    rw [closeFrom_code comments hstring (hblock hstring), find?_of_not_special rest hbyte]
    simp only
    rw [hcomment, startsAt_eq_false comments (hne _ (by simp [specialBytes]))
      (hne _ (by simp [specialBytes])), if_neg Bool.false_ne_true, if_neg Bool.false_ne_true,
      if_neg fun hmem => hbyte (hopening byte hmem),
      if_neg fun hmem => hbyte (hclosing byte hmem)]

/-- Inert bytes end a scan. -/
theorem closeFrom_inert (before : List UInt8) {tail : List UInt8} {offset : Nat}
    (htail : ∀ byte ∈ tail, Inert byte) (hoffset : before.length ≤ offset) :
    closeFrom comments (before ++ tail) brackets offset = .error brackets.atLineEnd := by
  induction hrest : (before ++ tail).length - offset generalizing before tail offset with
  | zero => exact closeFrom_end comments (by omega)
  | succ n ih =>
    have hsplit : tail = tail.take (offset - before.length) ++
      tail.drop (offset - before.length) := (List.take_append_drop _ _).symm
    rw [List.length_append] at hrest
    obtain ⟨byte, rest, hdrop⟩ : ∃ byte rest, tail.drop (offset - before.length) = byte :: rest := by
      refine List.exists_cons_of_ne_nil fun hnil => ?_
      have hlength := congrArg List.length hnil
      simp only [List.length_drop, List.length_nil] at hlength
      omega
    have hlength : (before ++ tail.take (offset - before.length)).length = offset := by
      rw [List.length_append, List.length_take]
      omega
    rw [hdrop] at hsplit
    generalize tail.take (offset - before.length) = first at hsplit hlength
    subst hsplit
    obtain ⟨-, hbytes⟩ := List.forall_mem_append.mp htail
    obtain ⟨hbyte, hinert⟩ := List.forall_mem_cons.mp hbytes
    have hnext := @ih (before ++ first ++ [byte]) rest (offset + 1) hinert (by
      rw [List.length_append, hlength, List.length_singleton]) (by
      simp only [List.length_append, List.length_cons, List.length_nil] at hrest hlength ⊢
      omega)
    have hassoc : before ++ first ++ [byte] ++ rest = before ++ first ++ byte :: rest := by simp
    rw [hassoc] at hnext
    rw [← List.append_assoc, ← hlength]
    by_cases hmode : brackets.string = none → brackets.blockComment = false
    · rw [closeFrom_skip comments (before ++ first) rest hbyte.not_special hmode, hlength, hnext]
    · rw [Classical.not_imp, Bool.not_eq_false] at hmode
      have hnone := findPair_append_inert [] hbytes
      rw [List.nil_append] at hnone
      rw [closeFrom_block comments hmode.1 hmode.2, hnone]
      rfl

/-- A list is split at a place before its end. -/
theorem exists_split_at {bytes : List UInt8} {offset : Nat} (h : offset < bytes.length) :
    ∃ before byte rest, bytes = before ++ byte :: rest ∧ before.length = offset := by
  refine ⟨bytes.take offset, bytes[offset], bytes.drop (offset + 1), ?_, ?_⟩
  · rw [← List.drop_eq_getElem_cons h, List.take_append_drop]
  · rw [List.length_take]
    omega

/-- Only a `#` at the end of a line starts a comment there that it might not start before blanks. -/
theorem startsAt_append (before rest : List UInt8) (byte : UInt8) {tail : List UInt8}
    (htail : ∀ byte ∈ tail, Inert byte) :
    comments.startsAt (before ++ byte :: (rest ++ tail)) before.length =
        comments.startsAt (before ++ byte :: rest) before.length ∨
      byte = 0x23 ∧ rest = [] := by
  have hspecial : ∀ byte ∈ ([0x2f, 0x2f] : List UInt8), byte ∈ specialBytes := by
    simp [specialBytes]
  have hslashes := isPrefixOf_append_inert (byte :: rest) hspecial htail
  rw [List.cons_append] at hslashes
  rw [startsAt_eq, startsAt_eq]
  cases comments with
  | hash => exact .inl rfl
  | mixed =>
    simp only [hslashes]
    cases rest with
    | cons next rest => exact .inl rfl
    | nil =>
      by_cases hbyte : byte = 0x23
      · exact .inr ⟨hbyte, rfl⟩
      · exact .inl (by rw [beq_eq_false_iff_ne.mpr hbyte]; rfl)

/-- Inert bytes at the end change nothing. -/
theorem closeFrom_append (bytes : List UInt8) {tail : List UInt8} (offset : Nat)
    (htail : ∀ byte ∈ tail, Inert byte) :
    closeFrom comments (bytes ++ tail) brackets offset =
      closeFrom comments bytes brackets offset := by
  induction hrest : bytes.length - offset using Nat.strong_induction_on
    generalizing brackets offset with
  | _ n ih =>
    by_cases hoffset : offset < bytes.length
    · obtain ⟨before, byte, rest, rfl, rfl⟩ := exists_split_at hoffset
      have hlater : ∀ (later : OpenBrackets) (step : Nat), 0 < step →
          closeFrom comments (before ++ byte :: (rest ++ tail)) later (before.length + step) =
            closeFrom comments (before ++ byte :: rest) later (before.length + step) := by
        intro later step hstep
        have hnext := @ih ((before ++ byte :: rest).length - (before.length + step))
          (by omega) later (before.length + step) rfl
        rwa [List.append_assoc, List.cons_append] at hnext
      have hprefix : ∀ pattern : List UInt8, (∀ b ∈ pattern, b ∈ specialBytes) →
          pattern.isPrefixOf (byte :: (rest ++ tail)) = pattern.isPrefixOf (byte :: rest) :=
        fun pattern hpattern => isPrefixOf_append_inert (byte :: rest) hpattern htail
      have hlength : ∀ delimiter : StringDelimiter, 0 < delimiter.bytes.length :=
        fun delimiter => List.length_pos_of_ne_nil delimiter.bytes_ne_nil
      rw [List.append_assoc, List.cons_append]
      cases hstring : brackets.string with
      | some delimiter =>
        rw [closeFrom_string comments hstring, closeFrom_string comments hstring,
          hprefix _ delimiter.bytes_special, hlater brackets 2 (by decide),
          hlater brackets 1 (by decide), hlater _ _ (hlength delimiter)]
      | none =>
        cases hblock : brackets.blockComment with
        | true =>
          rw [closeFrom_block comments hstring hblock, closeFrom_block comments hstring hblock]
          have hpair := findPair_append_inert (byte :: rest) htail
          rw [List.cons_append] at hpair
          rw [hpair]
          split
          · rfl
          · next stop _ => exact hlater _ (stop + 2) (Nat.succ_pos _)
        | false =>
          have hdelimiters : stringDelimiters.find?
                (fun delimiter => delimiter.bytes.isPrefixOf (byte :: (rest ++ tail))) =
              stringDelimiters.find? fun delimiter => delimiter.bytes.isPrefixOf (byte :: rest) := by
            congr 1
            funext delimiter
            exact hprefix _ delimiter.bytes_special
          rw [closeFrom_code comments hstring hblock, closeFrom_code comments hstring hblock,
            hdelimiters, hprefix _ (by simp [specialBytes])]
          split
          · next delimiter _ => exact hlater _ _ (hlength delimiter)
          · rw [hlater { brackets with blockComment := true } 2 (by decide),
              hlater { brackets with depth := brackets.depth + 1 } 1 (by decide),
              hlater { brackets with depth := brackets.depth - 1 } 1 (by decide),
              hlater brackets 1 (by decide)]
            rcases startsAt_append comments before rest byte htail with hstart | ⟨rfl, rfl⟩
            · rw [hstart]
            · have hend : closeFrom comments (before ++ [0x23]) brackets (before.length + 1) =
                  .error brackets.atLineEnd := closeFrom_end comments (by simp)
              simp [hend]
    · rw [closeFrom_inert comments bytes htail (Nat.not_lt.mp hoffset),
        closeFrom_end comments (Nat.not_lt.mp hoffset)]

end

/-! ## Characters -/

/-- The characters that mean something to the scan. -/
def specialChars : Str :=
  ['"', '\x27', '`', '\\', '*', '/', '#', '(', '[', '{', ')', ']', '}']

theorem bytes_specialChars : Str.bytes specialChars = specialBytes := rfl

theorem ascii_of_special {c : Char} (h : c ∈ specialChars) : c.toNat ≤ 0x7f := by
  have hall : specialChars.all (fun c => decide (c.toNat ≤ 0x7f)) = true := rfl
  exact of_decide_eq_true (List.all_eq_true.mp hall c h)

theorem StringDelimiter.chars_special (delimiter : StringDelimiter) :
    ∀ c ∈ delimiter.chars, c ∈ specialChars := by
  cases delimiter <;> simp [StringDelimiter.chars, specialChars]

/-- The bytes of a character that is not special are not special. -/
theorem not_special_of_mem {c : Char} {byte : UInt8} (hc : c ∉ specialChars)
    (hbyte : byte ∈ String.utf8EncodeChar c) : byte ∉ specialBytes := by
  intro hspecial
  have hascii : byte < 0x80 := by
    have hall : ∀ special ∈ specialBytes, special < 0x80 := by decide +kernel
    exact hall byte hspecial
  apply hc
  rw [eq_of_mem_utf8EncodeChar hbyte hascii]
  have hall : ∀ special ∈ specialBytes, Char.ofNat special.toNat ∈ specialChars := by
    decide +kernel
  exact hall byte hspecial

/-- Of texts that start with ASCII characters, bytes say what characters say. -/
theorem isPrefixOf_bytes (pattern : Str) (hpattern : ∀ c ∈ pattern, c ∈ specialChars) (text : Str) :
    (Str.bytes pattern).isPrefixOf (Str.bytes text) = pattern.isPrefixOf text := by
  induction pattern generalizing text with
  | nil => simp [Str.bytes]
  | cons first pattern ih =>
    obtain ⟨hfirst, hpattern⟩ := List.forall_mem_cons.mp hpattern
    have hascii := ascii_of_special hfirst
    cases text with
    | nil =>
      rw [bytes_cons, utf8EncodeChar_of_ascii hascii]
      rfl
    | cons c text =>
      rw [bytes_cons, bytes_cons, utf8EncodeChar_of_ascii hascii, List.singleton_append]
      by_cases heq : first = c
      · subst heq
        rw [utf8EncodeChar_of_ascii hascii, List.singleton_append]
        simp [List.isPrefixOf, ih hpattern]
      · have hne : (first :: pattern).isPrefixOf (c :: text) = false := by
          simp [List.isPrefixOf, heq]
        rw [hne, Bool.eq_false_iff]
        intro hprefix
        obtain ⟨byte, more, hbytes⟩ :=
          List.exists_cons_of_ne_nil (String.utf8EncodeChar_ne_nil (c := c))
        rw [hbytes, List.isPrefixOf_iff_prefix, List.cons_append, List.cons_prefix_cons] at hprefix
        obtain ⟨hbyte, -⟩ := hprefix
        have hmem : UInt8.ofNat first.toNat ∈ String.utf8EncodeChar c := by
          rw [hbytes, hbyte]
          exact List.mem_cons_self
        have hself : UInt8.ofNat first.toNat ∈ String.utf8EncodeChar first := by
          rw [utf8EncodeChar_of_ascii hascii]
          exact List.mem_cons_self
        have hlow : UInt8.ofNat first.toNat < 0x80 := by
          rw [UInt8.lt_iff_toNat_lt, UInt8.toNat_ofNat', Nat.mod_eq_of_lt (by omega)]
          exact Nat.lt_succ_of_le hascii
        exact heq ((eq_of_mem_utf8EncodeChar hself hlow).trans
          (eq_of_mem_utf8EncodeChar hmem hlow).symm)

/-! ## One character -/

/-- A scan from a place of a text on. -/
def scan (comments : LineComments) (brackets : OpenBrackets) (before rest : Str) :
    Except OpenBrackets Nat :=
  closeFrom comments (Str.bytes (before ++ rest)) brackets (Str.len before)

section

variable (comments : LineComments) {brackets : OpenBrackets} (before : Str)

theorem scan_nil : scan comments brackets before [] = .error brackets.atLineEnd :=
  closeFrom_end comments (by rw [length_bytes, List.append_nil])

/-- Bytes that mean nothing are skipped, outside block comments. -/
theorem closeFrom_skips (first rest : List UInt8) {middle : List UInt8}
    (hmiddle : ∀ byte ∈ middle, byte ∉ specialBytes)
    (hblock : brackets.string = none → brackets.blockComment = false) :
    closeFrom comments (first ++ middle ++ rest) brackets first.length =
      closeFrom comments (first ++ middle ++ rest) brackets (first.length + middle.length) := by
  induction middle generalizing first with
  | nil => rfl
  | cons byte middle ih =>
    obtain ⟨hbyte, hmiddle⟩ := List.forall_mem_cons.mp hmiddle
    have hstep := closeFrom_skip comments first (middle ++ rest) hbyte hblock
    have hnext := ih (first ++ [byte]) hmiddle
    have hassoc : first ++ [byte] ++ middle ++ rest = first ++ byte :: (middle ++ rest) := by simp
    rw [hassoc, List.length_append, List.length_singleton] at hnext
    rw [List.append_assoc, List.cons_append, hstep, hnext, List.length_cons]
    congr 1
    omega

/-- A character that means nothing is skipped, outside block comments. -/
theorem scan_skip (rest : Str) {c : Char} (hc : c ∉ specialChars)
    (hblock : brackets.string = none → brackets.blockComment = false) :
    scan comments brackets before (c :: rest) = scan comments brackets (before ++ [c]) rest := by
  have hskip := closeFrom_skips comments (Str.bytes before) (Str.bytes rest)
    (fun byte hbyte => not_special_of_mem hc hbyte) hblock
  rw [length_bytes, String.length_utf8EncodeChar, List.append_assoc, ← bytes_cons,
    ← bytes_append] at hskip
  rw [scan, scan, hskip]
  simp

/-! ### In a string -/

theorem byte_injective {c d : Char} (hc : c.toNat ≤ 0x7f) (hd : d.toNat ≤ 0x7f)
    (h : UInt8.ofNat c.toNat = UInt8.ofNat d.toNat) : c = d := by
  have hnat := congrArg UInt8.toNat h
  rw [UInt8.toNat_ofNat', UInt8.toNat_ofNat', Nat.mod_eq_of_lt (by omega),
    Nat.mod_eq_of_lt (by omega)] at hnat
  rw [← Char.ofNat_toNat c, hnat, Char.ofNat_toNat]

theorem bytes_cons_of_ascii {c : Char} (hc : c.toNat ≤ 0x7f) (rest : Str) :
    Str.bytes (before ++ c :: rest) =
      Str.bytes before ++ UInt8.ofNat c.toNat :: Str.bytes rest := by
  rw [bytes_append, bytes_cons, utf8EncodeChar_of_ascii hc, List.singleton_append]

theorem len_of_ascii {c : Char} (hc : c.toNat ≤ 0x7f) :
    Str.len (before ++ [c]) = (Str.bytes before).length + 1 := by
  rw [← length_bytes, bytes_append, bytes_singleton, utf8EncodeChar_of_ascii hc,
    List.length_append, List.length_singleton]

theorem isPrefixOf_delimiter (delimiter : StringDelimiter) {c : Char} (hc : c.toNat ≤ 0x7f)
    (rest : Str) :
    delimiter.bytes.isPrefixOf (UInt8.ofNat c.toNat :: Str.bytes rest) =
      delimiter.chars.isPrefixOf (c :: rest) := by
  rw [← isPrefixOf_bytes _ delimiter.chars_special, bytes_cons, utf8EncodeChar_of_ascii hc]
  rfl

theorem scan_string_skip {delimiter : StringDelimiter} (hstring : brackets.string = some delimiter)
    {c : Char} {rest : Str} (hc : c ≠ '\\') (hopen : delimiter.chars.isPrefixOf (c :: rest) = false) :
    scan comments brackets before (c :: rest) = scan comments brackets (before ++ [c]) rest := by
  by_cases hspecial : c ∈ specialChars
  · have hascii := ascii_of_special hspecial
    have hbyte : UInt8.ofNat c.toNat ≠ 0x5c := fun heq => hc (byte_injective hascii (by decide) heq)
    rw [scan, scan, bytes_cons_of_ascii before hascii, ← length_bytes,
      closeFrom_string comments hstring, if_neg hbyte, isPrefixOf_delimiter delimiter hascii, hopen,
      if_neg Bool.false_ne_true, len_of_ascii before hascii, List.append_assoc,
      List.singleton_append, bytes_cons_of_ascii before hascii]
  · exact scan_skip comments before rest hspecial (by simp [hstring])

theorem scan_string_escape {delimiter : StringDelimiter}
    (hstring : brackets.string = some delimiter) (c : Char) (rest : Str) :
    scan comments brackets before ('\\' :: c :: rest) =
      scan comments brackets (before ++ ['\\', c]) rest := by
  obtain ⟨byte, more, hbytes⟩ := List.exists_cons_of_ne_nil (String.utf8EncodeChar_ne_nil (c := c))
  -- The second byte of the escape is in front of the rest of its character.
  have hmore : ∀ b ∈ more, b ∉ specialBytes := by
    intro b hb
    by_cases hspecial : c ∈ specialChars
    · rw [utf8EncodeChar_of_ascii (ascii_of_special hspecial)] at hbytes
      rw [← (List.cons.inj hbytes).2] at hb
      cases hb
    · exact not_special_of_mem hspecial (by rw [hbytes]; exact List.mem_cons_of_mem _ hb)
  have hmode : brackets.string = none → brackets.blockComment = false := by simp [hstring]
  have hskip := closeFrom_skips comments (Str.bytes before ++ [0x5c, byte]) (Str.bytes rest) hmore
    hmode
  have hsplit : Str.bytes (before ++ '\\' :: c :: rest) =
      Str.bytes before ++ 0x5c :: (byte :: more ++ Str.bytes rest) := by
    rw [bytes_cons_of_ascii before (by decide), bytes_cons, hbytes]
    rfl
  have hwhole : Str.bytes (before ++ ['\\', c] ++ rest) =
      Str.bytes before ++ 0x5c :: (byte :: more ++ Str.bytes rest) := by
    rw [← hsplit, List.append_assoc]
    rfl
  have hassoc : Str.bytes before ++ [0x5c, byte] ++ more ++ Str.bytes rest =
      Str.bytes before ++ 0x5c :: (byte :: more ++ Str.bytes rest) := by
    simp
  have hlength : Str.len (before ++ ['\\', c]) =
      (Str.bytes before ++ [0x5c, byte]).length + more.length := by
    rw [← length_bytes, bytes_append, bytes_cons, bytes_singleton, hbytes]
    rw [utf8EncodeChar_of_ascii (by decide)]
    simp only [List.length_append, List.length_cons, List.length_nil]
    omega
  rw [hassoc] at hskip
  rw [scan, scan, hsplit, hwhole, hlength, ← hskip, ← length_bytes,
    closeFrom_string comments hstring, if_pos rfl]
  simp

theorem scan_string_escape_end {delimiter : StringDelimiter}
    (hstring : brackets.string = some delimiter) :
    scan comments brackets before ['\\'] = .error brackets.atLineEnd := by
  rw [scan, bytes_cons_of_ascii before (by decide), ← length_bytes,
    closeFrom_string comments hstring, if_pos (by decide)]
  exact closeFrom_end comments (by simp [Str.bytes])

theorem scan_string_close {delimiter : StringDelimiter}
    (hstring : brackets.string = some delimiter) (rest : Str) :
    scan comments brackets before (delimiter.chars ++ rest) =
      scan comments { brackets with string := none } (before ++ delimiter.chars) rest := by
  obtain ⟨c, more, hchars⟩ : ∃ c more, delimiter.chars = c :: more := by
    cases delimiter <;> exact ⟨_, _, rfl⟩
  have hspecial := delimiter.chars_special c (by rw [hchars]; exact List.mem_cons_self)
  have hascii := ascii_of_special hspecial
  have hbyte : UInt8.ofNat c.toNat ≠ 0x5c := by
    cases delimiter <;> obtain ⟨rfl, rfl⟩ := List.cons.inj hchars <;> decide
  have hopen : delimiter.chars.isPrefixOf (c :: (more ++ rest)) = true := by
    rw [List.isPrefixOf_iff_prefix, hchars]
    exact List.prefix_append _ _
  have hlength : Str.len (before ++ delimiter.chars) =
      (Str.bytes before).length + delimiter.bytes.length := by
    rw [len_append, length_bytes, StringDelimiter.bytes, length_bytes]
  rw [scan, scan, hlength, List.append_assoc, hchars, List.cons_append,
    bytes_cons_of_ascii before hascii, ← length_bytes, closeFrom_string comments hstring,
    if_neg hbyte, isPrefixOf_delimiter delimiter hascii, if_pos hopen]

/-! ### In a block comment -/

theorem findPair_skips {middle : List UInt8} (rest : List UInt8)
    (hmiddle : ∀ byte ∈ middle, byte ∉ specialBytes) :
    findPair (0x2a, 0x2f) (middle ++ rest) =
      (findPair (0x2a, 0x2f) rest).map (· + middle.length) := by
  induction middle with
  | nil => simp
  | cons byte middle ih =>
    obtain ⟨hbyte, hmiddle⟩ := List.forall_mem_cons.mp hmiddle
    have hopen : [0x2a, 0x2f].isPrefixOf (byte :: (middle ++ rest)) = false :=
      isPrefixOf_of_not_special _ (by simp [specialBytes]) (List.cons_ne_nil _ _) hbyte
    rw [List.cons_append, findPair_cons, hopen, if_neg Bool.false_ne_true, ih hmiddle,
      Option.map_map]
    rfl

theorem scan_block (hstring : brackets.string = none) (hblock : brackets.blockComment = true)
    (rest : Str) :
    scan comments brackets before rest =
      match findPair (0x2a, 0x2f) (Str.bytes rest) with
      | none => .error brackets.atLineEnd
      | some stop =>
        closeFrom comments (Str.bytes (before ++ rest)) { brackets with blockComment := false }
          (Str.len before + stop + 2) := by
  cases hrest : Str.bytes rest with
  | nil =>
    rw [scan, closeFrom_end comments]
    · rfl
    · rw [bytes_append, hrest, List.append_nil, length_bytes]
  | cons byte more =>
    rw [scan, bytes_append, hrest, ← length_bytes, closeFrom_block comments hstring hblock]

theorem scan_block_skip (hstring : brackets.string = none) (hblock : brackets.blockComment = true)
    {c : Char} {rest : Str} (hopen : ['*', '/'].isPrefixOf (c :: rest) = false) :
    scan comments brackets before (c :: rest) = scan comments brackets (before ++ [c]) rest := by
  have hpair : findPair (0x2a, 0x2f) (Str.bytes (c :: rest)) =
      (findPair (0x2a, 0x2f) (Str.bytes rest)).map (· + c.utf8Size) := by
    by_cases hspecial : c ∈ specialChars
    · have hascii := ascii_of_special hspecial
      have hbytes := isPrefixOf_bytes ['*', '/'] (by simp [specialChars]) (c :: rest)
      have hcons : Str.bytes (c :: rest) = UInt8.ofNat c.toNat :: Str.bytes rest :=
        bytes_cons_of_ascii [] hascii rest
      have hsize : c.utf8Size = 1 := by
        rw [← String.length_utf8EncodeChar, utf8EncodeChar_of_ascii hascii, List.length_singleton]
      rw [hopen, hcons] at hbytes
      rw [hcons, findPair_cons, hsize, if_neg]
      rw [show [(0x2a : UInt8), 0x2f] = Str.bytes ['*', '/'] from rfl, hbytes]
      exact Bool.false_ne_true
    · rw [bytes_cons, findPair_skips _ fun byte => not_special_of_mem hspecial,
        String.length_utf8EncodeChar]
  rw [scan_block comments before hstring hblock, scan_block comments _ hstring hblock, hpair,
    List.append_assoc, List.singleton_append]
  cases findPair (0x2a, 0x2f) (Str.bytes rest) with
  | none => rfl
  | some stop =>
    simp only [Option.map_some, len_append, len_cons, len_nil]
    congr 1
    omega

theorem scan_block_close (hstring : brackets.string = none) (hblock : brackets.blockComment = true)
    (rest : Str) :
    scan comments brackets before ('*' :: '/' :: rest) =
      scan comments { brackets with blockComment := false } (before ++ ['*', '/']) rest := by
  have hpair : findPair (0x2a, 0x2f) (Str.bytes ('*' :: '/' :: rest)) = some 0 := by
    rw [bytes_cons, bytes_cons, utf8EncodeChar_of_ascii (by decide),
      utf8EncodeChar_of_ascii (by decide), List.singleton_append, List.singleton_append,
      findPair_cons, if_pos]
    rw [List.isPrefixOf_iff_prefix]
    exact ⟨Str.bytes rest, rfl⟩
  rw [scan_block comments before hstring hblock, hpair, scan, len_append, List.append_assoc]
  rfl

/-! ### In code -/

/-- `u8::is_ascii_whitespace` on characters. -/
def isAsciiBlank (c : Char) : Bool := [' ', '\t', '\n', '\x0c', '\r'].contains c

/-- Whether a text starts with a line comment, behind what stands before it in its line. -/
def LineComments.opens (comments : LineComments) (before rest : Str) : Bool :=
  match comments with
  | hash => ['#'].isPrefixOf rest
  | mixed =>
    ['/', '/'].isPrefixOf rest ||
      ['#'].isPrefixOf rest && before.getLast?.all isAsciiBlank && rest.tail.head?.all isAsciiBlank

theorem isAsciiWhitespace_of_mem {c : Char} {byte : UInt8}
    (h : byte ∈ String.utf8EncodeChar c) : isAsciiWhitespace byte = isAsciiBlank c := by
  by_cases hc : c.toNat ≤ 0x7f
  · rw [utf8EncodeChar_of_ascii hc, List.mem_singleton] at h
    rw [h]
    exact forall_ascii (p := fun c => isAsciiWhitespace (UInt8.ofNat c.toNat) = isAsciiBlank c)
      (by decide +kernel) hc
  · have hbyte := not_ascii_of_mem_utf8EncodeChar hc byte h
    have hblank : isAsciiBlank c = false := by
      rw [Bool.eq_false_iff]
      intro hmem
      simp only [isAsciiBlank, List.contains_iff_mem, List.mem_cons, List.not_mem_nil,
        or_false] at hmem
      rcases hmem with rfl | rfl | rfl | rfl | rfl <;> exact hc (by decide)
    rw [hblank, Bool.eq_false_iff]
    intro hspace
    simp only [isAsciiWhitespace, Bool.or_eq_true, beq_iff_eq] at hspace
    rcases hspace with (((rfl | rfl) | rfl) | rfl) | rfl <;> exact hbyte (by decide)

theorem head?_bytes (text : Str) :
    (Str.bytes text).head?.all isAsciiWhitespace = text.head?.all isAsciiBlank := by
  cases text with
  | nil => rfl
  | cons c text =>
    obtain ⟨byte, more, hbytes⟩ :=
      List.exists_cons_of_ne_nil (String.utf8EncodeChar_ne_nil (c := c))
    rw [bytes_cons, hbytes]
    exact isAsciiWhitespace_of_mem (by rw [hbytes]; exact List.mem_cons_self)

theorem getLast?_bytes (text : Str) :
    (Str.bytes text).getLast?.all isAsciiWhitespace = text.getLast?.all isAsciiBlank := by
  rcases List.eq_nil_or_concat text with rfl | ⟨init, c, rfl⟩
  · rfl
  · rcases List.eq_nil_or_concat (String.utf8EncodeChar c) with hnil | ⟨front, byte, hbytes⟩
    · exact absurd hnil String.utf8EncodeChar_ne_nil
    · rw [List.concat_eq_append] at hbytes
      rw [List.concat_eq_append, bytes_append, bytes_singleton, hbytes, ← List.append_assoc,
        List.getLast?_concat, List.getLast?_concat]
      exact isAsciiWhitespace_of_mem (by rw [hbytes]; simp)

theorem startsAt_bytes {c : Char} (hc : c.toNat ≤ 0x7f) (rest : Str) :
    comments.startsAt (Str.bytes before ++ UInt8.ofNat c.toNat :: Str.bytes rest)
      (Str.bytes before).length = comments.opens before (c :: rest) := by
  have hcons : UInt8.ofNat c.toNat :: Str.bytes rest = Str.bytes (c :: rest) :=
    (bytes_cons_of_ascii [] hc rest).symm
  have hslashes : [0x2f, 0x2f].isPrefixOf (Str.bytes (c :: rest)) =
      ['/', '/'].isPrefixOf (c :: rest) :=
    isPrefixOf_bytes ['/', '/'] (by simp [specialChars]) _
  have hhash : (UInt8.ofNat c.toNat == 0x23) = ['#'].isPrefixOf (c :: rest) := by
    rw [← isPrefixOf_bytes _ (by simp [specialChars]), ← hcons, Bool.eq_iff_iff, beq_iff_eq,
      List.isPrefixOf_iff_prefix, bytes_singleton, utf8EncodeChar_of_ascii (by decide),
      List.cons_prefix_cons, eq_comm]
    simp
  rw [startsAt_eq]
  cases comments with
  | hash => exact hhash
  | mixed =>
    simp only [LineComments.opens, hcons, hslashes, hhash, head?_bytes, getLast?_bytes]
    rfl

/-- A character is one of a list if its byte is. -/
theorem mem_bytes {c : Char} (hc : c.toNat ≤ 0x7f) (chars : Str)
    (hchars : ∀ d ∈ chars, d.toNat ≤ 0x7f) :
    UInt8.ofNat c.toNat ∈ chars.map (fun d => UInt8.ofNat d.toNat) ↔ c ∈ chars := by
  rw [List.mem_map]
  constructor
  · rintro ⟨d, hd, heq⟩
    rwa [byte_injective (hchars d hd) hc heq] at hd
  · exact fun h => ⟨c, h, rfl⟩

def openingChars : Str := ['(', '[', '{']

def closingChars : Str := [')', ']', '}']

theorem scan_code (hstring : brackets.string = none) (hblock : brackets.blockComment = false)
    {c : Char} (hc : c.toNat ≤ 0x7f) (rest : Str) :
    scan comments brackets before (c :: rest) =
      match stringDelimiters.find? fun delimiter => delimiter.chars.isPrefixOf (c :: rest) with
      | some delimiter =>
        closeFrom comments (Str.bytes (before ++ c :: rest))
          { brackets with string := some delimiter } (Str.len before + delimiter.bytes.length)
      | none =>
        if ['/', '*'].isPrefixOf (c :: rest) then
          closeFrom comments (Str.bytes (before ++ c :: rest))
            { brackets with blockComment := true } (Str.len before + 2)
        else if comments.opens before (c :: rest) then .error brackets.atLineEnd
        else if c ∈ openingChars then
          closeFrom comments (Str.bytes (before ++ c :: rest))
            { brackets with depth := brackets.depth + 1 } (Str.len before + 1)
        else if c ∈ closingChars then
          if brackets.depth - 1 = 0 then .ok (Str.len before + 1)
          else
            closeFrom comments (Str.bytes (before ++ c :: rest))
              { brackets with depth := brackets.depth - 1 } (Str.len before + 1)
        else closeFrom comments (Str.bytes (before ++ c :: rest)) brackets (Str.len before + 1) := by
  have hcomment : [0x2f, 0x2a].isPrefixOf (UInt8.ofNat c.toNat :: Str.bytes rest) =
      ['/', '*'].isPrefixOf (c :: rest) := by
    rw [← isPrefixOf_bytes _ (by simp [specialChars]) (c :: rest)]
    exact congrArg _ (bytes_cons_of_ascii [] hc rest).symm
  have hopening : UInt8.ofNat c.toNat ∈ ([0x28, 0x5b, 0x7b] : List UInt8) ↔ c ∈ openingChars :=
    mem_bytes hc openingChars (by simp [openingChars])
  have hclosing : UInt8.ofNat c.toNat ∈ ([0x29, 0x5d, 0x7d] : List UInt8) ↔ c ∈ closingChars :=
    mem_bytes hc closingChars (by simp [closingChars])
  rw [scan, bytes_cons_of_ascii before hc, ← length_bytes, closeFrom_code comments hstring hblock]
  simp only [isPrefixOf_delimiter _ hc, hcomment, startsAt_bytes comments before hc, hopening,
    hclosing]

def quoteChars : Str := ['"', '\x27', '`']

theorem find?_of_not_quote {c : Char} (hc : c ∉ quoteChars) (rest : Str) :
    stringDelimiters.find? (fun delimiter => delimiter.chars.isPrefixOf (c :: rest)) = none := by
  rw [List.find?_eq_none]
  intro delimiter _ hopen
  apply hc
  rw [List.isPrefixOf_iff_prefix] at hopen
  cases delimiter <;> obtain ⟨rfl, -⟩ := List.cons_prefix_cons.mp hopen <;> simp [quoteChars]

/-- A character that opens and closes nothing. -/
theorem scan_code_skip (hstring : brackets.string = none) (hblock : brackets.blockComment = false)
    {c : Char} {rest : Str} (hquote : c ∉ quoteChars) (hopening : c ∉ openingChars)
    (hclosing : c ∉ closingChars) (hblockComment : ['/', '*'].isPrefixOf (c :: rest) = false)
    (hcomment : comments.opens before (c :: rest) = false) :
    scan comments brackets before (c :: rest) = scan comments brackets (before ++ [c]) rest := by
  by_cases hspecial : c ∈ specialChars
  · have hascii := ascii_of_special hspecial
    rw [scan_code comments before hstring hblock hascii, find?_of_not_quote hquote]
    simp only [hblockComment, hcomment, Bool.false_eq_true, if_false, hopening, hclosing]
    rw [scan, len_of_ascii before hascii, length_bytes, List.append_assoc, List.singleton_append]
  · exact scan_skip comments before rest hspecial fun _ => hblock

theorem opens_of_bracket {c : Char} (rest : Str) (hc : c ∈ openingChars ∨ c ∈ closingChars) :
    ['/', '*'].isPrefixOf (c :: rest) = false ∧ comments.opens before (c :: rest) = false ∧
      c ∉ quoteChars ∧ c.toNat ≤ 0x7f := by
  have hcases : c ∈ openingChars ++ closingChars := List.mem_append.mpr hc
  simp only [openingChars, closingChars, List.cons_append, List.nil_append, List.mem_cons,
    List.not_mem_nil, or_false] at hcases
  rcases hcases with rfl | rfl | rfl | rfl | rfl | rfl <;> cases comments <;>
    simp [LineComments.opens, List.isPrefixOf, quoteChars]

theorem scan_open (hstring : brackets.string = none) (hblock : brackets.blockComment = false)
    {c : Char} (hc : c ∈ openingChars) (rest : Str) :
    scan comments brackets before (c :: rest) =
      scan comments { brackets with depth := brackets.depth + 1 } (before ++ [c]) rest := by
  obtain ⟨hblockComment, hcomment, hquote, hascii⟩ :=
    opens_of_bracket comments before rest (.inl hc)
  rw [scan_code comments before hstring hblock hascii, find?_of_not_quote hquote]
  simp only [hblockComment, hcomment, Bool.false_eq_true, if_false, if_pos hc]
  rw [scan, len_of_ascii before hascii, length_bytes, List.append_assoc, List.singleton_append]

theorem scan_close (brackets : OpenBrackets) (before : Str) (hstring : brackets.string = none)
    (hblock : brackets.blockComment = false)
    {c : Char} (hc : c ∈ closingChars) (rest : Str) :
    scan comments brackets before (c :: rest) =
      if brackets.depth - 1 = 0 then .ok (Str.len (before ++ [c]))
      else scan comments { brackets with depth := brackets.depth - 1 } (before ++ [c]) rest := by
  obtain ⟨hblockComment, hcomment, hquote, hascii⟩ :=
    opens_of_bracket comments before rest (.inr hc)
  have hopening : c ∉ openingChars := by
    intro hmem
    simp only [openingChars, closingChars, List.mem_cons, List.not_mem_nil, or_false] at hmem hc
    rcases hmem with rfl | rfl | rfl <;> simp at hc
  rw [scan_code comments before hstring hblock hascii, find?_of_not_quote hquote]
  simp only [hblockComment, hcomment, Bool.false_eq_true, if_false, if_neg hopening, if_pos hc]
  rw [scan, len_of_ascii before hascii, length_bytes, List.append_assoc, List.singleton_append]

theorem scan_quote (hstring : brackets.string = none) (hblock : brackets.blockComment = false)
    {delimiter : StringDelimiter} {rest : Str}
    (hfind : stringDelimiters.find? (fun other =>
      other.chars.isPrefixOf (delimiter.chars ++ rest)) = some delimiter) :
    scan comments brackets before (delimiter.chars ++ rest) =
      scan comments { brackets with string := some delimiter } (before ++ delimiter.chars) rest := by
  obtain ⟨c, more, hchars⟩ : ∃ c more, delimiter.chars = c :: more := by
    cases delimiter <;> exact ⟨_, _, rfl⟩
  have hspecial := delimiter.chars_special c (by rw [hchars]; exact List.mem_cons_self)
  have hlength : Str.len (before ++ delimiter.chars) = Str.len before + delimiter.bytes.length := by
    rw [len_append, StringDelimiter.bytes, length_bytes]
  have hnext : scan comments { brackets with string := some delimiter } (before ++ delimiter.chars)
      rest = closeFrom comments (Str.bytes (before ++ (delimiter.chars ++ rest)))
        { brackets with string := some delimiter } (Str.len before + delimiter.bytes.length) := by
    rw [scan, hlength, List.append_assoc]
  rw [hnext]
  rw [hchars, List.cons_append] at hfind ⊢
  rw [scan_code comments before hstring hblock (ascii_of_special hspecial), hfind]

theorem scan_blockComment (hstring : brackets.string = none)
    (hblock : brackets.blockComment = false) (rest : Str) :
    scan comments brackets before ('/' :: '*' :: rest) =
      scan comments { brackets with blockComment := true } (before ++ ['/', '*']) rest := by
  rw [scan_code comments before hstring hblock (by decide),
    find?_of_not_quote (by simp [quoteChars])]
  simp only [List.isPrefixOf, beq_self_eq_true, Bool.and_self, if_true]
  rw [scan, len_append, List.append_assoc]
  rfl

theorem scan_comment (hstring : brackets.string = none) (hblock : brackets.blockComment = false)
    {rest : Str} (hcomment : comments.opens before rest) :
    scan comments brackets before rest = .error brackets.atLineEnd := by
  cases rest with
  | nil => exact scan_nil comments before
  | cons c rest =>
    have hc : (c = '/' ∧ ['/', '*'].isPrefixOf (c :: rest) = false) ∨ c = '#' := by
      cases comments with
      | hash =>
        rw [LineComments.opens, List.isPrefixOf_iff_prefix, List.cons_prefix_cons] at hcomment
        exact .inr hcomment.1.symm
      | mixed =>
        simp only [LineComments.opens, Bool.or_eq_true, Bool.and_eq_true,
          List.isPrefixOf_iff_prefix, List.cons_prefix_cons] at hcomment
        rcases hcomment with ⟨rfl, hslash⟩ | ⟨⟨⟨rfl, -⟩, -⟩, -⟩
        · obtain ⟨more, rfl⟩ := hslash
          exact .inl ⟨rfl, rfl⟩
        · exact .inr rfl
    have hascii : c.toNat ≤ 0x7f := by rcases hc with ⟨rfl, -⟩ | rfl <;> decide
    have hquote : c ∉ quoteChars := by rcases hc with ⟨rfl, -⟩ | rfl <;> simp [quoteChars]
    have hblockComment : ['/', '*'].isPrefixOf (c :: rest) = false := by
      rcases hc with ⟨-, hopen⟩ | rfl
      · exact hopen
      · rfl
    rw [scan_code comments before hstring hblock hascii, find?_of_not_quote hquote]
    simp only [hblockComment, Bool.false_eq_true, if_false, hcomment, if_true]

/-! ## Blanks behind a text -/

theorem inert_of_isWhitespace {c : Char} (hc : isWhitespace c = true) :
    ∀ byte ∈ String.utf8EncodeChar c, Inert byte := by
  intro byte hbyte
  by_cases hascii : c.toNat ≤ 0x7f
  · rw [utf8EncodeChar_of_ascii hascii, List.mem_singleton] at hbyte
    rw [hbyte]
    exact forall_ascii (p := fun c => isWhitespace c = true → Inert (UInt8.ofNat c.toNat))
      (by decide +kernel) hascii hc
  · exact .inl (UInt8.not_lt.mp (not_ascii_of_mem_utf8EncodeChar hascii byte hbyte))

theorem scan_append_blank (rest : Str) {blanks : Str} (h : ∀ c ∈ blanks, isWhitespace c = true) :
    scan comments brackets before (rest ++ blanks) = scan comments brackets before rest := by
  rw [scan, ← List.append_assoc, bytes_append, closeFrom_append comments]
  · rfl
  · intro byte hbyte
    obtain ⟨c, hc, hmem⟩ := List.mem_flatMap.mp hbyte
    exact inert_of_isWhitespace (h c hc) byte hmem

end

end Ivygrep.Native.CodeLines
