import Ivygrep.Native.SymbolLines
import Ivygrep.Spec.StrCorrect

/-!
# Masked sources

The scanner of `mask_non_code` leaves a comment or a quoted text only at the end of the file, before
a line break or behind an ASCII byte, so that it masks whole characters. Offsets into the masked
source are then offsets into the text.

## Key results

- `maskNonCode_masked`: the masked text
- `lineStarts_eq`: line starts by the line breaks among the bytes
- `symbolLineAt_spec`: a round of the search for lines
- `maskNonCode_keeps_offsets`: the masked text and the lines found in it
-/

namespace Ivygrep.Native.Symbols

open ForStd

/-! ## Where the scanner stops -/

/-- The bytes before a place end with the file, before an ASCII byte or with one. -/
def StopsAtAscii (raw : List UInt8) (width : Nat) : Prop :=
  width = raw.length ∨ (∃ byte, raw[width]? = some byte ∧ byte < 0x80) ∨
    ∃ byte, 0 < width ∧ raw[width - 1]? = some byte ∧ byte < 0x80

theorem StopsAtAscii.le {raw : List UInt8} {width : Nat} (h : StopsAtAscii raw width) :
    width ≤ raw.length := by
  rcases h with rfl | ⟨byte, hbyte, -⟩ | ⟨byte, hpos, hbyte, -⟩
  · exact Nat.le_refl _
  · exact Nat.le_of_lt (List.getElem?_eq_some_iff.mp hbyte).1
  · have hlt := (List.getElem?_eq_some_iff.mp hbyte).1
    omega

theorem StopsAtAscii.append (first : List UInt8) {raw : List UInt8} {width : Nat}
    (h : StopsAtAscii raw width) : StopsAtAscii (first ++ raw) (first.length + width) := by
  rcases h with rfl | ⟨byte, hbyte, hascii⟩ | ⟨byte, hpos, hbyte, hascii⟩
  · exact .inl List.length_append.symm
  · refine .inr (.inl ⟨byte, ?_, hascii⟩)
    rw [List.getElem?_append_right (by omega), Nat.add_sub_cancel_left, hbyte]
  · refine .inr (.inr ⟨byte, by omega, ?_, hascii⟩)
    rw [List.getElem?_append_right (by omega),
      show first.length + width - 1 - first.length = width - 1 by omega, hbyte]

/-- A token that ends with an ASCII byte. -/
theorem stopsAtAscii_of_last (first : List UInt8) {byte : UInt8} (hascii : byte < 0x80)
    (rest : List UInt8) : StopsAtAscii (first ++ byte :: rest) (first.length + 1) :=
  .inr (.inr ⟨byte, by omega, by simp, hascii⟩)

theorem blockCommentWidth_of_closed {depth : Int32} (h : ¬ 0 < depth) (raw : List UInt8) :
    blockCommentWidth depth raw = 0 := by
  unfold blockCommentWidth
  split <;> simp [h]

theorem blockCommentWidth_stops {depth : Int32} (h : 0 < depth) (raw : List UInt8) :
    StopsAtAscii raw (blockCommentWidth depth raw) := by
  fun_induction blockCommentWidth depth raw with
  | case1 depth first second rest hopen hstart ih =>
    obtain ⟨rfl, rfl⟩ := hstart
    by_cases hdeeper : 0 < depth + 1
    · exact (ih hdeeper).append [_, _]
    · rw [blockCommentWidth_of_closed hdeeper]
      exact stopsAtAscii_of_last [_] (by decide) rest
  | case2 depth first second rest hopen hstart hstop ih =>
    obtain ⟨rfl, rfl⟩ := hstop
    by_cases hdeeper : 0 < depth - 1
    · exact (ih hdeeper).append [_, _]
    · rw [blockCommentWidth_of_closed hdeeper]
      exact stopsAtAscii_of_last [_] (by decide) rest
  | case3 depth first second rest hopen hstart hstop ih => exact (ih hopen).append [first]
  | case4 depth first second rest hclosed => exact absurd h hclosed
  | case5 depth byte hopen => exact .inl rfl
  | case6 depth byte hclosed => exact absurd h hclosed
  | case7 => exact .inl rfl

theorem quotes_stop {quote : UInt8} (hquote : quote < 0x80) {width : Nat} (hwidth : 0 < width)
    {raw : List UInt8} (h : (List.replicate width quote).isPrefixOf raw) :
    StopsAtAscii raw width := by
  obtain ⟨width, rfl⟩ := Nat.exists_eq_add_of_lt hwidth
  obtain ⟨rest, rfl⟩ := List.isPrefixOf_iff_prefix.mp h
  refine .inr (.inr ⟨quote, hwidth, ?_, hquote⟩)
  rw [List.getElem?_append_left (by simp), List.getElem?_replicate, if_pos (by omega)]

theorem quotedWidth_stops {quote : UInt8} (hquote : quote < 0x80) {width : Nat}
    (hwidth : 0 < width) (raw : List UInt8) : StopsAtAscii raw (quotedWidth quote width raw) := by
  fun_induction quotedWidth quote width raw with
  | case1 => exact .inl rfl
  | case2 => exact .inl rfl
  | case3 byte hescape hclose => exact quotes_stop hquote hwidth hclose
  | case4 => exact .inl rfl
  | case5 next rest ih => exact ih.append [_, next]
  | case6 byte next rest hescape hclose => exact quotes_stop hquote hwidth hclose
  | case7 byte next rest hescape hclose ih => exact ih.append [byte]

theorem takeWhile_stops (raw : List UInt8) :
    StopsAtAscii raw (raw.takeWhile fun byte => byte ≠ '\n'.toUInt8).length := by
  induction raw with
  | nil => exact .inl rfl
  | cons byte raw ih =>
    by_cases hbyte : byte = '\n'.toUInt8
    · subst hbyte
      exact .inr (.inl ⟨'\n'.toUInt8, rfl, by decide⟩)
    · have hrest := ih.append [byte]
      simpa [hbyte, Nat.add_comm] using hrest

section

variable {language : Str}

/-- A comment or a quoted text starts with an ASCII byte, and the scanner leaves it. -/
theorem nonCodeWidth_spec {byte : UInt8} {rest : List UInt8} {width : Nat}
    (h : nonCodeWidth language (byte :: rest) = some width) :
    byte < 0x80 ∧ 0 < width ∧ StopsAtAscii (byte :: rest) width := by
  rw [nonCodeWidth] at h
  by_cases hline : ['/'.toUInt8, '/'.toUInt8].isPrefixOf (byte :: rest) ∨
      hashComments language ∧ byte = '#'.toUInt8 ∨
      dashComments language ∧ ['-'.toUInt8, '-'.toUInt8].isPrefixOf (byte :: rest)
  · -- A line comment ends before the line break.
    obtain ⟨hascii, hne⟩ : byte < 0x80 ∧ byte ≠ '\n'.toUInt8 := by
      rcases hline with hslash | ⟨-, rfl⟩ | ⟨-, hdash⟩
      · rw [← (List.cons_prefix_cons.mp (List.isPrefixOf_iff_prefix.mp hslash)).1]
        decide
      · decide
      · rw [← (List.cons_prefix_cons.mp (List.isPrefixOf_iff_prefix.mp hdash)).1]
        decide
    rw [if_pos hline, Option.some.injEq] at h
    subst h
    refine ⟨hascii, by simp [hne], ?_⟩
    exact takeWhile_stops (byte :: rest)
  rw [if_neg hline] at h
  by_cases hblock : ['/'.toUInt8, '*'.toUInt8].isPrefixOf (byte :: rest)
  · rw [if_pos hblock, Option.some.injEq] at h
    obtain ⟨raw, hraw⟩ := List.isPrefixOf_iff_prefix.mp hblock
    obtain ⟨rfl, rfl⟩ := List.cons_eq_cons.mp hraw
    subst h
    exact ⟨by decide, by omega, (blockCommentWidth_stops (by decide) raw).append [_, _]⟩
  rw [if_neg hblock] at h
  by_cases hquote : byte = '\x27'.toUInt8 ∨ byte = '\x22'.toUInt8 ∨ byte = '\x60'.toUInt8
  · rw [if_pos hquote] at h
    have hascii : byte < 0x80 := by rcases hquote with rfl | rfl | rfl <;> decide
    simp only [Option.some.injEq] at h
    generalize hcount : (if (List.replicate 3 byte).isPrefixOf (byte :: rest) then 3 else 1) =
      count at h
    have hopen : 0 < count ∧ count ≤ (byte :: rest).length := by
      rw [← hcount]
      split
      · next hthree =>
        exact ⟨by decide, (List.isPrefixOf_iff_prefix.mp hthree).length_le⟩
      · exact ⟨by decide, by simp⟩
    subst h
    refine ⟨hascii, by omega, ?_⟩
    have hstops := (quotedWidth_stops hascii hopen.1 ((byte :: rest).drop count)).append
      ((byte :: rest).take count)
    rwa [List.take_append_drop, List.length_take, Nat.min_eq_left hopen.2] at hstops
  · rw [if_neg hquote] at h
    cases h

end

/-! ## The masked text -/

/-- A character of a comment. -/
def maskChar (c : Char) : Str :=
  if c = '\n' ∨ c = '\r' then [c] else List.replicate c.utf8Size ' '

theorem map_maskByte_char (c : Char) :
    (String.utf8EncodeChar c).map maskByte = Str.bytes (maskChar c) := by
  by_cases hascii : c.toNat ≤ 0x7f
  · exact Str.forall_ascii
      (p := fun c => (String.utf8EncodeChar c).map maskByte = Str.bytes (maskChar c))
      (by decide +kernel) hascii
  · have hspace : ∀ byte ∈ (String.utf8EncodeChar c).map maskByte, byte = ' '.toUInt8 := by
      intro byte hbyte
      obtain ⟨raw, hraw, rfl⟩ := List.mem_map.mp hbyte
      have hhigh := Str.not_ascii_of_mem_utf8EncodeChar hascii raw hraw
      refine if_neg ?_
      rintro (rfl | rfl) <;> exact hhigh (by decide)
    have hbreak : ¬ (c = '\n' ∨ c = '\r') := by
      rintro (rfl | rfl) <;> exact hascii (by decide)
    rw [List.eq_replicate_iff.mpr ⟨rfl, hspace⟩, maskChar, if_neg hbreak, List.length_map,
      String.length_utf8EncodeChar]
    generalize c.utf8Size = width
    induction width with
    | zero => rfl
    | succ width ih =>
      rw [List.replicate_succ, List.replicate_succ, ih]
      rfl

theorem map_maskByte (text : Str) :
    (Str.bytes text).map maskByte = Str.bytes (text.flatMap maskChar) := by
  induction text with
  | nil => rfl
  | cons c text ih =>
    rw [List.flatMap_cons, Str.bytes_append, Str.bytes_cons, List.map_append, ih,
      map_maskByte_char]

/-- Some characters of the text, and others masked. -/
inductive Masked : Str → Str → Prop where
  | nil : Masked [] []
  | keep (c : Char) {text masked : Str} : Masked text masked → Masked (c :: text) (c :: masked)
  | mask (c : Char) {text masked : Str} :
    Masked text masked → Masked (c :: text) (maskChar c ++ masked)

theorem Masked.append {text masked : Str} (h : Masked text masked) (before : Str) :
    Masked (before ++ text) (before.flatMap maskChar ++ masked) := by
  induction before with
  | nil => exact h
  | cons c before ih =>
    rw [List.flatMap_cons, List.append_assoc]
    exact ih.mask c

section

variable {language : Str}

/-- The bytes inside a character are no code that the scanner knows. -/
theorem maskFrom_continuation {others : List UInt8} (h : ∀ byte ∈ others, ¬ byte < 0x80)
    (rounds : Nat) (raw : List UInt8) :
    maskFrom language (others.length + rounds) (others ++ raw) =
      (maskFrom language rounds raw).map (others ++ ·) := by
  induction others with
  | nil => simp
  | cons byte others ih =>
    have hnone : nonCodeWidth language (byte :: (others ++ raw)) = none := by
      rw [Option.eq_none_iff_forall_ne_some]
      intro width hwidth
      exact h byte List.mem_cons_self (nonCodeWidth_spec hwidth).1
    rw [List.length_cons, Nat.add_right_comm, List.cons_append, maskFrom, hnone]
    simp only
    rw [ih fun byte hbyte => h byte (List.mem_cons_of_mem _ hbyte), Option.map_map]
    rfl

/-- The scanner masks whole characters, and there are rounds enough. -/
theorem maskFrom_masked (language : Str) (rounds : Nat) (text : Str) (hrounds : Str.len text ≤ rounds) :
    ∃ masked, maskFrom language rounds (Str.bytes text) = some (Str.bytes masked) ∧
      Masked text masked := by
  induction hsize : text.length using Nat.strong_induction_on generalizing text rounds with
  | _ size ih =>
  cases text with
  | nil => exact ⟨[], by simp [Str.bytes, maskFrom], .nil⟩
  | cons c text =>
    rw [Str.len_cons] at hrounds
    obtain ⟨first, others, hchar, -, hothers⟩ := Utf8.utf8EncodeChar_parts c
    have hbytes : Str.bytes (c :: text) = first :: (others ++ Str.bytes text) := by
      rw [Str.bytes_cons, hchar]
      rfl
    have hlength : c.utf8Size = others.length + 1 := by
      rw [← String.length_utf8EncodeChar, hchar, List.length_cons]
    obtain ⟨spare, rfl⟩ : ∃ spare, rounds = others.length + spare + 1 :=
      ⟨rounds - c.utf8Size, by omega⟩
    rw [hbytes, maskFrom]
    cases hwidth : nonCodeWidth language (first :: (others ++ Str.bytes text)) with
    | none =>
      have hinner : ∀ byte ∈ others, ¬ byte < 0x80 := by
        intro byte hbyte hascii
        have hlow := (hothers byte hbyte).1
        rw [UInt8.lt_iff_toNat_lt] at hascii
        exact absurd hascii (Nat.not_lt.mpr hlow)
      obtain ⟨masked, hrest, hmasked⟩ :=
        ih text.length (by rw [← hsize]; simp) spare text (by omega) rfl
      refine ⟨c :: masked, ?_, hmasked.keep c⟩
      simp only
      rw [maskFrom_continuation hinner, hrest, Str.bytes_cons, hchar]
      rfl
    | some width =>
      obtain ⟨-, hpos, hstops⟩ := nonCodeWidth_spec hwidth
      have hle := hstops.le
      rw [← hbytes] at hstops hle ⊢
      -- What is masked ends at a character boundary.
      have hboundary : Str.isCharBoundary (c :: text) width := by
        rcases hstops with rfl | ⟨byte, hbyte, hascii⟩ | ⟨byte, -, hbyte, hascii⟩
        · rw [Str.length_bytes]
          exact Str.isCharBoundary_end (c :: text)
        · exact (Str.isCharBoundary_of_ascii hbyte hascii).1
        · have hnext := (Str.isCharBoundary_of_ascii hbyte hascii).2
          rwa [Nat.sub_add_cancel hpos] at hnext
      obtain ⟨before, after, hsplit, hbefore⟩ := Str.isCharBoundary_iff.mp hboundary
      have hshorter : after.length < size := by
        rw [← hsize, hsplit, List.length_append]
        have hne : before ≠ [] := by
          rintro rfl
          exact Nat.ne_of_gt hpos hbefore.symm
        have hbeforePos := List.length_pos_iff.mpr hne
        omega
      have hfits : Str.len after ≤ others.length + spare := by
        have htotal := congrArg Str.len hsplit
        rw [Str.len_cons, Str.len_append] at htotal
        omega
      obtain ⟨masked, hrest, hmasked⟩ := ih after.length hshorter _ after hfits rfl
      refine ⟨before.flatMap maskChar ++ masked, ?_, ?_⟩
      · simp only
        rw [if_pos hle, hsplit, Str.bytes_append, ← hbefore, ← Str.length_bytes,
          List.take_left, List.drop_left, hrest, map_maskByte, Str.bytes_append]
        rfl
      · rw [hsplit]
        exact hmasked.append before

/-- Masking returns the text with some characters masked. -/
theorem maskNonCode_masked (language text : Str) :
    ∃ masked, maskNonCode language text = some masked ∧ Masked text masked := by
  obtain ⟨masked, hmasked, h⟩ := maskFrom_masked language _ text (Nat.le_refl _)
  exact ⟨masked, by rw [maskNonCode, hmasked, Option.bind_some, Str.fromUtf8_bytes], h⟩

end

/-! ## Bytes of the masked text -/

/-- A byte is left, or it is a space where no line break was. -/
def MaskedByte (before after : UInt8) : Prop :=
  after = before ∨ after = ' '.toUInt8 ∧ before ≠ '\n'.toUInt8 ∧ before ≠ '\r'.toUInt8

theorem maskByte_spec (byte : UInt8) : MaskedByte byte (maskByte byte) := by
  unfold maskByte
  split
  · exact .inl rfl
  · next hbreak => exact .inr ⟨rfl, not_or.mp hbreak⟩

theorem Masked.bytes {text masked : Str} (h : Masked text masked) :
    List.Forall₂ MaskedByte (Str.bytes text) (Str.bytes masked) := by
  induction h with
  | nil => exact .nil
  | keep c _ ih =>
    rw [Str.bytes_cons, Str.bytes_cons]
    exact List.rel_append (List.forall₂_same.mpr fun _ _ => .inl rfl) ih
  | mask c _ ih =>
    rw [Str.bytes_cons, Str.bytes_append, ← map_maskByte_char]
    refine List.rel_append ?_ ih
    rw [List.forall₂_map_right_iff]
    exact List.forall₂_same.mpr fun byte _ => maskByte_spec byte

theorem Masked.len_eq {text masked : Str} (h : Masked text masked) :
    Str.len masked = Str.len text := by
  rw [← Str.length_bytes, ← Str.length_bytes]
  exact h.bytes.length_eq.symm

/-- A range of bytes that are changed, with no changed byte beside it. -/
structure ChangedRange (before after : List UInt8) (start stop : Nat) : Prop where
  nonempty : start < stop
  changed : ∀ i, start ≤ i → i < stop → before[i]? ≠ after[i]?
  left : start = 0 ∨ before[start - 1]? = after[start - 1]?
  right : before[stop]? = after[stop]?

theorem inside_char {c : Char} {text : Str} {i : Nat}
    (hinside : ¬ Str.isCharBoundary (c :: text) (i + 1)) (hlt : i < c.utf8Size) :
    i + 1 < c.utf8Size := by
  by_contra hend
  apply hinside
  rw [show i + 1 = c.utf8Size by omega]
  exact Str.isCharBoundary_iff.mpr ⟨[c], text, rfl, by simp⟩

theorem getElem?_append_add (first rest : List UInt8) (j : Nat) :
    (first ++ rest)[first.length + j]? = rest[j]? := by
  rw [List.getElem?_append_right (by omega), Nat.add_sub_cancel_left]

/-- A byte of a character that has several of them is changed when it is masked. -/
theorem maskByte_ne {c : Char} {byte : UInt8} (hwide : 1 < c.utf8Size)
    (hbyte : byte ∈ String.utf8EncodeChar c) : byte ≠ maskByte byte := by
  have hhigh : ¬ byte < 0x80 := by
    refine Str.not_ascii_of_mem_utf8EncodeChar (fun hascii => ?_) byte hbyte
    have hlength := String.length_utf8EncodeChar c
    rw [Str.utf8EncodeChar_of_ascii hascii, List.length_singleton] at hlength
    omega
  have hbreak : ¬ (byte = '\n'.toUInt8 ∨ byte = '\r'.toUInt8) := by
    rintro (rfl | rfl) <;> exact hhigh (by decide)
  rw [maskByte, if_neg hbreak]
  rintro rfl
  exact hhigh (by decide)

/-- The bytes of a character are changed together. -/
theorem Masked.same_inside {text masked : Str} (h : Masked text masked) {i : Nat}
    (hinside : ¬ Str.isCharBoundary text (i + 1)) (hlt : i + 1 < Str.len text) :
    (Str.bytes text)[i]? = (Str.bytes masked)[i]? ↔
      (Str.bytes text)[i + 1]? = (Str.bytes masked)[i + 1]? := by
  induction h generalizing i with
  | nil => simp at hlt
  | @keep c text masked _ ih =>
    have hlength := String.length_utf8EncodeChar c
    rw [Str.bytes_cons, Str.bytes_cons]
    rcases Nat.lt_or_ge i c.utf8Size with hfirst | hrest
    · have hwithin := inside_char hinside hfirst
      rw [List.getElem?_append_left (by omega), List.getElem?_append_left (by omega),
        List.getElem?_append_left (by omega), List.getElem?_append_left (by omega)]
      simp
    · obtain ⟨j, rfl⟩ := Nat.exists_eq_add_of_le hrest
      rw [Nat.add_assoc] at hinside hlt ⊢
      rw [Str.len_cons] at hlt
      rw [← hlength]
      simp only [getElem?_append_add]
      refine ih (fun hboundary => hinside ?_) (by omega)
      simpa using (Str.isCharBoundary_append [c]).mpr hboundary
  | @mask c text masked _ ih =>
    have hlength := String.length_utf8EncodeChar c
    rw [Str.bytes_cons, Str.bytes_append, ← map_maskByte_char]
    rcases Nat.lt_or_ge i c.utf8Size with hfirst | hrest
    · have hwithin := inside_char hinside hfirst
      have hchanged : ∀ k < c.utf8Size, (String.utf8EncodeChar c ++ Str.bytes text)[k]? ≠
          ((String.utf8EncodeChar c).map maskByte ++ Str.bytes masked)[k]? := by
        intro k hk
        rw [List.getElem?_append_left (by omega),
          List.getElem?_append_left (by rw [List.length_map]; omega), List.getElem?_map,
          List.getElem?_eq_getElem (by omega)]
        intro heq
        exact maskByte_ne (by omega) (List.getElem_mem _) (Option.some.inj heq)
      exact iff_of_false (hchanged i hfirst) (hchanged (i + 1) hwithin)
    · obtain ⟨j, rfl⟩ := Nat.exists_eq_add_of_le hrest
      rw [Nat.add_assoc] at hinside hlt ⊢
      rw [Str.len_cons] at hlt
      have hmapped : ∀ k, ((String.utf8EncodeChar c).map maskByte ++
          Str.bytes masked)[(String.utf8EncodeChar c).length + k]? = (Str.bytes masked)[k]? := by
        intro k
        rw [← List.length_map maskByte]
        exact getElem?_append_add _ _ k
      rw [← hlength]
      simp only [getElem?_append_add, hmapped]
      refine ih (fun hboundary => hinside ?_) (by omega)
      simpa using (Str.isCharBoundary_append [c]).mpr hboundary

theorem Masked.changedRange {text masked : Str} (h : Masked text masked) {start stop : Nat}
    (hrange : ChangedRange (Str.bytes text) (Str.bytes masked) start stop) :
    Str.isCharBoundary text start ∧ Str.isCharBoundary text stop := by
  obtain ⟨hlt, hchanged, hleft, hright⟩ := hrange
  have hlength := h.bytes.length_eq
  have hend : ∀ i, start ≤ i → i < stop → i < Str.len text := by
    intro i hstart hstop
    by_contra hout
    apply hchanged i hstart hstop
    rw [← Str.length_bytes] at hout
    rw [List.getElem?_eq_none (by omega), List.getElem?_eq_none (by omega)]
  constructor
  · by_contra hinside
    obtain ⟨i, rfl⟩ : ∃ i, start = i + 1 := by
      refine Nat.exists_eq_succ_of_ne_zero ?_
      rintro rfl
      exact hinside (Str.isCharBoundary_zero text)
    have hsame := hleft.resolve_left (Nat.succ_ne_zero i)
    exact hchanged (i + 1) (Nat.le_refl _) hlt
      ((h.same_inside hinside (hend _ (Nat.le_refl _) hlt)).mp hsame)
  · obtain ⟨i, rfl⟩ := Nat.exists_eq_succ_of_ne_zero (Nat.ne_zero_of_lt hlt)
    by_contra hinside
    have hi := hend i (by omega) (by omega)
    rcases Nat.lt_or_ge (i + 1) (Str.len text) with hmore | hlast
    · exact hchanged i (by omega) (by omega) ((h.same_inside hinside hmore).mpr hright)
    · apply hinside
      rw [show i.succ = Str.len text by omega]
      exact Str.isCharBoundary_end text

/-! ## Line starts -/

/-- Where the lines behind the line breaks of some bytes start. -/
def breakEnds : Nat → List UInt8 → List Nat
  | _, [] => []
  | offset, byte :: rest =>
    if byte = '\n'.toUInt8 then (offset + 1) :: breakEnds (offset + 1) rest
    else breakEnds (offset + 1) rest

theorem mem_breakEnds {raw : List UInt8} {offset place : Nat} (h : place ∈ breakEnds offset raw) :
    ∃ i, raw[i]? = some '\n'.toUInt8 ∧ place = offset + i + 1 := by
  induction raw generalizing offset with
  | nil => cases h
  | cons byte raw ih =>
    have hlater : place ∈ breakEnds (offset + 1) raw →
        ∃ i, (byte :: raw)[i]? = some '\n'.toUInt8 ∧ place = offset + i + 1 := by
      intro hplace
      obtain ⟨i, hi, rfl⟩ := ih hplace
      exact ⟨i + 1, hi, by omega⟩
    rw [breakEnds] at h
    split at h
    · next hbreak =>
      rcases List.mem_cons.mp h with rfl | hplace
      · exact ⟨0, by rw [hbreak]; rfl, rfl⟩
      · exact hlater hplace
    · exact hlater h

/-- The lines that start up to a place are those whose line break stands before it. -/
theorem takeWhile_breakEnds (raw : List UInt8) (offset start : Nat) :
    ((breakEnds offset raw).takeWhile fun place => place ≤ offset + start).length =
      (raw.take start).count '\n'.toUInt8 := by
  induction raw generalizing offset start with
  | nil => simp [breakEnds]
  | cons byte raw ih =>
    cases start with
    | zero =>
      have hnone : ∀ place ∈ breakEnds offset (byte :: raw), ¬ place ≤ offset + 0 := by
        intro place hplace
        obtain ⟨i, -, rfl⟩ := mem_breakEnds hplace
        omega
      rw [List.takeWhile_eq_nil_iff.mpr]
      · rfl
      · intro hpos
        simpa using hnone _ (List.getElem_mem hpos)
    | succ start =>
      have hrest := ih (offset + 1) start
      rw [show offset + 1 + start = offset + (start + 1) by omega] at hrest
      rw [breakEnds, List.take_succ_cons, List.count_cons]
      split
      · next hbreak =>
        rw [List.takeWhile_cons, if_pos (by simp), List.length_cons, hrest, hbreak]
        simp
      · next hbreak =>
        rw [hrest]
        simp [hbreak]

theorem breakEnds_append (first rest : List UInt8) (offset : Nat) :
    breakEnds offset (first ++ rest) =
      breakEnds offset first ++ breakEnds (offset + first.length) rest := by
  induction first generalizing offset with
  | nil => rfl
  | cons byte first ih =>
    rw [List.cons_append, breakEnds, breakEnds, ih, List.length_cons,
      show offset + 1 + first.length = offset + (first.length + 1) by omega]
    split <;> rfl

theorem lineStartsFrom_eq (offset : Nat) (text : Str) :
    ((matchIndicesFrom ['\n'] offset 0 text).map fun place => place + 1) =
      breakEnds offset (Str.bytes text) := by
  induction text generalizing offset with
  | nil => rfl
  | cons c text ih =>
    rw [Str.bytes_cons, breakEnds_append, String.length_utf8EncodeChar, ← ih, matchIndicesFrom]
    by_cases hbreak : c = '\n'
    · subst hbreak
      rfl
    · have hstarts : ¬ Str.startsWith (c :: text) ['\n'] := by
        intro hstarts
        have hhead := (List.cons_prefix_cons.mp (List.isPrefixOf_iff_prefix.mp hstarts)).1
        exact hbreak hhead.symm
      have hnone : breakEnds offset (String.utf8EncodeChar c) = [] := by
        rw [List.eq_nil_iff_forall_not_mem]
        intro place hplace
        obtain ⟨i, hi, -⟩ := mem_breakEnds hplace
        have hc := Str.eq_of_mem_utf8EncodeChar (List.mem_of_getElem? hi) (by decide)
        exact hbreak (hc.trans (by decide))
      rw [if_neg hstarts, hnone, List.nil_append]

theorem lineStarts_eq (text : Str) : lineStarts text = 0 :: breakEnds 0 (Str.bytes text) :=
  congrArg (0 :: ·) (lineStartsFrom_eq 0 text)

theorem not_of_getElem?_takeWhile {p : Nat → Bool} {l : List Nat} {place : Nat}
    (h : l[(l.takeWhile p).length]? = some place) : ¬ p place := by
  induction l with
  | nil => cases h
  | cons head l ih =>
    by_cases hhead : p head
    · rw [List.takeWhile_cons_of_pos hhead] at h
      exact ih h
    · rw [List.takeWhile_cons_of_neg hhead] at h
      obtain rfl := Option.some.inj h
      exact hhead

theorem exists_last_takeWhile {p : Nat → Bool} {head : Nat} (hhead : p head) (l : List Nat) :
    ∃ place, (head :: l)[((head :: l).takeWhile p).length - 1]? = some place ∧ p place := by
  have hpos : 0 < ((head :: l).takeWhile p).length := by
    rw [List.takeWhile_cons_of_pos hhead]
    exact Nat.succ_pos _
  have hlast : ((head :: l).takeWhile p).length - 1 < ((head :: l).takeWhile p).length := by omega
  have hfirst := List.takeWhile_prefix p (l := head :: l)
  refine ⟨_, ?_, List.all_eq_true.mp List.all_takeWhile _ (List.getElem_mem hlast)⟩
  exact List.getElem?_eq_some_iff.mpr
    ⟨Nat.lt_of_lt_of_le hlast hfirst.length_le, (hfirst.getElem hlast).symm⟩

theorem Masked.line_break {text masked : Str} (h : Masked text masked) {i : Nat}
    (hbreak : (Str.bytes text)[i]? = some '\n'.toUInt8) :
    (Str.bytes masked)[i]? = some '\n'.toUInt8 := by
  obtain ⟨hi, heq⟩ := List.getElem?_eq_some_iff.mp hbreak
  have hi' : i < (Str.bytes masked).length := by rwa [← h.bytes.length_eq]
  have hbyte := h.bytes.get hi hi'
  simp only [List.get_eq_getElem, heq] at hbyte
  rw [List.getElem?_eq_getElem hi']
  rcases hbyte with hsame | ⟨-, hne, -⟩
  · exact congrArg some hsame
  · exact absurd rfl hne

/-- A line starts at a character boundary of the text and of the masked source. -/
theorem lineStarts_boundary {text source : Str} (h : Masked text source) {place : Nat}
    (hplace : place ∈ lineStarts text) :
    Str.isCharBoundary text place ∧ Str.isCharBoundary source place := by
  rw [lineStarts_eq] at hplace
  rcases List.mem_cons.mp hplace with rfl | hplace
  · exact ⟨Str.isCharBoundary_zero text, Str.isCharBoundary_zero source⟩
  · obtain ⟨i, hi, rfl⟩ := mem_breakEnds hplace
    rw [Nat.zero_add]
    exact ⟨(Str.isCharBoundary_of_ascii hi (by decide)).2,
      (Str.isCharBoundary_of_ascii (h.line_break hi) (by decide)).2⟩

/-- The line of a place, and where it starts and ends. -/
theorem lineStarts_spec (text : Str) (start : Nat) :
    let line := ((lineStarts text).takeWhile fun offset => offset ≤ start).length
    line = 1 + ((Str.bytes text).take start).count '\n'.toUInt8 ∧
      (∃ lineStart ∈ lineStarts text, (lineStarts text)[line - 1]? = some lineStart ∧
        lineStart ≤ start) ∧
      ∀ lineEnd, (lineStarts text)[line]? = some lineEnd →
        lineEnd ∈ lineStarts text ∧ start < lineEnd := by
  intro line
  refine ⟨?_, ?_, fun lineEnd hend => ⟨List.mem_of_getElem? hend, ?_⟩⟩
  · show ((lineStarts text).takeWhile _).length = _
    rw [lineStarts_eq, List.takeWhile_cons_of_pos (by simp), List.length_cons,
      ← takeWhile_breakEnds _ 0, Nat.zero_add, Nat.add_comm]
  · have hfirst : (decide (0 ≤ start)) = true := by simp
    obtain ⟨lineStart, hstart, hle⟩ := exists_last_takeWhile (p := fun offset => offset ≤ start)
      hfirst ((matchIndices text ['\n']).map fun offset => offset + 1)
    exact ⟨lineStart, List.mem_of_getElem? hstart, hstart, of_decide_eq_true hle⟩
  · have hbeyond := not_of_getElem?_takeWhile hend
    simpa using hbeyond

/-! ## Occurrences -/

theorem mem_matchIndicesFrom {pattern text : Str} {offset skip place : Nat}
    (h : place ∈ matchIndicesFrom pattern offset skip text) :
    ∃ before after, text = before ++ pattern ++ after ∧ place = offset + Str.len before := by
  induction text generalizing offset skip with
  | nil => cases skip <;> cases h
  | cons c text ih =>
    have hlater : ∀ skip, place ∈ matchIndicesFrom pattern (offset + c.utf8Size) skip text →
        ∃ before after, c :: text = before ++ pattern ++ after ∧
          place = offset + Str.len before := by
      intro skip hplace
      obtain ⟨before, after, rfl, rfl⟩ := ih hplace
      exact ⟨c :: before, after, rfl, by rw [Str.len_cons, Nat.add_assoc]⟩
    cases skip with
    | succ skip => exact hlater skip h
    | zero =>
      rw [matchIndicesFrom] at h
      split at h
      · next hstarts =>
        rcases List.mem_cons.mp h with rfl | hplace
        · obtain ⟨after, hafter⟩ := List.isPrefixOf_iff_prefix.mp hstarts
          exact ⟨[], after, hafter.symm, rfl⟩
        · exact hlater _ hplace
      · exact hlater 0 h

/-- An occurrence in the lower-cased source stands between character boundaries of the source. -/
theorem matchIndices_boundary {source pattern : Str} {start : Nat}
    (h : start ∈ matchIndices (Str.toAsciiLowercase source) pattern) :
    Str.isCharBoundary source start ∧ Str.isCharBoundary source (start + Str.len pattern) := by
  obtain ⟨before, after, hsplit, rfl⟩ := mem_matchIndicesFrom h
  rw [Nat.zero_add]
  constructor
  · rw [← Str.isCharBoundary_toAsciiLowercase, hsplit, List.append_assoc]
    exact Str.isCharBoundary_len before (pattern ++ after)
  · rw [← Str.isCharBoundary_toAsciiLowercase, hsplit, ← Str.len_append]
    exact Str.isCharBoundary_len (before ++ pattern) after

/-! ## What stands around an occurrence -/

theorem length_trimStart_le (text : Str) : (Str.trimStart text).length ≤ text.length :=
  (List.dropWhile_sublist _).length_le

theorem length_afterParameterListFrom {depth : Nat} {suffix after : Str}
    (h : afterParameterListFrom depth suffix = some after) : after.length < suffix.length := by
  induction suffix generalizing depth with
  | nil => cases h
  | cons c rest ih =>
    have htrim := length_trimStart_le rest
    rw [afterParameterListFrom] at h
    rw [List.length_cons]
    split at h
    · exact Nat.lt_succ_of_lt (ih h)
    split at h
    · obtain rfl := Option.some.inj h
      omega
    split at h
    · exact Nat.lt_succ_of_lt (ih h)
    · exact Nat.lt_succ_of_lt (ih h)

/-- The suffix of a prototype gets shorter with each qualifier. -/
theorem prototypeSuffixFrom_isSome {rounds : Nat} {suffix : Str} (h : suffix.length ≤ rounds) :
    (prototypeSuffixFrom rounds suffix).isSome := by
  induction rounds generalizing suffix with
  | zero =>
    obtain rfl := List.length_eq_zero_iff.mp (Nat.le_zero.mp h)
    rfl
  | succ rounds ih =>
    cases suffix with
    | nil => rfl
    | cons c rest =>
      rw [List.length_cons] at h
      rw [prototypeSuffixFrom]
      split
      · rfl
      split
      · refine ih (Nat.le_trans (length_trimStart_le _) ?_)
        rw [List.length_drop]
        omega
      split
      · exact ih (Nat.le_trans (length_trimStart_le _) (by omega))
      simp only
      split
      · next hqualifier =>
        -- A qualifier is not empty, so that the rest is shorter.
        have hword : isWordBreak c = false := by
          by_contra hbreak
          rw [List.takeWhile_cons_of_neg (by simpa using hbreak)] at hqualifier
          simp at hqualifier
        have hshorter : (Str.trimStart ((c :: rest).dropWhile fun c => !isWordBreak c)).length ≤
            rounds := by
          rw [List.dropWhile_cons_of_pos (by simp [hword])]
          have hdrop : (rest.dropWhile fun c => !isWordBreak c).length ≤ rest.length :=
            (List.dropWhile_sublist _).length_le
          exact Nat.le_trans (length_trimStart_le _) (by omega)
        split
        · split
          · rfl
          · next after hafter =>
            have hless := length_afterParameterListFrom hafter
            exact ih (by omega)
        · exact ih hshorter
      · rfl

theorem looksLikePrototypeSuffix_isSome (suffix : Str) :
    ∃ result, looksLikePrototypeSuffix suffix = some result := by
  rw [← Option.isSome_iff_exists, looksLikePrototypeSuffix]
  split
  · rfl
  · exact prototypeSuffixFrom_isSome (Nat.le_refl _)

/-- At a character boundary of the line `looks_like_definition` returns. -/
theorem looksLikeDefinition_isSome {line : Str} {nameOffset : Nat}
    (h : Str.isCharBoundary line nameOffset) :
    ∃ result, looksLikeDefinition line nameOffset = some result := by
  obtain ⟨before, hbefore, -⟩ :=
    Str.exists_slice (Str.isCharBoundary_zero line) h (Nat.zero_le _)
  obtain ⟨after, hafter, -⟩ :=
    Str.exists_slice h (Str.isCharBoundary_end line) (Str.isCharBoundary_le h)
  rw [looksLikeDefinition]
  simp only [hbefore, hafter, Option.bind_eq_bind, Option.bind_some, Option.pure_def]
  split
  · exact ⟨false, rfl⟩
  split
  · exact ⟨true, rfl⟩
  split
  · exact ⟨false, rfl⟩
  split
  · exact ⟨true, rfl⟩
  · next rest _ _ =>
    obtain ⟨result, hresult⟩ := looksLikePrototypeSuffix_isSome rest
    rw [hresult]
    exact ⟨_, rfl⟩

section

variable (isXidContinue : Char → Bool)

theorem qualifierMatches_isSome {source : Str} {nameStart : Nat}
    (h : Str.isCharBoundary source nameStart) (owner : Option Str) :
    ∃ result, qualifierMatches isXidContinue source nameStart owner = some result := by
  obtain ⟨before, hbefore, -⟩ :=
    Str.exists_slice (Str.isCharBoundary_zero source) h (Nat.zero_le _)
  cases owner with
  | none => exact ⟨true, rfl⟩
  | some owner =>
    rw [qualifierMatches]
    simp only [hbefore, Option.bind_eq_bind, Option.bind_some, Option.pure_def]
    split
    · exact ⟨false, rfl⟩
    · exact ⟨_, rfl⟩

/-- A round returns, and reports the line of the occurrence in the text. -/
theorem symbolLineAt_spec {text source normalized : Str} (h : Masked text source)
    (owner : Option Str) {start : Nat}
    (hstart : start ∈ matchIndices (Str.toAsciiLowercase source) normalized) :
    ∃ found, symbolLineAt isXidContinue text source normalized owner start = some found ∧
      ∀ occurrence ∈ found,
        occurrence.line = 1 + ((Str.bytes text).take start).count '\n'.toUInt8 := by
  obtain ⟨hfrom, hto⟩ := matchIndices_boundary hstart
  obtain ⟨before, hbefore, -⟩ :=
    Str.exists_slice (Str.isCharBoundary_zero source) hfrom (Nat.zero_le _)
  obtain ⟨after, hafter, -⟩ :=
    Str.exists_slice hto (Str.isCharBoundary_end source) (Str.isCharBoundary_le hto)
  obtain ⟨qualified, hqualified⟩ := qualifierMatches_isSome isXidContinue hfrom owner
  obtain ⟨hline, ⟨lineStart, hmem, hlineStart, hle⟩, hend⟩ := lineStarts_spec text start
  obtain ⟨htextStart, hsourceStart⟩ := lineStarts_boundary h hmem
  -- The line ends behind the occurrence, at a line start or at the end of the source.
  obtain ⟨lineEnd, hlineEnd, hendBoundary, hbehind⟩ : ∃ lineEnd,
      (lineStarts text)[((lineStarts text).takeWhile fun offset => offset ≤ start).length]?.getD
        (Str.len source) = lineEnd ∧ Str.isCharBoundary source lineEnd ∧ start ≤ lineEnd := by
    cases hnext :
        (lineStarts text)[((lineStarts text).takeWhile fun offset => offset ≤ start).length]? with
    | none => exact ⟨_, rfl, Str.isCharBoundary_end source, Str.isCharBoundary_le hfrom⟩
    | some lineEnd =>
      obtain ⟨hendMem, hlt⟩ := hend lineEnd hnext
      exact ⟨lineEnd, rfl, (lineStarts_boundary h hendMem).2, Nat.le_of_lt hlt⟩
  obtain ⟨lowerLine, hlowerLine, -⟩ := Str.exists_slice
    (Str.isCharBoundary_toAsciiLowercase.mpr hsourceStart)
    (Str.isCharBoundary_toAsciiLowercase.mpr hendBoundary) (by omega)
  obtain ⟨defines, hdefines⟩ := looksLikeDefinition_isSome (Str.isCharBoundary_slice hlowerLine
    (Str.isCharBoundary_toAsciiLowercase.mpr hfrom) hle hbehind)
  obtain ⟨preview, hpreview, -⟩ := Str.exists_slice htextStart (Str.isCharBoundary_end text)
    (Str.isCharBoundary_le htextStart)
  rw [symbolLineAt]
  simp only [hbefore, hafter, hqualified, hlineStart, hlineEnd, hlowerLine, hdefines, hpreview,
    Option.bind_eq_bind, Option.bind_some, Option.pure_def]
  split
  · exact ⟨none, rfl, by simp⟩
  split
  · exact ⟨none, rfl, by simp⟩
  split
  · exact ⟨none, rfl, by simp⟩
  split
  · exact ⟨none, rfl, by simp⟩
  · refine ⟨_, rfl, fun occurrence hoccurrence => ?_⟩
    obtain rfl := Option.mem_some_iff.mp hoccurrence
    exact hline

end

/-! ## The lines that are found -/

theorem maskChar_eq {c : Char} (h : ' ' ∉ maskChar c) : maskChar c = [c] := by
  unfold maskChar at h ⊢
  split
  · rfl
  · next hbreak =>
    rw [if_neg hbreak] at h
    have hpos := c.utf8Size_pos
    exact absurd (List.mem_replicate.mpr ⟨by omega, rfl⟩) h

theorem len_maskChar (c : Char) : Str.len (maskChar c) = c.utf8Size := by
  rw [← Str.length_bytes, ← map_maskByte_char, List.length_map, String.length_utf8EncodeChar]

theorem mem_maskChar {c d : Char} (h : d ∈ maskChar c) (hd : d ≠ ' ') : maskChar c = [c] := by
  unfold maskChar at h ⊢
  split
  · rfl
  · next hbreak =>
    rw [if_neg hbreak] at h
    exact absurd (List.eq_of_mem_replicate h) hd

/-- What has no space in the masked source is in the text. -/
theorem Masked.kept_first {text part after : Str} (h : Masked text (part ++ after))
    (hpart : ' ' ∉ part) : ∃ rest, text = part ++ rest := by
  induction part generalizing text with
  | nil => exact ⟨text, rfl⟩
  | cons d part ih =>
    rw [List.mem_cons, not_or] at hpart
    generalize hmasked : d :: part ++ after = masked at h
    cases h with
    | nil => cases hmasked
    | keep c hrest =>
      obtain ⟨rfl, rfl⟩ := List.cons_eq_cons.mp hmasked
      obtain ⟨rest, rfl⟩ := ih hrest hpart.2
      exact ⟨rest, rfl⟩
    | @mask c text masked hrest =>
      have hmem : d ∈ maskChar c := by
        have hpos := c.utf8Size_pos
        have hlength := len_maskChar c
        cases hchar : maskChar c with
        | nil =>
          rw [hchar, Str.len_nil] at hlength
          omega
        | cons e others =>
          rw [hchar] at hmasked
          rw [(List.cons_eq_cons.mp hmasked).1]
          exact List.mem_cons_self
      rw [mem_maskChar hmem (Ne.symm hpart.1)] at hmasked
      obtain ⟨rfl, rfl⟩ := List.cons_eq_cons.mp hmasked
      obtain ⟨rest, rfl⟩ := ih hrest hpart.2
      exact ⟨rest, rfl⟩

theorem Masked.kept {text before part after : Str} (h : Masked text (before ++ (part ++ after)))
    (hpart : ' ' ∉ part) (hne : part ≠ []) :
    ∃ first rest, text = first ++ part ++ rest ∧ Str.len first = Str.len before := by
  generalize hmasked : before ++ (part ++ after) = masked at h
  induction h generalizing before with
  | nil =>
    rw [List.append_eq_nil_iff, List.append_eq_nil_iff] at hmasked
    exact absurd hmasked.2.1 hne
  | @keep c text masked hrest ih =>
    cases before with
    | nil =>
      obtain ⟨rest, hrest⟩ := Masked.kept_first (hmasked ▸ hrest.keep c) hpart
      exact ⟨[], rest, hrest, rfl⟩
    | cons d before =>
      obtain ⟨rfl, hrestEq⟩ := List.cons_eq_cons.mp hmasked
      obtain ⟨first, rest, rfl, hlength⟩ := ih hrestEq
      exact ⟨d :: first, rest, rfl, by rw [Str.len_cons, Str.len_cons, hlength]⟩
  | @mask c text masked hrest ih =>
    rcases List.append_eq_append_iff.mp hmasked with
      ⟨middle, hchar, hpartAfter⟩ | ⟨middle, hbefore, hrestEq⟩
    · -- The part would start inside the masked character.
      cases middle with
      | nil =>
        obtain ⟨first, rest, rfl, hlength⟩ := ih (show [] ++ (part ++ after) = masked from hpartAfter)
        refine ⟨c :: first, rest, rfl, ?_⟩
        rw [List.append_nil] at hchar
        rw [Str.len_cons, hlength, ← len_maskChar c, hchar, Str.len_nil, Nat.add_zero]
      | cons d middle =>
        obtain ⟨e, others, rfl⟩ := List.exists_cons_of_ne_nil hne
        obtain ⟨rfl, -⟩ := List.cons_eq_cons.mp hpartAfter
        have hmem : e ∈ maskChar c := by
          rw [hchar]
          simp
        have hsingle := mem_maskChar hmem (fun hspace => hpart (by simp [hspace]))
        obtain rfl : before = [] := by
          rw [hsingle] at hchar
          cases before with
          | nil => rfl
          | cons x before => simp at hchar
        obtain ⟨rest, hrestText⟩ := Masked.kept_first (hmasked ▸ hrest.mask c) hpart
        exact ⟨[], rest, hrestText, rfl⟩
    · obtain ⟨first, rest, rfl, hlength⟩ := ih hrestEq.symm
      refine ⟨c :: first, rest, rfl, ?_⟩
      rw [hbefore, Str.len_append, len_maskChar, Str.len_cons, hlength]

theorem eq_space_of_toLower {c : Char} (h : c.toLower = ' ') : c = ' ' := by
  by_cases hascii : c.toNat ≤ 0x7f
  · exact Str.forall_ascii (p := fun c => c.toLower = ' ' → c = ' ') (by decide +kernel) hascii h
  · rwa [Str.toLower_of_not_ascii hascii] at h

/-- A name without spaces stands in the text where it is found in the masked source. -/
theorem matchIndices_text {text source name : Str} (h : Masked text source)
    (hname : Str.toAsciiLowercase name ≠ []) (hspace : ' ' ∉ name) {start : Nat}
    (hstart : start ∈ matchIndices (Str.toAsciiLowercase source) (Str.toAsciiLowercase name)) :
    ∃ part, Str.slice text start (start + Str.len name) = some part ∧
      Str.toAsciiLowercase part = Str.toAsciiLowercase name := by
  obtain ⟨lower, after, hsplit, rfl⟩ := mem_matchIndicesFrom hstart
  rw [List.append_assoc] at hsplit
  obtain ⟨before, others, rfl, rfl, hothers⟩ := List.map_eq_append_iff.mp hsplit
  obtain ⟨part, last, rfl, hpart, -⟩ := List.map_eq_append_iff.mp hothers
  have hlength : Str.len part = Str.len name := by
    rw [← Str.len_toAsciiLowercase, ← Str.len_toAsciiLowercase name, ← hpart]
    rfl
  have hpartSpace : ' ' ∉ part := by
    intro hmem
    have hlower : ' ' ∈ name.map Char.toLower := by
      rw [show name.map Char.toLower = part.map Char.toLower from hpart.symm]
      exact List.mem_map.mpr ⟨' ', hmem, rfl⟩
    obtain ⟨c, hc, heq⟩ := List.mem_map.mp hlower
    rw [eq_space_of_toLower heq] at hc
    exact hspace hc
  obtain ⟨first, rest, rfl, hfirst⟩ := h.kept hpartSpace (by rintro rfl; exact hname hpart.symm)
  refine ⟨part, Str.slice_eq_some.mpr ⟨first, rest, rfl, ?_, by rw [hlength]⟩, hpart⟩
  rw [hfirst, Nat.zero_add]
  exact (Str.len_toAsciiLowercase before).symm

theorem exists_mapM {α β : Type} {f : α → Option β} {p : α → β → Prop} {l : List α}
    (h : ∀ a ∈ l, ∃ b, f a = some b ∧ p a b) :
    ∃ bs, l.mapM f = some bs ∧ ∀ b ∈ bs, ∃ a ∈ l, p a b := by
  induction l with
  | nil => exact ⟨[], rfl, by simp⟩
  | cons a l ih =>
    obtain ⟨b, hb, hab⟩ := h a List.mem_cons_self
    obtain ⟨bs, hbs, hall⟩ := ih fun a ha => h a (List.mem_cons_of_mem _ ha)
    refine ⟨b :: bs, by simp [List.mapM_cons, hb, hbs], ?_⟩
    rw [List.forall_mem_cons]
    refine ⟨⟨a, List.mem_cons_self, hab⟩, fun other hother => ?_⟩
    obtain ⟨source, hsource, hp⟩ := hall other hother
    exact ⟨source, List.mem_cons_of_mem _ hsource, hp⟩

/-- An entry of a line comes from an occurrence in that line. -/
theorem mem_recordLine {occurrence found : SymbolLine} {lines : List SymbolLine}
    (h : found ∈ recordLine occurrence lines) :
    found.line = occurrence.line ∨ found ∈ lines := by
  induction lines with
  | nil => exact .inl (congrArg SymbolLine.line (List.mem_singleton.mp h))
  | cons head lines ih =>
    rw [recordLine] at h
    split at h
    · next hline =>
      rcases List.mem_cons.mp h with rfl | hmem
      · exact .inl hline
      · exact .inr (List.mem_cons_of_mem _ hmem)
    split at h
    · rcases List.mem_cons.mp h with rfl | hmem
      · exact .inl rfl
      · exact .inr hmem
    · rcases List.mem_cons.mp h with rfl | hmem
      · exact .inr List.mem_cons_self
      · rcases ih hmem with hline | hold
        · exact .inl hline
        · exact .inr (List.mem_cons_of_mem _ hold)

theorem mem_foldl_recordLine {occurrences : List SymbolLine} {found : SymbolLine}
    {lines : List SymbolLine}
    (h : found ∈ occurrences.foldl (fun lines occurrence => recordLine occurrence lines) lines) :
    (∃ occurrence ∈ occurrences, found.line = occurrence.line) ∨ found ∈ lines := by
  induction occurrences generalizing lines with
  | nil => exact .inr h
  | cons head occurrences ih =>
    rcases ih h with ⟨occurrence, hmem, hline⟩ | hlines
    · exact .inl ⟨occurrence, List.mem_cons_of_mem _ hmem, hline⟩
    · rcases mem_recordLine hlines with hline | hold
      · exact .inl ⟨head, List.mem_cons_self, hline⟩
      · exact .inr hold

/-- The line of an occurrence in the masked source, which is an occurrence in the text unless the
    name has a space. -/
def IsOccurrenceLine (text masked : Str) (query : SymbolQuery) (line : Nat) : Prop :=
  ∃ start ∈ matchIndices (Str.toAsciiLowercase masked) (Str.toAsciiLowercase query.name),
    line = 1 + ((Str.bytes text).take start).count '\n'.toUInt8 ∧
      (' ' ∉ query.name → ∃ part,
        Str.slice text start (start + Str.len query.name) = some part ∧
          Str.toAsciiLowercase part = Str.toAsciiLowercase query.name)

/-- The search for lines in a masked source returns, and reports lines of occurrences. -/
theorem matchingSymbolLines_spec (isXidContinue : Char → Bool) {text source : Str}
    (h : Masked text source) (query : SymbolQuery) :
    ∃ lines, matchingSymbolLines isXidContinue text source query = some lines ∧
      ∀ found ∈ lines, IsOccurrenceLine text source query found.line := by
  unfold matchingSymbolLines
  by_cases hempty : Str.toAsciiLowercase query.name = []
  · exact ⟨[], if_pos hempty, by simp⟩
  simp only [if_neg hempty]
  obtain ⟨occurrences, hoccurrences, hspec⟩ :=
    exists_mapM fun start hstart => symbolLineAt_spec isXidContinue h query.owner hstart
  rw [hoccurrences]
  refine ⟨_, rfl, fun found hfound => ?_⟩
  rcases mem_foldl_recordLine hfound with ⟨occurrence, hmem, hline⟩ | hnone
  · obtain ⟨start, hstart, hlineAt⟩ := hspec _ (List.reduceOption_mem_iff.mp hmem)
    exact ⟨start, hstart, hline.trans (hlineAt occurrence rfl),
      fun hspace => matchIndices_text h hempty hspace hstart⟩
  · cases hnone

/-- Masking keeps the offsets of the text, and the lines found in the masked source are those of the
    text. -/
theorem maskNonCode_keeps_offsets (language text : Str) :
    ∃ masked, maskNonCode language text = some masked ∧ Str.len masked = Str.len text ∧
      List.Forall₂ MaskedByte (Str.bytes text) (Str.bytes masked) ∧
      (∀ start stop, ChangedRange (Str.bytes text) (Str.bytes masked) start stop →
        Str.isCharBoundary text start ∧ Str.isCharBoundary text stop) ∧
      ∀ (isXidContinue : Char → Bool) (query : SymbolQuery),
        ∃ lines, matchingSymbolLines isXidContinue text masked query = some lines ∧
          ∀ found ∈ lines, IsOccurrenceLine text masked query found.line := by
  obtain ⟨masked, hmasked, h⟩ := maskNonCode_masked language text
  exact ⟨masked, hmasked, h.len_eq, h.bytes, fun _ _ hrange => h.changedRange hrange,
    fun isXidContinue query => matchingSymbolLines_spec isXidContinue h query⟩

end Ivygrep.Native.Symbols
