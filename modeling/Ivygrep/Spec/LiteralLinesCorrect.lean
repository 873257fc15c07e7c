import Ivygrep.Native.LiteralLines
import Ivygrep.Spec.StrCorrect

/-!
# The streamed count is the count over the whole text

After any reads, the counter has the number of matching lines that have ended and how much of the
needle the open line ends with. Decoding read by read gives the characters that decoding the whole
file gives.
-/

namespace Ivygrep.Native

open ForStd

/-! ## Folding -/

theorem toLower_of_ascii {c : Char} (h : c.toNat < 0x80) : c.toLower ≠ 'ς' ∧
    String.utf8EncodeChar c.toLower = [UInt8.ofNat c.toLower.toNat] :=
  Str.forall_ascii (p := fun c => c.toLower ≠ 'ς' ∧
    String.utf8EncodeChar c.toLower = [UInt8.ofNat c.toLower.toNat])
    (by decide +kernel) (Nat.le_of_lt_succ h)

namespace Lowercase

variable (lowercase : Lowercase)

theorem foldLiteralChar_of_ascii {c : Char} (h : c.toNat < 0x80) :
    lowercase.foldLiteralChar c = [c.toLower] := by
  rw [foldLiteralChar, lowercase.ascii c h, List.map_singleton, if_neg (toLower_of_ascii h).1]

/-- The shorter way for ASCII texts is no other folding. -/
theorem foldLiteralCase_eq (text : Str) :
    lowercase.foldLiteralCase text = text.flatMap lowercase.foldLiteralChar := by
  unfold foldLiteralCase
  split
  · next hascii =>
    unfold Str.toAsciiLowercase
    rw [List.map_eq_flatMap]
    apply List.flatMap_congr
    intro c hc
    rw [foldLiteralChar_of_ascii lowercase
      (of_decide_eq_true (List.all_eq_true.mp hascii c hc))]
  · rfl

theorem foldLiteralCase_append (left right : Str) :
    lowercase.foldLiteralCase (left ++ right) =
      lowercase.foldLiteralCase left ++ lowercase.foldLiteralCase right := by
  rw [foldLiteralCase_eq, foldLiteralCase_eq, foldLiteralCase_eq, List.flatMap_append]

theorem foldLiteralCase_singleton (c : Char) :
    lowercase.foldLiteralCase [c] = lowercase.foldLiteralChar c := by
  rw [foldLiteralCase_eq, List.flatMap_singleton]

theorem foldLiteralCase_ne_nil {text : Str} (h : text ≠ []) :
    lowercase.foldLiteralCase text ≠ [] := by
  obtain ⟨c, rest, rfl⟩ := List.exists_cons_of_ne_nil h
  rw [foldLiteralCase_eq, List.flatMap_cons, foldLiteralChar]
  simp [lowercase.nonempty c]

/-- Folding makes no carriage return. -/
theorem cr_of_mem_foldLiteralChar {c : Char} (h : '\r' ∈ lowercase.foldLiteralChar c) :
    c = '\r' := by
  obtain ⟨lower, hlower, heq⟩ := List.mem_map.mp h
  apply lowercase.cr
  split at heq
  · cases heq
  · exact heq ▸ hlower

theorem foldLiteralCase_getLast? {text : Str} (h : text.getLast? ≠ some '\r') :
    (lowercase.foldLiteralCase text).getLast? ≠ some '\r' := by
  intro hlast
  rcases List.eq_nil_or_concat text with rfl | ⟨before, c, rfl⟩
  · rw [foldLiteralCase_eq] at hlast
    cases hlast
  · apply h
    rw [List.concat_eq_append, foldLiteralCase_append, foldLiteralCase_singleton,
      List.getLast?_append_of_ne_nil _ (by simp [foldLiteralChar, lowercase.nonempty c])] at hlast
    rw [List.concat_eq_append, List.getLast?_concat,
      cr_of_mem_foldLiteralChar lowercase (List.mem_of_getLast? hlast)]

end Lowercase

/-! ## Matching lines -/

section Lines

variable (lowercase : Lowercase) (queryLower : Str)

/-- A line with the literal. -/
def matchesLine (line : Str) : Bool := Str.contains (lowercase.foldLiteralCase line) queryLower

/-- The matching lines of a text whose first line goes on after `cur`. -/
def countFrom (cur : Str) : Str → Nat
  | [] => (matchesLine lowercase queryLower cur).toNat
  | c :: rest =>
    if c = '\n' then (matchesLine lowercase queryLower cur).toNat + countFrom [] rest
    else countFrom (cur ++ [c]) rest

variable {lowercase queryLower}

theorem matchesLine_iff {line : Str} :
    matchesLine lowercase queryLower line = true ↔
      queryLower <:+: lowercase.foldLiteralCase line := by
  rw [matchesLine, Str.contains, decide_eq_true_iff]

theorem matchesLine_nil (hquery : queryLower ≠ []) :
    matchesLine lowercase queryLower [] = false := by
  rw [Bool.eq_false_iff, ne_eq, matchesLine_iff, Lowercase.foldLiteralCase_eq, List.flatMap_nil,
    List.infix_nil]
  exact hquery

theorem matchesLine_append {line : Str} (h : matchesLine lowercase queryLower line = true)
    (more : Str) : matchesLine lowercase queryLower (line ++ more) = true := by
  rw [matchesLine_iff, Lowercase.foldLiteralCase_append]
  exact (matchesLine_iff.mp h).trans (List.prefix_append _ _).isInfix

/-- A carriage return at the end of the line is part of no match. -/
theorem matchesLine_cr (hquery : queryLower ≠ []) (hcr : queryLower.getLast? ≠ some '\r')
    (line : Str) : matchesLine lowercase queryLower (line ++ ['\r']) =
      matchesLine lowercase queryLower line := by
  have hfold : lowercase.foldLiteralCase ['\r'] = ['\r'] := by
    rw [Lowercase.foldLiteralCase_singleton,
      Lowercase.foldLiteralChar_of_ascii lowercase (by decide)]
    rfl
  rw [Bool.eq_iff_iff, matchesLine_iff, matchesLine_iff, Lowercase.foldLiteralCase_append, hfold,
    List.infix_concat_iff]
  apply or_iff_right
  rintro ⟨before, hsuffix⟩
  apply hcr
  have hlast := congrArg List.getLast? hsuffix
  rwa [List.getLast?_append_of_ne_nil _ hquery, List.getLast?_concat] at hlast

/-- The lines that `lines` gives are counted, without their line ends. -/
theorem countFrom_eq_countP (hquery : queryLower ≠ []) (hcr : queryLower.getLast? ≠ some '\r')
    (cur text : Str) : countFrom lowercase queryLower cur.reverse text =
      (Str.linesFrom cur text).countP (matchesLine lowercase queryLower) := by
  induction text generalizing cur with
  | nil =>
    unfold countFrom Str.linesFrom
    split
    · next hempty =>
      rw [List.isEmpty_iff.mp hempty, List.reverse_nil, matchesLine_nil hquery]
      rfl
    · rw [List.countP_singleton]
      cases matchesLine lowercase queryLower cur.reverse <;> rfl
  | cons c rest ih =>
    unfold countFrom Str.linesFrom
    split
    · rw [List.countP_cons, Nat.add_comm, ← ih [], List.reverse_nil]
      congr 1
      split
      · rw [List.reverse_cons, matchesLine_cr hquery hcr]
        cases matchesLine lowercase queryLower _ <;> rfl
      · cases matchesLine lowercase queryLower _ <;> rfl
    · rw [← ih (c :: cur), List.reverse_cons]

theorem matchesLine_le_countFrom (cur text : Str) :
    (matchesLine lowercase queryLower cur).toNat ≤ countFrom lowercase queryLower cur text := by
  induction text generalizing cur with
  | nil => exact Nat.le_refl _
  | cons c rest ih =>
    unfold countFrom
    split
    · exact Nat.le_add_right _ _
    · apply Nat.le_trans _ (ih (cur ++ [c]))
      cases hcur : matchesLine lowercase queryLower cur with
      | false => exact Nat.zero_le _
      | true => rw [matchesLine_append hcur]

/-- More text takes no match away. -/
theorem countFrom_le_append (cur text more : Str) :
    countFrom lowercase queryLower cur text ≤
      countFrom lowercase queryLower cur (text ++ more) := by
  induction text generalizing cur with
  | nil => exact matchesLine_le_countFrom cur more
  | cons c rest ih =>
    rw [List.cons_append]
    unfold countFrom
    split
    · exact Nat.add_le_add_left (ih []) _
    · exact ih (cur ++ [c])

end Lines

/-! ## The counter -/

/-- The open line has the text so far, and the counter knows how much of the needle it ends with. -/
structure Searching (needle text : List UInt8) (counter : LineCounter) : Prop where
  searched : Kmp.Searched needle text counter.matched
  flag : counter.matchedLine = (counter.matched == needle.length)

section Counter

variable {queryLower : Str} {text : List UInt8} {counter : LineCounter}

theorem Searching.matchedLine_iff {needle : List UInt8} (h : Searching needle text counter) :
    counter.matchedLine = true ↔ needle <:+: text := by
  rw [h.flag, beq_iff_eq, h.searched.found]

theorem byte_spec (h : Searching (Str.bytes queryLower) text counter)
    (hopen : counter.matchedLine = false) (byte : UInt8) :
    Searching (Str.bytes queryLower) (text ++ [byte])
      (counter.byte (LineMatcher.new queryLower) byte) := by
  refine ⟨h.searched.advance ?_, rfl⟩
  rw [h.flag, beq_eq_false_iff_ne] at hopen
  exact hopen

theorem Searching.append_of_matched (h : Searching (Str.bytes queryLower) text counter)
    (hmatched : counter.matchedLine = true) (more : List UInt8) :
    Searching (Str.bytes queryLower) (text ++ more) counter := by
  refine ⟨h.searched.append_of_found ?_ more, h.flag⟩
  rw [h.flag, beq_iff_eq] at hmatched
  exact hmatched

/-- The loops may stop at a match, since the rest of the line changes nothing. -/
theorem feed_spec (h : Searching (Str.bytes queryLower) text counter)
    (hopen : counter.matchedLine = false) (bytes : List UInt8) :
    Searching (Str.bytes queryLower) (text ++ bytes)
      (counter.feed (LineMatcher.new queryLower) bytes) := by
  induction bytes generalizing text counter with
  | nil =>
    rw [List.append_nil]
    exact h
  | cons byte bytes ih =>
    have hbyte := byte_spec h hopen byte
    unfold LineCounter.feed
    rw [List.append_cons]
    dsimp only
    split
    · next hmatched => exact hbyte.append_of_matched hmatched bytes
    · next hmatched => exact ih hbyte (Bool.eq_false_iff.mpr hmatched)

theorem feed_lines (matcher : LineMatcher) (bytes : List UInt8) :
    (counter.feed matcher bytes).lines = counter.lines ∧
      (counter.feed matcher bytes).sniffedBytes = counter.sniffedBytes := by
  induction bytes generalizing counter with
  | nil => exact ⟨rfl, rfl⟩
  | cons byte bytes ih =>
    unfold LineCounter.feed
    dsimp only
    split
    · exact ⟨rfl, rfl⟩
    · exact ih

end Counter

/-- The text is binary: it has a NUL early on. -/
def hasEarlyNul (text : Str) : Bool := ((Str.bytes text).take textSniffBytes).contains 0

/-- The counter after the text `seen`, whose last line is `cur` and has not ended. -/
structure Counted (lowercase : Lowercase) (queryLower seen cur : Str) (counter : LineCounter) :
    Prop where
  sniffed : counter.sniffedBytes = min (Str.bytes seen).length textSniffBytes
  clean : hasEarlyNul seen = false
  lines : ∀ more, countFrom lowercase queryLower [] (seen ++ more) =
    counter.lines + countFrom lowercase queryLower cur more
  searching : Searching (Str.bytes queryLower) (Str.bytes (lowercase.foldLiteralCase cur)) counter

/-! ## Binary files -/

theorem hasEarlyNul_iff {text : Str} :
    hasEarlyNul text = true ↔ 0 ∈ (Str.bytes text).take textSniffBytes := by
  rw [hasEarlyNul, List.contains_iff_mem]

/-- What comes after a NUL does not take it away. -/
theorem hasEarlyNul_append {text : Str} (h : hasEarlyNul text = true) (more : Str) :
    hasEarlyNul (text ++ more) = true := by
  rw [hasEarlyNul_iff, Str.bytes_append, List.take_append]
  exact List.mem_append_left _ (hasEarlyNul_iff.mp h)

/-- After enough bytes the verdict stands. -/
theorem hasEarlyNul_append_of_le {text : Str} (h : textSniffBytes ≤ (Str.bytes text).length)
    (more : Str) : hasEarlyNul (text ++ more) = hasEarlyNul text := by
  unfold hasEarlyNul
  rw [Str.bytes_append, List.take_append_of_le_length h]

/-- A character is a NUL at an early place, or the text stays clean. -/
theorem hasEarlyNul_snoc {text : Str} (hclean : hasEarlyNul text = false) (c : Char) :
    hasEarlyNul (text ++ [c]) = true ↔
      (Str.bytes text).length < textSniffBytes ∧ c = '\x00' := by
  rw [hasEarlyNul_iff, Str.bytes_append, Str.bytes_singleton, List.take_append, List.mem_append,
    or_iff_right (mt hasEarlyNul_iff.mpr (Bool.eq_false_iff.mp hclean))]
  constructor
  · intro hzero
    refine ⟨?_, Str.zero_mem_utf8EncodeChar (List.mem_of_mem_take hzero)⟩
    by_contra hlong
    rw [Nat.sub_eq_zero_of_le (Nat.le_of_not_lt hlong), List.take_zero] at hzero
    exact List.not_mem_nil hzero
  · rintro ⟨hshort, rfl⟩
    rw [show String.utf8EncodeChar '\x00' = [0] from rfl,
      List.take_of_length_le (by rw [List.length_singleton]; omega)]
    exact List.mem_singleton_self 0

/-! ## One character -/

section Character

variable {lowercase : Lowercase} {queryLower seen cur : Str} {counter : LineCounter}

theorem Counted.matchedLine_eq (h : Counted lowercase queryLower seen cur counter)
    (hquery : queryLower ≠ []) :
    counter.matchedLine = matchesLine lowercase queryLower cur := by
  rw [Bool.eq_iff_iff, h.searching.matchedLine_iff, matchesLine_iff]
  exact Utf8.encode_isInfix_iff hquery

/-- No line has a match from the start. -/
theorem nothing_matched (hquery : queryLower ≠ []) :
    false = (0 == (Str.bytes queryLower).length) := by
  symm
  rw [beq_eq_false_iff_ne, ne_eq, eq_comm, List.length_eq_zero_iff]
  exact fun hempty => hquery (Str.bytes_injective hempty)

/-- Another character of the open line. -/
theorem Counted.extend (h : Counted lowercase queryLower seen cur counter) {c : Char}
    (hc : c ≠ '\n') {next : LineCounter}
    (hsniffed : next.sniffedBytes =
      min (counter.sniffedBytes + c.utf8Size) textSniffBytes)
    (hclean : hasEarlyNul (seen ++ [c]) = false) (hlines : next.lines = counter.lines)
    (hsearching : Searching (Str.bytes queryLower)
      (Str.bytes (lowercase.foldLiteralCase cur) ++ Str.bytes (lowercase.foldLiteralChar c))
      next) :
    Counted lowercase queryLower (seen ++ [c]) (cur ++ [c]) next where
  sniffed := by
    rw [hsniffed, h.sniffed, Str.bytes_append, Str.bytes_singleton, List.length_append,
      String.length_utf8EncodeChar]
    omega
  clean := hclean
  lines := by
    intro more
    rw [List.append_assoc, h.lines, hlines]
    congr 1
    exact if_neg hc
  searching := by
    rw [Lowercase.foldLiteralCase_append, Lowercase.foldLiteralCase_singleton, Str.bytes_append]
    exact hsearching

theorem character_spec (h : Counted lowercase queryLower seen cur counter)
    (hquery : queryLower ≠ []) (c : Char) :
    (counter.character lowercase (LineMatcher.new queryLower) c = none ∧
        hasEarlyNul (seen ++ [c]) = true) ∨
      ∃ next cur', counter.character lowercase (LineMatcher.new queryLower) c = some next ∧
        Counted lowercase queryLower (seen ++ [c]) cur' next := by
  have hnul := hasEarlyNul_snoc h.clean c
  have hsniffing : counter.sniffedBytes < textSniffBytes ↔
      (Str.bytes seen).length < textSniffBytes := by
    rw [h.sniffed, min_lt_iff, or_iff_left (Nat.lt_irrefl _)]
  rw [← hsniffing] at hnul
  unfold LineCounter.character
  split
  · next hbinary => exact .inl ⟨rfl, hnul.mpr hbinary⟩
  next hbinary =>
  have hclean : hasEarlyNul (seen ++ [c]) = false :=
    Bool.eq_false_iff.mpr fun htrue => hbinary (hnul.mp htrue)
  right
  have hsearching : Searching (Str.bytes queryLower) (Str.bytes (lowercase.foldLiteralCase cur))
      { counter with
        sniffedBytes := min (counter.sniffedBytes + c.utf8Size) textSniffBytes } :=
    ⟨h.searching.searched, h.searching.flag⟩
  dsimp only
  split
  · next hnewline =>
    refine ⟨_, [], rfl, ?_, hclean, ?_, Kmp.searched_nil, ?_⟩
    · dsimp only
      rw [h.sniffed, Str.bytes_append, Str.bytes_singleton, List.length_append,
        String.length_utf8EncodeChar]
      omega
    · intro more
      rw [List.append_assoc, h.lines, h.matchedLine_eq hquery, Nat.add_assoc]
      congr 1
      exact if_pos hnewline
    · exact nothing_matched hquery
  next hnewline =>
  split
  · next hmatched =>
    exact ⟨_, _, rfl, h.extend hnewline rfl hclean rfl
      (hsearching.append_of_matched hmatched _)⟩
  next hopen =>
  have hopen := Bool.eq_false_iff.mpr hopen
  split
  · next hascii =>
    refine ⟨_, _, rfl, h.extend hnewline rfl hclean rfl ?_⟩
    have hascii := of_decide_eq_true hascii
    rw [Lowercase.foldLiteralChar_of_ascii lowercase hascii, Str.bytes_singleton,
      (toLower_of_ascii hascii).2]
    exact byte_spec hsearching hopen _
  · refine ⟨_, _, rfl, h.extend hnewline (feed_lines _ _).2 hclean (feed_lines _ _).1 ?_⟩
    exact feed_spec hsearching hopen _

theorem text_spec (h : Counted lowercase queryLower seen cur counter)
    (hquery : queryLower ≠ []) (text : Str) :
    (counter.text lowercase (LineMatcher.new queryLower) text = none ∧
        hasEarlyNul (seen ++ text) = true) ∨
      ∃ next cur', counter.text lowercase (LineMatcher.new queryLower) text = some next ∧
        Counted lowercase queryLower (seen ++ text) cur' next := by
  induction text generalizing seen cur counter with
  | nil =>
    rw [List.append_nil]
    exact .inr ⟨counter, cur, rfl, h⟩
  | cons c text ih =>
    unfold LineCounter.text
    rw [List.append_cons]
    rcases character_spec h hquery c with ⟨hnone, hnul⟩ | ⟨next, cur', hnext, hcounted⟩
    · rw [hnone]
      exact .inl ⟨rfl, hasEarlyNul_append hnul text⟩
    · rw [hnext, Option.bind_some]
      exact ih hcounted

end Character

/-! ## One read -/

theorem errorLen_eq_some {rest : List UInt8} {width : Nat} (h : errorLen rest = some width) :
    Utf8.decode rest = .invalid width := by
  unfold errorLen at h
  split at h
  · next hdecode => rw [hdecode, Option.some.inj h]
  · cases h

theorem errorLen_eq_none {rest : List UInt8} (h : errorLen rest = none)
    (hchar : ∀ c width, Utf8.decode rest ≠ .char c width) : Utf8.decode rest = .incomplete := by
  unfold errorLen at h
  cases hdecode : Utf8.decode rest with
  | char c width => exact absurd hdecode (hchar c width)
  | invalid width =>
    rw [hdecode] at h
    cases h
  | incomplete => rfl

section Decode

variable {lowercase : Lowercase} {queryLower : Str}

/-- The loop takes the characters that decoding the whole file gives, up to those that the next
    read may go on with. -/
theorem decodeBuffer_spec (hquery : queryLower ≠ []) (atEnd : Bool) (fuel : Nat)
    {buffer : List UInt8} (hfuel : buffer.length ≤ fuel) {seen cur : Str} {counter : LineCounter}
    (h : Counted lowercase queryLower seen cur counter) :
    ((LineMatcher.new queryLower).decodeBuffer lowercase atEnd fuel counter buffer = none ∧
        ∀ more, (atEnd = true → more = []) →
          hasEarlyNul (seen ++ Utf8.lossy (buffer ++ more)) = true) ∨
      ∃ next carry text curNext,
        (LineMatcher.new queryLower).decodeBuffer lowercase atEnd fuel counter buffer =
          some (next, carry) ∧
        Counted lowercase queryLower (seen ++ text) curNext next ∧ (atEnd = true → carry = []) ∧
        ∀ more, (atEnd = true → more = []) →
          Utf8.lossy (buffer ++ more) = text ++ Utf8.lossy (carry ++ more) := by
  induction fuel generalizing buffer seen cur counter with
  | zero =>
    obtain rfl := List.length_eq_zero_iff.mp (Nat.le_zero.mp hfuel)
    refine .inr ⟨counter, [], [], cur, rfl, ?_, fun _ => rfl, fun _ _ => rfl⟩
    rw [List.append_nil]
    exact h
  | succ fuel ih =>
    unfold LineMatcher.decodeBuffer
    split
    · next hempty =>
      refine .inr ⟨counter, [], [], cur, rfl, ?_, fun _ => rfl, fun more _ => by rw [hempty]; rfl⟩
      rw [List.append_nil]
      exact h
    next hne =>
    obtain ⟨hsplit, -, hchar⟩ := Utf8.valid_spec buffer
    have hlossy := Utf8.lossy_append buffer
    dsimp only
    generalize (Utf8.valid buffer).1 = valid at *
    generalize (Utf8.valid buffer).2 = rest at *
    have hlength : rest.length ≤ buffer.length := by
      rw [hsplit, List.length_append]
      exact Nat.le_add_left _ _
    rcases text_spec h hquery valid with ⟨hnone, hnul⟩ | ⟨next, curNext, hnext, hcounted⟩
    · rw [hnone]
      refine .inl ⟨rfl, fun more _ => ?_⟩
      rw [hlossy, ← List.append_assoc]
      exact hasEarlyNul_append hnul _
    rw [hnext, Option.bind_some]
    split
    · next hrest =>
      refine .inr ⟨next, [], valid, curNext, rfl, hcounted, fun _ => rfl, fun more _ => ?_⟩
      rw [hlossy, hrest]
    next hrest =>
    cases hlen : errorLen rest with
    | some width =>
      -- The replacement character stands for the sequence, and the loop goes on after it.
      have hinvalid := errorLen_eq_some hlen
      have hwidth := Utf8.decode_eq_invalid_width hinvalid
      have hmore : ∀ more, Utf8.lossy (buffer ++ more) =
          valid ++ ['\uFFFD'] ++ Utf8.lossy (rest.drop width ++ more) := by
        intro more
        rw [hlossy, Utf8.lossy_append_of_invalid hinvalid, List.append_cons]
      dsimp only
      rcases character_spec hcounted hquery '\uFFFD' with
        ⟨hnone, hnul⟩ | ⟨replaced, curReplaced, hreplaced, hcountedReplaced⟩
      · rw [hnone]
        refine .inl ⟨rfl, fun more _ => ?_⟩
        rw [hmore, ← List.append_assoc, ← List.append_assoc]
        exact hasEarlyNul_append hnul _
      · rw [hreplaced, Option.bind_some]
        have hshort : (rest.drop width).length ≤ fuel := by
          rw [List.length_drop]
          omega
        rcases ih hshort hcountedReplaced with
          ⟨hnone, hnul⟩ | ⟨last, carry, text, curLast, hlast, hcountedLast, hcarry, hleft⟩
        · refine .inl ⟨hnone, fun more hend => ?_⟩
          rw [hmore, ← List.append_assoc, ← List.append_assoc]
          exact hnul more hend
        · refine .inr ⟨last, carry, valid ++ ['\uFFFD'] ++ text, curLast, hlast, ?_, hcarry,
            fun more hend => ?_⟩
          · rw [← List.append_assoc, ← List.append_assoc]
            exact hcountedLast
          · rw [hmore, hleft more hend, List.append_assoc (valid ++ ['\uFFFD'])]
    | none =>
      have hincomplete := errorLen_eq_none hlen hchar
      dsimp only
      split
      · next hend =>
        have hlast : ∀ more, (atEnd = true → more = []) →
            Utf8.lossy (buffer ++ more) = valid ++ ['\uFFFD'] := by
          intro more hmore
          rw [hlossy, hmore hend, List.append_nil, Utf8.lossy_of_incomplete hrest hincomplete]
        rcases character_spec hcounted hquery '\uFFFD' with
          ⟨hnone, hnul⟩ | ⟨replaced, curReplaced, hreplaced, hcountedReplaced⟩
        · rw [hnone]
          refine .inl ⟨rfl, fun more hmore => ?_⟩
          rw [hlast more hmore, ← List.append_assoc]
          exact hnul
        · rw [hreplaced]
          refine .inr ⟨replaced, [], valid ++ ['\uFFFD'], curReplaced, rfl, ?_, fun _ => rfl,
            fun more hmore => ?_⟩
          · rw [← List.append_assoc]
            exact hcountedReplaced
          · rw [hlast more hmore, hmore hend, List.append_nil, Utf8.lossy_nil, List.append_nil]
      · next hend =>
        exact .inr ⟨next, rest, valid, curNext, rfl, hcounted, fun h => absurd h hend,
          fun more _ => hlossy more⟩

end Decode

/-! ## All reads -/

/-- The bytes that the reads give. -/
def readBytes {ε : Type} : List (LineRead ε) → List UInt8
  | [] => []
  | .bytes read :: reads => read.val ++ readBytes reads
  | _ :: reads => readBytes reads

/-- What may be said of a text after it was searched. -/
def Answers (lowercase : Lowercase) (queryLower : Str) (stopAfterFirstMatch : Bool) (text : Str) :
    Option LineCount → Prop
  | none => hasEarlyNul text = true
  | some count => hasEarlyNul text = false ∧
    (count = ⟨countFrom lowercase queryLower [] text, false⟩ ∨
      stopAfterFirstMatch = true ∧ count.isLowerBound = true ∧ 0 < count.matchCount ∧
        count.matchCount ≤ countFrom lowercase queryLower [] text)

section Reads

variable {lowercase : Lowercase} {queryLower seen cur : Str} {counter : LineCounter}

theorem Counted.finish_eq (h : Counted lowercase queryLower seen cur counter)
    (hquery : queryLower ≠ []) :
    counter.finish = countFrom lowercase queryLower [] seen := by
  have hlines := h.lines []
  rw [List.append_nil] at hlines
  rw [hlines, LineCounter.finish, h.matchedLine_eq hquery]
  rfl

/-- A search that stops early has seen enough to know that the file is text. -/
theorem Counted.early (h : Counted lowercase queryLower seen cur counter)
    (hquery : queryLower ≠ []) (hsniffed : textSniffBytes ≤ counter.sniffedBytes)
    (hmatch : 0 < counter.lines ∨ counter.matchedLine = true) (more : Str) :
    Answers lowercase queryLower true (seen ++ more) (some ⟨counter.finish, true⟩) := by
  rw [h.sniffed] at hsniffed
  refine ⟨?_, .inr ⟨rfl, rfl, ?_, ?_⟩⟩
  · rw [hasEarlyNul_append_of_le (Nat.le_trans hsniffed (Nat.min_le_left _ _))]
    exact h.clean
  · show 0 < counter.lines + counter.matchedLine.toNat
    rcases hmatch with hlines | hmatched
    · exact Nat.add_pos_left hlines _
    · rw [hmatched]
      exact Nat.succ_pos _
  · show counter.finish ≤ _
    rw [h.finish_eq hquery]
    exact countFrom_le_append [] seen more

theorem countLoop_spec {ε : Type} (hquery : queryLower ≠ []) (stopAfterFirstMatch : Bool)
    (reads : List (LineRead ε)) (hreads : ∀ error, .failed error ∉ reads) (round : Nat)
    (h : Counted lowercase queryLower seen cur counter) (carry : List UInt8) :
    ∃ result, (LineMatcher.new queryLower).countLoop lowercase (fun _ => false)
        stopAfterFirstMatch round counter carry reads = .ok result ∧
      Answers lowercase queryLower stopAfterFirstMatch
        (seen ++ Utf8.lossy (carry ++ readBytes reads)) result := by
  induction reads generalizing seen cur counter carry round with
  | nil =>
    unfold LineMatcher.countLoop
    rw [if_neg (Bool.false_ne_true)]
    rcases decodeBuffer_spec hquery true carry.length (Nat.le_refl _) h with
      ⟨hnone, hnul⟩ | ⟨next, rest, text, curNext, hnext, hcounted, hrest, htext⟩
    · rw [hnone]
      exact ⟨none, rfl, hnul [] fun _ => rfl⟩
    · rw [hnext]
      refine ⟨_, rfl, ?_⟩
      have hall := htext [] fun _ => rfl
      rw [hrest rfl, List.append_nil, List.append_nil, Utf8.lossy_nil, List.append_nil] at hall
      rw [readBytes, List.append_nil, hall]
      exact ⟨hcounted.clean, .inl (by rw [hcounted.finish_eq hquery])⟩
  | cons read reads ih =>
    unfold LineMatcher.countLoop
    rw [if_neg (Bool.false_ne_true)]
    have hmore : ∀ error, .failed error ∉ reads :=
      fun error hmem => hreads error (List.mem_cons_of_mem _ hmem)
    cases read with
    | interrupted => exact ih hmore (round + 1) h carry
    | failed error => exact absurd (List.mem_cons_self) (hreads error)
    | bytes read =>
      rw [readBytes, ← List.append_assoc]
      dsimp only
      rcases decodeBuffer_spec hquery false (carry ++ read.val).length (Nat.le_refl _) h with
        ⟨hnone, hnul⟩ | ⟨next, rest, text, curNext, hnext, hcounted, -, htext⟩
      · rw [hnone]
        exact ⟨none, rfl, hnul _ fun h => absurd h Bool.false_ne_true⟩
      · rw [hnext, htext _ fun h => absurd h Bool.false_ne_true, ← List.append_assoc]
        dsimp only
        split
        · next hstop =>
          rw [hstop.1]
          exact ⟨_, rfl, hcounted.early hquery hstop.2.1 hstop.2.2 _⟩
        · exact ih hmore (round + 1) hcounted rest

theorem counted_new (hquery : queryLower ≠ []) :
    Counted lowercase queryLower [] [] LineCounter.new := by
  exact ⟨rfl, rfl, fun more => (Nat.zero_add _).symm, Kmp.searched_nil, nothing_matched hquery⟩

theorem countLines_answers {ε : Type} (lowercase : Lowercase) (hquery : queryLower ≠ []) (stopAfterFirstMatch : Bool)
    (reads : List (LineRead ε)) (hreads : ∀ error, .failed error ∉ reads) :
    ∃ result, (LineMatcher.new queryLower).countLines lowercase (fun _ => false)
        stopAfterFirstMatch reads = .ok result ∧
      Answers lowercase queryLower stopAfterFirstMatch (Str.fromUtf8Lossy (readBytes reads))
        result :=
  countLoop_spec hquery stopAfterFirstMatch reads hreads 0 (counted_new hquery) []

end Reads

/-- For every file, every query and every way to read the file, the search says that the file is
    binary, or how many of its lines have the query. A search that stops early says the same,
    with a smaller count at most. -/
theorem countLines_eq {ε : Type} (lowercase : Lowercase) (query : Str) (hquery : query ≠ [])
    (hcr : query.getLast? ≠ some '\r') (reads : List (LineRead ε))
    (hreads : ∀ error, .failed error ∉ reads) :
    let content := Str.fromUtf8Lossy (readBytes reads)
    let binary := ((Str.bytes content).take textSniffBytes).contains 0
    let queryLower := lowercase.foldLiteralCase query
    let matching := (Str.lines content).countP fun line =>
      Str.contains (lowercase.foldLiteralCase line) queryLower
    (LineMatcher.new queryLower).countLines lowercase (fun _ => false) false reads =
        .ok (if binary then none else some ⟨matching, false⟩) ∧
      ∃ early, (LineMatcher.new queryLower).countLines lowercase (fun _ => false) true reads =
          .ok early ∧ (early = none ↔ binary = true) ∧
        ∀ count ∈ early, count.matchCount ≤ matching ∧
          (0 < count.matchCount ↔ 0 < matching) ∧
          (count.isLowerBound = false → count.matchCount = matching) := by
  intro content binary queryLower matching
  have hne := lowercase.foldLiteralCase_ne_nil hquery
  have hmatching : countFrom lowercase queryLower [] content = matching :=
    countFrom_eq_countP hne (lowercase.foldLiteralCase_getLast? hcr) [] content
  constructor
  · obtain ⟨result, hresult, hanswer⟩ :=
      countLines_answers lowercase hne false reads hreads
    rw [hresult]
    congr 1
    cases result with
    | none => exact (if_pos hanswer).symm
    | some count =>
      obtain ⟨hclean, hcount | ⟨hfalse, -⟩⟩ := hanswer
      · rw [hcount, ← hmatching]
        exact (if_neg (Bool.eq_false_iff.mp hclean)).symm
      · cases hfalse
  · obtain ⟨result, hresult, hanswer⟩ :=
      countLines_answers lowercase hne true reads hreads
    refine ⟨result, hresult, ?_⟩
    cases result with
    | none => exact ⟨iff_of_true rfl hanswer, fun _ hmem => by cases hmem⟩
    | some count =>
      obtain ⟨hclean, hcount⟩ := hanswer
      refine ⟨iff_of_false (by simp) (Bool.eq_false_iff.mp hclean), ?_⟩
      rintro _ ⟨⟩
      rw [← hmatching]
      rcases hcount with hcount | ⟨-, hbound, hpos, hle⟩
      · rw [hcount]
        exact ⟨Nat.le_refl _, Iff.rfl, fun _ => rfl⟩
      · refine ⟨hle, iff_of_true hpos (Nat.lt_of_lt_of_le hpos hle), fun hexact => ?_⟩
        rw [hbound] at hexact
        cases hexact

/-- `char::to_lowercase` as far as ASCII goes. -/
private def asciiToLowercase : Lowercase where
  toLowercase c := [if c.toNat < 0x80 then c.toLower else c]
  ascii c h := by rw [if_pos h]
  nonempty c := List.cons_ne_nil _ _
  cr c h := by
    rw [List.mem_singleton] at h
    split at h
    · next hascii =>
      exact Str.forall_ascii (p := fun c => '\r' = c.toLower → c = '\r') (by decide +kernel)
        (Nat.le_of_lt_succ hascii) h
    · exact h.symm

/-- The text `xAb`, a carriage return, `éa`, `aB` and a byte that is no UTF-8, with a read that ends
    inside the `é`. -/
private def splitReads : List (LineRead Unit) :=
  [.bytes ⟨[0x78, 0x41], by decide⟩, .bytes ⟨[0x62, 0x0d, 0x0a, 0xc3], by decide⟩, .interrupted,
    .bytes ⟨[0xa9, 0x61, 0x0a, 0x61, 0x42, 0xff], by decide⟩]

theorem countLines_eq_split :
    (LineMatcher.new "ab".toList).countLines asciiToLowercase (fun _ => false) false splitReads =
      .ok (some ⟨2, false⟩) :=
  (countLines_eq asciiToLowercase "aB".toList (by decide) (by decide) splitReads
    (by simp [splitReads])).1

end Ivygrep.Native
