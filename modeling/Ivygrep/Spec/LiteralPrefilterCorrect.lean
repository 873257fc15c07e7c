import Ivygrep.Native.LiteralPrefilter
import Ivygrep.Spec.LiteralLinesCorrect
import Ivygrep.Spec.RegexPrefilterCorrect

/-!
# Soundness of the literal index prefilter

Lines are matched after their characters are folded one by one, but the index has the text in ASCII
lower case. A run of a query is found there all the same: each of its characters is the folding of
one ASCII character.

## Key results

- `substringCandidateRuns_spec`: the runs, and that they can be taken out
- `isInfix_of_isSafe`: a run of a query that a line matches is in the lower-cased line
- `substringCandidateRuns_sound`: a text with a match is a candidate
-/

namespace Ivygrep.Native

/-- What the Unicode tables say of characters above ASCII: only the lower cases of the Kelvin sign
    and of the capital I with dot have ASCII characters. -/
def Lowercase.AsciiOnly (lowercase : Lowercase) : Prop :=
  ∀ c d : Char, ¬ c.toNat ≤ 0x7f → d.toNat ≤ 0x7f → d ∈ lowercase.toLowercase c →
    c = '\u212a' ∧ lowercase.toLowercase c = ['k'] ∨
      c = '\u0130' ∧ lowercase.toLowercase c = ['i', '\u0307']

/-! ## Lines -/

theorem isInfix_of_mem_linesFrom {line : Str} (text cur : Str) (h : line ∈ Str.linesFrom cur text) :
    line <:+: cur.reverse ++ text := by
  induction text generalizing cur with
  | nil =>
    simp only [Str.linesFrom] at h
    split at h
    · cases h
    · rw [List.mem_singleton.mp h, List.append_nil]
  | cons c text ih =>
    simp only [Str.linesFrom] at h
    split at h
    · rcases List.mem_cons.mp h with rfl | h
      · split
        · next cur => exact ⟨[], '\r' :: c :: text, by simp⟩
        · exact (List.prefix_append _ _).isInfix
      · exact (ih [] h).trans ⟨cur.reverse ++ [c], [], by simp⟩
    · simpa using ih (c :: cur) h

/-- A line is part of its text. -/
theorem isInfix_of_mem_lines {line text : Str} (h : line ∈ Str.lines text) : line <:+: text :=
  isInfix_of_mem_linesFrom text [] h

/-! ## Runs -/

/-- A run of letters and digits with what follows it: each of them is only ever folded from itself,
    in one case or the other. -/
def IsSafe : Str → Str → Prop
  | [], _ => True
  | c :: run, rest =>
    c.isAlphanum = true ∧ c ≠ 'k' ∧ (c = 'i' → ∃ next ∈ (run ++ rest).head?, next ≠ '\u0307') ∧
      IsSafe run rest

theorem IsSafe.isAlphanum {run rest : Str} (h : IsSafe run rest) :
    ∀ c ∈ run, c.isAlphanum = true := by
  induction run with
  | nil => simp
  | cons c run ih =>
    intro d hd
    rcases List.mem_cons.mp hd with rfl | hd
    · exact h.1
    · exact ih h.2.2.2 d hd

theorem isAlphanum_charOfByte {byte : UInt8} (h : isAsciiAlphanumeric byte = true) :
    byte < 0x80 ∧ (charOfByte byte).isAlphanum = true ∧
      ((charOfByte byte) = 'k' → byte = 0x6b) ∧ ((charOfByte byte) = 'i' → byte = 0x69) := by
  have hall : ∀ n : Fin 256, isAsciiAlphanumeric (UInt8.ofNat n) = true →
      UInt8.ofNat n < 0x80 ∧ (charOfByte (UInt8.ofNat n)).isAlphanum = true ∧
      (charOfByte (UInt8.ofNat n) = 'k' → UInt8.ofNat n = 0x6b) ∧
      (charOfByte (UInt8.ofNat n) = 'i' → UInt8.ofNat n = 0x69) := by
    decide +kernel
  have := hall ⟨byte.toNat, byte.toNat_lt⟩
  rw [UInt8.ofNat_toNat] at this
  exact this h

/-- Safe bytes of a query are safe characters of it. -/
theorem isSafe_of_bytes {run : Str} (before rest : Str)
    (h : ∀ index, Str.len before ≤ index → index < Str.len before + Str.len run →
      isSafeAt (Str.bytes (before ++ run ++ rest)) index = true) : IsSafe run rest := by
  induction run generalizing before with
  | nil => trivial
  | cons c run ih =>
    have hbytes : Str.bytes (before ++ c :: run ++ rest) =
        Str.bytes before ++ (String.utf8EncodeChar c ++ Str.bytes (run ++ rest)) := by
      simp [Str.bytes]
    have hfirst := h (Str.len before) (Nat.le_refl _) (by
      have := Char.utf8Size_pos c
      rw [Str.len_cons]
      omega)
    obtain ⟨first, more, hencode⟩ : ∃ first more, String.utf8EncodeChar c = first :: more :=
      List.exists_cons_of_ne_nil String.utf8EncodeChar_ne_nil
    have hget : (Str.bytes (before ++ c :: run ++ rest))[Str.len before]? = some first := by
      rw [hbytes, ← Str.length_bytes, List.getElem?_append_right (Nat.le_refl _), hencode]
      simp
    unfold isSafeAt at hfirst
    rw [hget] at hfirst
    simp only [Bool.and_eq_true, Bool.or_eq_true, bne_iff_ne, decide_eq_true_eq,
      Bool.not_eq_true'] at hfirst
    obtain ⟨⟨halnum, hk⟩, hi⟩ := hfirst
    obtain ⟨hascii, hchar, hk', hi'⟩ := isAlphanum_charOfByte halnum
    -- The first byte is ASCII, and so it is the whole character.
    have hc : c.toNat ≤ 0x7f := by
      by_contra hwide
      exact Str.not_ascii_of_mem_utf8EncodeChar hwide first (by simp [hencode]) hascii
    have hone := Str.utf8EncodeChar_of_ascii hc
    obtain ⟨rfl, rfl⟩ := List.cons.inj (hencode.symm.trans hone)
    rw [charOfByte_ofNat hc] at hchar hk' hi'
    refine ⟨hchar, fun h => hk (hk' h), fun h => ?_, ih (before ++ [c]) ?_⟩
    · rcases hi with hi | ⟨hroom, hdot⟩
      · exact absurd (hi' h) hi
      · have hdrop : (Str.bytes (before ++ c :: run ++ rest)).drop (Str.len before + 1) =
            Str.bytes (run ++ rest) := by
          rw [hbytes, hone, ← Str.length_bytes, List.drop_append]
          simp
        cases hnext : run ++ rest with
        | nil =>
          have hempty := congrArg List.length hdrop
          rw [hnext, List.length_drop] at hempty
          simp only [Str.bytes, List.flatMap_nil, List.length_nil] at hempty hroom
          omega
        | cons next more =>
          refine ⟨next, rfl, fun heq => ?_⟩
          rw [hdrop, hnext, heq, Str.bytes_cons, combiningDot, Str.bytes_singleton,
            ← Bool.not_eq_true, List.isPrefixOf_iff_prefix] at hdot
          exact hdot (List.prefix_append _ _)
    · intro index hlow hhigh
      have hsize : c.utf8Size = 1 := Char.utf8Size_eq_one_iff.mpr hc
      rw [List.append_assoc before [c] run, List.singleton_append]
      rw [Str.len_append, Str.len_cons, Str.len_nil] at hlow hhigh
      exact h index (by omega) (by rw [Str.len_cons]; omega)

/-- A part of the query that its runs are: at least three bytes, each of them safe. -/
def IsRun (queryLower run : Str) : Prop :=
  ∃ start stop, Str.slice queryLower start stop = some run ∧ start + 3 ≤ stop ∧
    ∀ index, start ≤ index → index < stop → isSafeAt (Str.bytes queryLower) index = true

theorem IsRun.isSafe {queryLower run : Str} (h : IsRun queryLower run) :
    3 ≤ run.length ∧ ∃ before rest, queryLower = before ++ (run ++ rest) ∧ IsSafe run rest := by
  obtain ⟨start, stop, hslice, hroom, hsafe⟩ := h
  obtain ⟨before, rest, rfl, rfl, rfl⟩ := Str.slice_eq_some.mp hslice
  have hrun := isSafe_of_bytes before rest hsafe
  rw [len_eq_length hrun.isAlphanum] at hroom
  exact ⟨by omega, before, rest, List.append_assoc _ _ _, hrun⟩

/-- What the loop over the bytes keeps, before a round. -/
structure CandidateRuns.Scanned (queryLower : Str) (index : Nat) (state : CandidateRuns) :
    Prop where
  start_le : state.start ≤ index
  safe : ∀ place, state.start ≤ place → place < index →
    isSafeAt (Str.bytes queryLower) place = true
  runs : ∀ run ∈ state.runs, IsRun queryLower run

theorem ascii_of_isSafeAt {bytes : List UInt8} {index : Nat} (h : isSafeAt bytes index = true) :
    ∃ byte, bytes[index]? = some byte ∧ byte < 0x80 := by
  unfold isSafeAt at h
  cases hbyte : bytes[index]? with
  | none =>
    rw [hbyte] at h
    cases h
  | some byte =>
    rw [hbyte, Bool.and_eq_true, Bool.and_eq_true] at h
    exact ⟨byte, rfl, (isAlphanum_charOfByte h.1.1).1⟩

/-- A round can take its run out: what is safe is between character boundaries. -/
theorem CandidateRuns.Scanned.visit {queryLower : Str} {index : Nat} {state : CandidateRuns}
    (h : state.Scanned queryLower index) :
    ∃ next, state.visit queryLower index = some next ∧ next.Scanned queryLower (index + 1) := by
  unfold CandidateRuns.visit
  split
  · next hsafe =>
    refine ⟨state, rfl, Nat.le_succ_of_le h.start_le, fun place hlow hhigh => ?_, h.runs⟩
    rcases Nat.lt_succ_iff_lt_or_eq.mp hhigh with hlt | rfl
    · exact h.safe place hlow hlt
    · exact hsafe
  · -- What comes after is an empty stretch, whatever happens to this one.
    have hempty : ∀ place, index + 1 ≤ place → place < index + 1 →
        isSafeAt (Str.bytes queryLower) place = true := by omega
    split
    · next hroom =>
      obtain ⟨first, hfirst, hascii⟩ :=
        ascii_of_isSafeAt (h.safe state.start (Nat.le_refl _) (by omega))
      obtain ⟨last, hlast, hascii'⟩ := ascii_of_isSafeAt (h.safe (index - 1) (by omega) (by omega))
      have hstop := (Str.isCharBoundary_of_ascii hlast hascii').2
      rw [Nat.sub_add_cancel (by omega)] at hstop
      obtain ⟨run, hrun, -⟩ :=
        Str.exists_slice (Str.isCharBoundary_of_ascii hfirst hascii).1 hstop h.start_le
      rw [hrun]
      refine ⟨_, rfl, Nat.le_refl _, hempty, fun other hother => ?_⟩
      rcases List.mem_append.mp hother with hold | hnew
      · exact h.runs other hold
      · obtain rfl := List.mem_singleton.mp hnew
        exact ⟨state.start, index, hrun, by omega, h.safe⟩
    · exact ⟨_, rfl, Nat.le_refl _, hempty, h.runs⟩

/-- The runs of a query can be taken out, and each of them is one. -/
theorem substringCandidateRuns_spec (queryLower : Str) :
    ∃ runs, substringCandidateRuns queryLower = some runs ∧ ∀ run ∈ runs, IsRun queryLower run := by
  have hrounds : ∀ count, ∃ state, (List.range count).foldlM (CandidateRuns.visit queryLower)
      ⟨[], 0⟩ = some state ∧ state.Scanned queryLower count := by
    intro count
    induction count with
    | zero => exact ⟨⟨[], 0⟩, rfl, Nat.le_refl 0, by omega, by simp⟩
    | succ count ih =>
      obtain ⟨state, hstate, hscanned⟩ := ih
      obtain ⟨next, hnext, hscanned⟩ := hscanned.visit
      refine ⟨next, ?_, hscanned⟩
      rw [List.range_succ, List.foldlM_append, hstate]
      simp [hnext]
  obtain ⟨state, hstate, hscanned⟩ := hrounds ((Str.bytes queryLower).length + 1)
  exact ⟨state.runs, by rw [substringCandidateRuns, hstate]; rfl, hscanned.runs⟩

/-! ## Matches -/

section Folding

variable {lowercase : Lowercase}

/-- An ASCII character of a folding is that of an ASCII character, apart from the two. -/
theorem foldLiteralChar_of_mem (hunicode : lowercase.AsciiOnly) {c d : Char} (hd : d.toNat ≤ 0x7f)
    (h : d ∈ lowercase.foldLiteralChar c) :
    c.toLower = d ∧ lowercase.foldLiteralChar c = [d] ∨
      lowercase.foldLiteralChar c = ['k'] ∨ lowercase.foldLiteralChar c = ['i', '\u0307'] := by
  by_cases hc : c.toNat ≤ 0x7f
  · rw [lowercase.foldLiteralChar_of_ascii (Nat.lt_succ_of_le hc)] at h ⊢
    have hlower := List.mem_singleton.mp h
    exact .inl ⟨hlower.symm, by rw [hlower]⟩
  · obtain ⟨lower, hlower, hsigma⟩ := List.mem_map.mp h
    split at hsigma
    · -- A sigma is not ASCII.
      rw [← hsigma] at hd
      exact absurd hd (by decide)
    · rw [Lowercase.foldLiteralChar]
      rcases hunicode c lower hc (hsigma ▸ hd) hlower with ⟨-, heq⟩ | ⟨-, heq⟩
      · exact .inr (.inl (by rw [heq]; rfl))
      · exact .inr (.inr (by rw [heq]; rfl))

/-- A match that starts with a folded character starts with the run. -/
theorem isPrefix_of_isSafe (hunicode : lowercase.AsciiOnly) {run rest line : Str}
    (hsafe : IsSafe run rest) (h : run ++ rest <+: line.flatMap lowercase.foldLiteralChar) :
    run <+: Str.toAsciiLowercase line := by
  induction run generalizing line with
  | nil => exact List.nil_prefix
  | cons c run ih =>
    obtain ⟨halnum, hk, hi, hrest⟩ := hsafe
    cases line with
    | nil => simp at h
    | cons d line =>
      rw [List.flatMap_cons] at h
      obtain ⟨first, more, hfold⟩ : ∃ first more, lowercase.foldLiteralChar d = first :: more := by
        apply List.exists_cons_of_ne_nil
        simp [Lowercase.foldLiteralChar, lowercase.nonempty d]
      rw [hfold, List.cons_append, List.cons_append] at h
      obtain ⟨rfl, hfollows⟩ := List.cons_prefix_cons.mp h
      have hmem : c ∈ lowercase.foldLiteralChar d := by simp [hfold]
      rcases foldLiteralChar_of_mem hunicode (Str.ascii_of_isAlphanum halnum) hmem
        with ⟨hlower, heq⟩ | heq | heq
      · rw [hfold] at heq
        obtain rfl := (List.cons.inj heq).2
        show c :: run <+: d.toLower :: Str.toAsciiLowercase line
        rw [hlower, List.prefix_cons_inj]
        exact ih hrest hfollows
      · rw [hfold] at heq
        exact absurd (List.cons.inj heq).1 hk
      · -- A capital I with dot would put its dot behind the `i`.
        rw [hfold] at heq
        obtain ⟨rfl, rfl⟩ := List.cons.inj heq
        obtain ⟨next, hnext, hdot⟩ := hi rfl
        cases hfollow : run ++ rest with
        | nil =>
          rw [hfollow] at hnext
          cases hnext
        | cons other more =>
          rw [hfollow] at hfollows hnext
          obtain rfl := Option.some.inj hnext
          exact absurd (List.cons_prefix_cons.mp hfollows).1 hdot

/-- Wherever a match starts, it has the run. -/
theorem isInfix_of_isSafe (hunicode : lowercase.AsciiOnly) {run rest line : Str} (hne : run ≠ [])
    (hsafe : IsSafe run rest) (h : run ++ rest <:+: line.flatMap lowercase.foldLiteralChar) :
    run <:+: Str.toAsciiLowercase line := by
  induction line with
  | nil =>
    rw [List.flatMap_nil, List.infix_nil, List.append_eq_nil_iff] at h
    exact absurd h.1 hne
  | cons d line ih =>
    obtain ⟨before, after, heq⟩ := h
    rw [List.flatMap_cons, List.append_assoc] at heq
    rcases List.append_eq_append_iff.mp heq.symm with
      ⟨middle, hbefore, hline⟩ | ⟨middle, hfold, hmatch⟩
    · exact (ih ⟨middle, after, by rw [hline, List.append_assoc]⟩).trans
        (List.suffix_cons _ _).isInfix
    · cases before with
      | nil =>
        have hprefix : run ++ rest <+: (d :: line).flatMap lowercase.foldLiteralChar :=
          ⟨after, by rw [List.flatMap_cons, ← heq, List.nil_append]⟩
        exact (isPrefix_of_isSafe hunicode hsafe hprefix).isInfix
      | cons skipped before =>
        cases middle with
        | nil => exact (ih ⟨[], after, hmatch⟩).trans (List.suffix_cons _ _).isInfix
        | cons other middle =>
          -- No run starts inside a folded character.
          obtain ⟨c, run, rfl⟩ := List.exists_cons_of_ne_nil hne
          obtain ⟨rfl, -⟩ := List.cons.inj hmatch
          obtain ⟨halnum, -⟩ := hsafe
          have hmem : c ∈ lowercase.foldLiteralChar d := by simp [hfold]
          rcases foldLiteralChar_of_mem hunicode (Str.ascii_of_isAlphanum halnum) hmem
            with ⟨-, hone⟩ | hone | htwo
          · simp [hone] at hfold
          · simp [hone] at hfold
          · -- What is behind the `i` is a dot.
            have hrest : ['\u0307'] = before ++ c :: middle :=
              (List.cons.inj (htwo.symm.trans hfold)).2
            have hdot : c ∈ ['\u0307'] := by
              rw [hrest]
              simp
            rw [List.mem_singleton.mp hdot] at halnum
            exact absurd halnum (by decide)

end Folding

/-! ## Candidates -/

theorem mapM_eq_some {α β : Type} {f : α → Option β} {g : α → β} {l : List α}
    (h : ∀ a ∈ l, f a = some (g a)) : l.mapM f = some (l.map g) := by
  induction l with
  | nil => rfl
  | cons a l ih =>
    rw [List.mapM_cons, h a (by simp), ih fun b hb => h b (List.mem_cons_of_mem _ hb)]
    rfl

/-- Each sampled trigram is in range. -/
theorem slice_of_sampled {run : Str} (hlen : 3 ≤ run.length)
    (halnum : ∀ c ∈ run, c.isAlphanum = true) {offset : Nat} (h : offset ∈ sampledOffsets run) :
    Str.slice run offset (offset + 3) = some ((run.drop offset).take 3) := by
  have hroom := le_of_mem_sampledOffsets h
  have hpart : ∀ part : Str, part <:+: run → Str.len part = part.length :=
    fun part hpart => len_eq_length fun c hc => halnum c (hpart.subset hc)
  rw [hpart run (List.infix_refl _)] at hroom
  refine Str.slice_eq_some.mpr ⟨run.take offset, (run.drop offset).drop 3, ?_, ?_, ?_⟩
  · rw [List.append_assoc, List.take_append_drop, List.take_append_drop]
  · rw [hpart _ (List.take_prefix _ _).isInfix, List.length_take]
    omega
  · rw [hpart _ ((List.take_prefix _ _).isInfix.trans (List.drop_suffix _ _).isInfix),
      List.length_take, List.length_drop]
    omega

theorem sampledOffsets_ne_nil (run : Str) : sampledOffsets run ≠ [] :=
  fun h => List.cons_ne_nil _ _ ((List.destutter_eq_nil _).mp h)

/-- There is a query where there is a run. -/
theorem substringCandidateQuery_eq {runs : List Str}
    (h : ∀ run ∈ runs, 3 ≤ run.length ∧ ∀ c ∈ run, c.isAlphanum = true) :
    substringCandidateQuery runs =
      if runs = [] then none else some (substringCandidateTerms runs) := by
  have hclauses : ((runs.take 3).mapM fun run =>
      (sampledOffsets run).mapM fun offset => Str.slice run offset (offset + 3)) =
        some ((runs.take 3).map fun run =>
          (sampledOffsets run).map fun offset => (run.drop offset).take 3) := by
    apply mapM_eq_some
    intro run hrun
    obtain ⟨hlen, halnum⟩ := h run (List.mem_of_mem_take hrun)
    exact mapM_eq_some fun offset hoffset => slice_of_sampled hlen halnum hoffset
  rw [substringCandidateQuery, hclauses]
  show (if _ then _ else _) = _
  rw [← List.flatMap_def]
  show (if substringCandidateTerms runs = [] then none else some (substringCandidateTerms runs)) = _
  cases runs with
  | nil => rfl
  | cons run runs =>
    rw [if_neg (List.cons_ne_nil _ _), if_neg]
    simp [substringCandidateTerms, sampledOffsets_ne_nil]

/-- A file has its hits on lines that the query matches. -/
theorem exists_line_of_hits {Path : Type} {lowercase : Lowercase} {content queryLower : Str}
    {relPath : Path} {context : Nat} {maxHits : Option Nat}
    (h : literalHitsInContent lowercase content relPath queryLower context maxHits ≠ []) :
    ∃ line ∈ Str.lines content,
      Str.contains (lowercase.foldLiteralCase line) queryLower = true := by
  unfold literalHitsInContent at h
  split at h
  · exact absurd rfl h
  · obtain ⟨hit, hhit⟩ := List.exists_mem_of_ne_nil _ h
    obtain ⟨line, hline, -⟩ := List.mem_map.mp hhit
    obtain ⟨hmem, hmatch⟩ :=
      List.mem_filter.mp ((ForStd.BinaryHeap.takeUpTo_sublist maxHits _).subset hline)
    exact ⟨line.1, List.fst_mem_of_mem_zipIdx hmem, hmatch⟩

/-- A run, or one of its parts, is found again in a line that the query matches. -/
theorem run_of_match {lowercase : Lowercase} (hunicode : lowercase.AsciiOnly)
    {queryLower line run : Str} (hrun : IsRun queryLower run)
    (hmatch : Str.contains (lowercase.foldLiteralCase line) queryLower = true) :
    run <:+: Str.toAsciiLowercase line := by
  rw [Str.contains, decide_eq_true_eq, Lowercase.foldLiteralCase_eq] at hmatch
  obtain ⟨hlen, before, rest, hquery, hsafe⟩ := hrun.isSafe
  rw [hquery] at hmatch
  exact isInfix_of_isSafe hunicode (List.ne_nil_of_length_pos (by omega)) hsafe
    ((List.suffix_append before _).isInfix.trans hmatch)

theorem IsRun.wellFormed {queryLower run : Str} (h : IsRun queryLower run) :
    3 ≤ run.length ∧ ∀ c ∈ run, c.isAlphanum = true := by
  obtain ⟨hlen, _, _, -, hsafe⟩ := h.isSafe
  exact ⟨hlen, hsafe.isAlphanum⟩

/-- A text with a line that the query matches has the trigrams of the runs. -/
theorem trigrams_of_match {lowercase : Lowercase} (hunicode : lowercase.AsciiOnly)
    {queryLower text line run term : Str} (hmem : line ∈ Str.lines text)
    (hmatch : Str.contains (lowercase.foldLiteralCase line) queryLower = true)
    (hrun : IsRun queryLower run) (hterm : term <:+: run) (hlen : term.length = 3) :
    ∃ token ∈ trigramTokens text, token.text = term :=
  exists_token_of_isInfix ((hterm.trans (run_of_match hunicode hrun hmatch)).trans
    ((isInfix_of_mem_lines hmem).map Char.toLower)) hlen
      fun c hc => hrun.wellFormed.2 c (hterm.subset hc)

theorem isCandidate_of_match {lowercase : Lowercase} (hunicode : lowercase.AsciiOnly)
    {queryLower text line : Str} {runs : List Str} (hruns : ∀ run ∈ runs, IsRun queryLower run)
    (hmem : line ∈ Str.lines text)
    (hmatch : Str.contains (lowercase.foldLiteralCase line) queryLower = true) :
    isCandidate runs text = true :=
  isCandidate_of_trigrams (fun run hrun => (hruns run hrun).wellFormed)
    fun run hrun _ hterm hlen => trigrams_of_match hunicode hmem hmatch (hruns run hrun) hterm hlen

/-- The prefilter loses nothing: the runs of a query can be taken out, their trigrams are in range,
    a line that the query matches has each run in ASCII lower case, and a text with that line has
    every trigram of every run. A file with a hit is therefore a candidate. -/
theorem substringCandidateRuns_sound {lowercase : Lowercase} (hunicode : lowercase.AsciiOnly)
    (queryText : Str) :
    let queryLower := lowercase.foldLiteralCase (Str.trim queryText)
    ∃ runs, substringCandidateRuns queryLower = some runs ∧
      substringCandidateQuery runs =
        (if runs = [] then none else some (substringCandidateTerms runs)) ∧
      (∀ text, ∀ line ∈ Str.lines text,
        Str.contains (lowercase.foldLiteralCase line) queryLower = true →
          (∀ run ∈ runs, run <:+: Str.toAsciiLowercase line) ∧
          (∀ run ∈ runs, ∀ term, term <:+: run → term.length = 3 →
            ∃ token ∈ trigramTokens text, token.text = term) ∧
          isCandidate runs text = true) ∧
      ∀ (Path : Type) (relPath : Path) (text : Str) (context : Nat) (maxHits : Option Nat),
        literalHitsInContent lowercase text relPath queryLower context maxHits ≠ [] →
          isCandidate runs text = true := by
  intro queryLower
  obtain ⟨runs, hruns, hspec⟩ := substringCandidateRuns_spec queryLower
  refine ⟨runs, hruns, substringCandidateQuery_eq fun run hrun => (hspec run hrun).wellFormed,
    ?_, ?_⟩
  · intro text line hmem hmatch
    refine ⟨fun run hrun => run_of_match hunicode (hspec run hrun) hmatch, ?_,
      isCandidate_of_match hunicode hspec hmem hmatch⟩
    intro run hrun term hterm hlen
    exact trigrams_of_match hunicode hmem hmatch (hspec run hrun) hterm hlen
  · intro Path relPath text context maxHits hhits
    obtain ⟨line, hmem, hmatch⟩ := exists_line_of_hits hhits
    exact isCandidate_of_match hunicode hspec hmem hmatch

/-- Lowercase of the ASCII letters, the Kelvin sign and the capital I with dot. -/
private def sampleToLowercase (c : Char) : Str :=
  if c = '\u0130' then ['i', '\u0307']
  else [if c = '\u212a' then 'k' else if c.toNat < 0x80 then c.toLower else c]

private theorem sampleToLowercase_ascii (c : Char) (h : c.toNat < 0x80) :
    sampleToLowercase c = [c.toLower] := by
  unfold sampleToLowercase
  rw [if_neg, if_neg, if_pos h]
  · rintro rfl
    exact absurd h (by decide)
  · rintro rfl
    exact absurd h (by decide)

private theorem sampleToLowercase_ne_nil (c : Char) : sampleToLowercase c ≠ [] := by
  unfold sampleToLowercase
  split <;> simp

private theorem sampleToLowercase_cr (c : Char) (h : '\r' ∈ sampleToLowercase c) : c = '\r' := by
  unfold sampleToLowercase at h
  split at h
  · simp at h
  · rw [List.mem_singleton] at h
    split at h
    · cases h
    · split at h
      · next hascii =>
        exact Str.forall_ascii (p := fun c => '\r' = c.toLower → c = '\r') (by decide +kernel)
          (Nat.le_of_lt_succ hascii) h
      · exact h.symm

private def lowercaseSample : Lowercase :=
  ⟨sampleToLowercase, sampleToLowercase_ascii, sampleToLowercase_ne_nil, sampleToLowercase_cr⟩

private theorem lowercaseSample_asciiOnly : lowercaseSample.AsciiOnly := by
  intro c d hc hd h
  simp only [lowercaseSample, sampleToLowercase] at h ⊢
  by_cases hdot : c = '\u0130'
  · exact .inr ⟨hdot, if_pos hdot⟩
  · rw [if_neg hdot, List.mem_singleton] at h
    rw [if_neg hdot]
    by_cases hkelvin : c = '\u212a'
    · exact .inl ⟨hkelvin, by rw [if_pos hkelvin]⟩
    · rw [if_neg hkelvin, if_neg (by omega)] at h
      exact absurd (h ▸ hd) hc

/-- `İstan` matches the second line, which is folded as the query is, and has `stan`. -/
theorem substringCandidateRuns_sound_istan :
    isCandidate ["stan".toList] "-\nİSTANBUL".toList = true := by
  obtain ⟨runs, hruns, -, hline, -⟩ :=
    substringCandidateRuns_sound lowercaseSample_asciiOnly " İstan".toList
  have hstan : substringCandidateRuns (lowercaseSample.foldLiteralCase (Str.trim " İstan".toList)) =
      some ["stan".toList] := by
    decide +kernel
  obtain rfl := Option.some.inj (hruns.symm.trans hstan)
  exact (hline "-\nİSTANBUL".toList "İSTANBUL".toList (by decide +kernel) (by decide +kernel)).2.2

end Ivygrep.Native
