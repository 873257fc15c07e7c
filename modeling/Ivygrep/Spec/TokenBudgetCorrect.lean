import Mathlib.Data.List.DropRight
import Ivygrep.ForStd.List
import Ivygrep.Native.TokenBudget
import Ivygrep.Spec.StrCorrect

/-!
# Token estimates and truncated texts

How a word between blanks enters the estimate of a text, and that a truncated text is, up to the
blanks at its ends, a range of the lines of the text it is made from.
-/

namespace Ivygrep.Native

theorem saturatingAdd_le (left right : Nat) : saturatingAdd left right ≤ 2 ^ 64 - 1 :=
  Nat.min_le_right _ _

/-! ## A word in a text -/

namespace TokenCount

/-- The estimate from the two sums. -/
def rounded (calibrated conservative : Nat) : Nat :=
  saturatingAdd (divCeil (saturatingMul calibrated 3) 5) conservative

theorem rounded_le (calibrated conservative : Nat) :
    rounded calibrated conservative ≤ 2 ^ 64 - 1 :=
  saturatingAdd_le _ _

theorem rounded_mono {low high : Nat} (h : low ≤ high) (conservative : Nat) :
    rounded low conservative ≤ rounded high conservative := by
  unfold rounded saturatingAdd divCeil saturatingMul
  omega

/-- One unit more is at most one token more. -/
theorem rounded_succ_le (calibrated conservative : Nat) :
    rounded (calibrated + 1) conservative ≤ rounded calibrated conservative + 1 := by
  unfold rounded saturatingAdd divCeil saturatingMul
  omega

theorem foldl_step_cls (text : Str) (c : Char) (count : TokenCount) :
    ((text ++ [c]).foldl step count).cls = some (tokenClass c) := by
  rw [List.foldl_append, List.foldl_cons, List.foldl_nil]
  unfold step
  split
  · assumption
  · rfl

/-- A run of one class after another class. -/
theorem foldl_step_run {cls : TokenClass} (word : Str) (hne : word ≠ [])
    (hword : ∀ c ∈ word, tokenClass c = cls) (count : TokenCount) (hcls : count.cls ≠ some cls) :
    word.foldl step count =
      ⟨count.calibrated + (flush count.cls count.run).1,
        count.conservative + (flush count.cls count.run).2, some cls, word.length⟩ := by
  induction word using List.reverseRecOn with
  | nil => exact absurd rfl hne
  | append_singleton word c ih =>
    have hc : tokenClass c = cls := hword c (by simp)
    rw [List.foldl_append, List.foldl_cons, List.foldl_nil]
    cases hempty : word with
    | nil => simp [step, hc, hcls]
    | cons first rest =>
      rw [← hempty, ih (by simp [hempty]) fun d hd => hword d (List.mem_append_left _ hd)]
      simp [step, hc]

/-- What was counted before only adds to the sum. -/
theorem foldl_step_add (text : Str) (count : TokenCount) (more : Nat) :
    text.foldl step { count with calibrated := count.calibrated + more } =
      { text.foldl step count with
        calibrated := (text.foldl step count).calibrated + more } := by
  induction text generalizing count with
  | nil => rfl
  | cons c text ih =>
    have hstep : step { count with calibrated := count.calibrated + more } c =
        { step count c with calibrated := (step count c).calibrated + more } := by
      unfold step
      split
      · rfl
      · simp only [TokenCount.mk.injEq, and_true]
        exact Nat.add_right_comm ..
    rw [List.foldl_cons, hstep, ih, List.foldl_cons]

end TokenCount

/-- A word between two blanks counts by its length, whatever is around it. -/
theorem estimateTokens_word (before after : Str) : ∃ calibrated conservative, ∀ word : Str,
    word ≠ [] → (∀ c ∈ word, tokenClass c = .word) →
      estimateTokens (before ++ [' '] ++ word ++ ' ' :: after) =
        TokenCount.rounded (calibrated + divCeil word.length 4) conservative := by
  have hspace : tokenClass ' ' = .space := by decide
  let first := (before ++ [' ']).foldl TokenCount.step TokenCount.start
  let second : TokenCount :=
    ⟨first.calibrated + (TokenCount.flush first.cls first.run).1,
      first.conservative + (TokenCount.flush first.cls first.run).2, some .space, 1⟩
  let last := after.foldl TokenCount.step second
  refine ⟨last.calibrated + (TokenCount.flush last.cls last.run).1,
    last.conservative + (TokenCount.flush last.cls last.run).2, fun word hne hword => ?_⟩
  have hfirst : first.cls ≠ some .word := by
    rw [show first.cls = some (tokenClass ' ') from TokenCount.foldl_step_cls before ' ' _, hspace]
    decide
  have hsecond : TokenCount.step (word.foldl TokenCount.step first) ' ' =
      { second with calibrated := second.calibrated + divCeil word.length 4 } := by
    rw [TokenCount.foldl_step_run word hne hword first hfirst]
    simp [TokenCount.step, hspace, second, TokenCount.flush]
  unfold estimateTokens
  rw [List.foldl_append, List.foldl_append, List.foldl_cons]
  show (after.foldl TokenCount.step (TokenCount.step (word.foldl TokenCount.step first) ' ')).finish = _
  rw [hsecond, TokenCount.foldl_step_add]
  show TokenCount.rounded (last.calibrated + divCeil word.length 4 +
    (TokenCount.flush last.cls last.run).1) _ = _
  rw [Nat.add_right_comm]

/-! ## Lines -/

/-- Equal but for carriage returns at the end, which `lines` may take from a line. -/
def SameLine (raw line : Str) : Prop :=
  raw.rdropWhile (· = '\r') = line.rdropWhile (· = '\r')

theorem SameLine.symm {raw line : Str} (h : SameLine raw line) : SameLine line raw := Eq.symm h

theorem SameLine.trans {first second third : Str} (h : SameLine first second)
    (h' : SameLine second third) : SameLine first third := Eq.trans h h'

theorem sameLine_append_return (line : Str) : SameLine (line ++ ['\r']) line :=
  List.rdropWhile_concat_pos _ _ _ rfl

/-- The text is made of these lines, with or without a newline after the last one. -/
def IsText (text : Str) (lines : List Str) : Prop :=
  ∃ raw ending, text.splitOn '\n' = raw ++ ending ∧ List.Forall₂ SameLine raw lines ∧
    (ending = [] ∨ ending = [[]])

/-- The text is made of these lines, but for blanks at its ends. -/
def ShowsLines (preview : Str) (shown : List Str) : Prop :=
  ∃ raw, List.Forall₂ SameLine raw shown ∧ preview = Str.trim (Str.join ['\n'] raw)

namespace Str

theorem join_splitOn (text : Str) : join ['\n'] (text.splitOn '\n') = text :=
  List.intercalate_splitOn '\n'

theorem splitOn_join {lines : List Str} (hne : lines ≠ []) (h : ∀ line ∈ lines, '\n' ∉ line) :
    (join ['\n'] lines).splitOn '\n' = lines :=
  List.splitOn_intercalate '\n' h hne

theorem splitOn_append_newline (before after : Str) :
    (before ++ '\n' :: after).splitOn '\n' = before.splitOn '\n' ++ after.splitOn '\n' :=
  List.splitOn_append_cons_self before after

theorem length_splitOn (text : Str) :
    (text.splitOn '\n').length = text.count '\n' + 1 := by
  induction text with
  | nil => rfl
  | cons c text ih =>
    by_cases hc : c = '\n'
    · rw [hc, ← List.nil_append ('\n' :: text), splitOn_append_newline, List.length_append, ih]
      simp [Nat.add_comm]
    · rw [List.splitOn_cons_eq_if_modifyHead, if_neg (by simpa using hc), List.length_modifyHead, ih,
        List.count_cons_of_ne hc]

/-- The lines of a text are its pieces between newlines, without an empty one at the end. -/
theorem linesFrom_splitOn (text cur : Str) (hcur : '\n' ∉ cur) : ∃ raw ending,
    (cur.reverse ++ text).splitOn '\n' = raw ++ ending ∧
      List.Forall₂ SameLine raw (linesFrom cur text) ∧
        (ending = [] ∧ raw.getLast? ≠ some [] ∨ ending = [[]]) := by
  have hsingle : ∀ line : Str, '\n' ∉ line → line.splitOn '\n' = [line] :=
    fun line hline => List.splitOn_eq_singleton hline
  induction text generalizing cur with
  | nil =>
    rw [List.append_nil, hsingle _ (by simpa using hcur), linesFrom]
    split
    · next hempty =>
      rw [List.isEmpty_iff.mp hempty]
      exact ⟨[], [[]], rfl, .nil, .inr rfl⟩
    · next hempty =>
      refine ⟨[cur.reverse], [], rfl, .cons rfl .nil, .inl ⟨rfl, fun hlast => hempty ?_⟩⟩
      simpa using hlast
  | cons c text ih =>
    by_cases hc : c = '\n'
    · obtain ⟨raw, ending, hsplit, hsame, hending⟩ := ih [] (by simp)
      rw [List.reverse_nil, List.nil_append] at hsplit
      refine ⟨cur.reverse :: raw, ending, ?_, ?_, ?_⟩
      · rw [hc, splitOn_append_newline, hsingle _ (by simpa using hcur), hsplit]
        rfl
      · unfold linesFrom
        rw [if_pos hc]
        apply List.Forall₂.cons _ hsame
        split
        · rw [List.reverse_cons]
          exact sameLine_append_return _
        · rfl
      · apply hending.imp_left
        rintro ⟨hnil, hlast⟩
        have hraw : raw ≠ [] := by
          rw [hnil, List.append_nil] at hsplit
          exact hsplit ▸ List.splitOn_ne_nil _ _
        obtain ⟨first, rest, rfl⟩ := List.exists_cons_of_ne_nil hraw
        exact ⟨hnil, by rwa [List.getLast?_cons_cons]⟩
    · obtain ⟨raw, ending, hsplit, hsame, hending⟩ := ih (c :: cur) (by
        rw [List.mem_cons, not_or]
        exact ⟨Ne.symm hc, hcur⟩)
      unfold linesFrom
      rw [if_neg hc]
      refine ⟨raw, ending, ?_, hsame, hending⟩
      rw [← hsplit, List.reverse_cons, List.append_assoc, List.singleton_append]

theorem lines_splitOn (text : Str) : ∃ raw ending, text.splitOn '\n' = raw ++ ending ∧
    List.Forall₂ SameLine raw (lines text) ∧
      (ending = [] ∧ raw.getLast? ≠ some [] ∨ ending = [[]]) := by
  have h := linesFrom_splitOn text [] (by simp)
  rwa [List.reverse_nil, List.nil_append] at h

theorem isText_lines (text : Str) : IsText text (lines text) := by
  obtain ⟨raw, ending, hsplit, hsame, hending⟩ := lines_splitOn text
  exact ⟨raw, ending, hsplit, hsame, hending.imp_left And.left⟩

theorem isText_join {lines : List Str} (hne : lines ≠ []) (h : ∀ line ∈ lines, '\n' ∉ line) :
    IsText (join ['\n'] lines) lines :=
  ⟨lines, [], by rw [splitOn_join hne h, List.append_nil], List.forall₂_same.mpr fun _ _ => rfl,
    .inl rfl⟩

/-- The lines that `lines` finds are the first ones; it may leave out an empty one at the end. -/
theorem lines_sameLine {text : Str} {source : List Str} (h : IsText text source) :
    List.Forall₂ SameLine (lines text) (source.take (lines text).length) := by
  obtain ⟨raw, ending, hsplit, hsame, hending⟩ := h
  obtain ⟨found, last, hfound, hlines, hlast⟩ := lines_splitOn text
  have hprefix : found <+: raw := by
    rw [hsplit] at hfound
    rcases hlast with ⟨rfl, hlast⟩ | rfl
    · rcases hending with rfl | rfl
      · rw [List.append_nil, List.append_nil] at hfound
        exact hfound ▸ List.prefix_refl _
      · rw [List.append_nil] at hfound
        rw [← hfound, List.getLast?_concat] at hlast
        exact absurd rfl hlast
    · rcases hending with rfl | rfl
      · rw [List.append_nil] at hfound
        exact hfound ▸ List.prefix_append _ _
      · exact List.append_cancel_right hfound ▸ List.prefix_refl _
  have htake := List.forall₂_take found.length hsame
  rw [← List.prefix_iff_eq_take.mp hprefix, hlines.length_eq] at htake
  have hfound : List.Forall₂ SameLine (lines text) found :=
    (hlines.imp fun _ _ => SameLine.symm).flip
  exact ForStd.forall₂_trans (R := SameLine) (fun _ _ _ => SameLine.trans) hfound htake

/-- What follows a text goes on its last line. -/
theorem splitOn_last (text : Str) : ∃ lines last, '\n' ∉ last ∧
    (∀ after : Str, (text ++ after).splitOn '\n' = lines ++ (last ++ after).splitOn '\n') ∧
    lines.length = text.count '\n' ∧ (text = last ∨ ∃ before, text = before ++ '\n' :: last) := by
  by_cases h : '\n' ∈ text
  · obtain ⟨reversed, rest, hsplit, hlast⟩ := List.eq_append_cons_of_mem (List.mem_reverse.mpr h)
    have htext : text = rest.reverse ++ '\n' :: reversed.reverse := by
      rw [← List.reverse_reverse text, hsplit]
      simp
    have hlast : '\n' ∉ reversed.reverse := by simpa using hlast
    refine ⟨rest.reverse.splitOn '\n', reversed.reverse, hlast, ?_, ?_,
      .inr ⟨rest.reverse, htext⟩⟩
    · intro after
      rw [htext, List.append_assoc, List.cons_append, splitOn_append_newline]
    · rw [length_splitOn, htext, List.count_append, List.count_cons_self,
        List.count_eq_zero.mpr hlast]
  · exact ⟨[], text, h, fun _ => rfl, (List.count_eq_zero.mpr h).symm, .inl rfl⟩

/-- What stands before a text goes on its first line. -/
theorem splitOn_first (text : Str) : ∃ first lines, '\n' ∉ first ∧ first <+: text ∧
    (∀ before : Str, (before ++ text).splitOn '\n' = (before ++ first).splitOn '\n' ++ lines) ∧
    (lines = [] → text = first) := by
  by_cases h : '\n' ∈ text
  · obtain ⟨first, rest, rfl, hfirst⟩ := List.eq_append_cons_of_mem h
    refine ⟨first, rest.splitOn '\n', hfirst, List.prefix_append _ _, ?_, ?_⟩
    · intro before
      rw [← List.append_assoc, splitOn_append_newline]
    · intro hnil
      exact absurd hnil (List.splitOn_ne_nil _ _)
  · exact ⟨text, [], h, List.prefix_refl _, fun _ => (List.append_nil _).symm, fun _ => rfl⟩

/-- A text whose last piece is empty ends with a newline. -/
theorem eq_of_splitOn_nil {text : Str} {lines : List Str}
    (h : text.splitOn '\n' = lines ++ [[]]) : text = [] ∨ ∃ before, text = before ++ ['\n'] := by
  obtain ⟨before, last, hlast, hsplit, -, htext⟩ := splitOn_last text
  have hsplit := hsplit []
  rw [List.append_nil, List.append_nil, h, List.splitOn_eq_singleton hlast] at hsplit
  obtain ⟨-, hnil⟩ := List.append_inj' hsplit rfl
  obtain rfl : [] = last := by simpa using hnil
  exact htext

/-! ## Trimming -/

/-- The blanks before and after the trimmed text. -/
theorem eq_append_trim (text : Str) : ∃ trailing,
    text = text.takeWhile isWhitespace ++ trim text ++ trailing ∧
      ∀ c ∈ trailing, isWhitespace c = true := by
  refine ⟨(trimStart text).rtakeWhile isWhitespace, ?_, fun c hc => ?_⟩
  · rw [List.append_assoc, trim, List.rdropWhile_append_rtakeWhile]
    exact List.takeWhile_append_dropWhile.symm
  · exact List.mem_rtakeWhile_imp hc

/-- Neither a trimmed text nor what follows it on its last line ends with a newline. -/
theorem not_newline_end_of_trim {text before after rest : Str} (h : trim text = text)
    (hne : text ≠ []) (hafter : '\n' ∉ after) (heq : rest ++ text ++ after = before ++ ['\n']) :
    False := by
  rcases List.eq_nil_or_concat after with rfl | ⟨others, c, hconcat⟩
  · have hlast : ∀ hl : text ≠ [], ¬ isWhitespace (text.getLast hl) = true := by
      apply List.rdropWhile_eq_self_iff.mp
      have hstart := trimStart_trim text
      rw [h] at hstart
      rwa [trim, hstart] at h
    have hgetLast : text.getLast hne = '\n' := by
      have hend := congrArg List.getLast? heq
      rw [List.append_nil, List.getLast?_append_of_ne_nil _ hne, List.getLast?_concat,
        List.getLast?_eq_some_getLast hne] at hend
      exact Option.some.inj hend
    exact hlast hne (by rw [hgetLast]; decide)
  · rw [hconcat, List.concat_eq_append, ← List.append_assoc] at heq
    obtain ⟨-, hc⟩ := List.append_inj' heq rfl
    obtain rfl : c = '\n' := by simpa using hc
    exact hafter (by simp [hconcat])

/-- The pieces that the trimmed text goes through. An empty piece at the end is not one of them. -/
theorem trim_splitOn {text : Str} (hne : trim text ≠ []) :
    let skipped := (text.takeWhile isWhitespace).count '\n'
    let count := (trim text).count '\n' + 1
    let shown := ((text.splitOn '\n').drop skipped).take count
    shown.length = count ∧ trim (join ['\n'] shown) = trim text ∧
      ∀ raw ending, text.splitOn '\n' = raw ++ ending → ending = [] ∨ ending = [[]] →
        skipped + count ≤ raw.length := by
  intro skipped count shown
  obtain ⟨trailing, htext, htrailing⟩ := eq_append_trim text
  obtain ⟨lines, last, hlast, hlines, hskipped, hlead⟩ :=
    splitOn_last (text.takeWhile isWhitespace)
  obtain ⟨first, rest, hfirst, hprefix, hrest, hall⟩ := splitOn_first trailing
  have hsplit : text.splitOn '\n' = lines ++ (last ++ trim text ++ first).splitOn '\n' ++ rest :=
    calc text.splitOn '\n'
      _ = (text.takeWhile isWhitespace ++ (trim text ++ trailing)).splitOn '\n' := by
        rw [← List.append_assoc]
        exact congrArg _ htext
      _ = lines ++ (last ++ trim text ++ trailing).splitOn '\n' := by
        rw [hlines, List.append_assoc]
      _ = lines ++ (last ++ trim text ++ first).splitOn '\n' ++ rest := by
        rw [hrest, List.append_assoc lines]
  have hcount : ((last ++ trim text ++ first).splitOn '\n').length = count := by
    rw [length_splitOn, List.count_append, List.count_append, List.count_eq_zero.mpr hlast,
      List.count_eq_zero.mpr hfirst, Nat.zero_add, Nat.add_zero]
  have hshown : shown = (last ++ trim text ++ first).splitOn '\n' := by
    show ((text.splitOn '\n').drop skipped).take count = _
    rw [hsplit, List.append_assoc, List.drop_left' hskipped, List.take_left' hcount]
  have hblank : ∀ c ∈ last, isWhitespace c = true := by
    intro c hc
    apply List.mem_takeWhile_imp (l := text)
    rcases hlead with hlead | ⟨before, hlead⟩
    · rw [hlead]
      exact hc
    · rw [hlead]
      exact List.mem_append_right _ (List.mem_cons_of_mem _ hc)
  refine ⟨hshown ▸ hcount, ?_, ?_⟩
  · rw [hshown, join_splitOn]
    exact trim_between _ _ hblank (fun c hc => htrailing c (List.IsPrefix.subset hprefix hc))
      (trim_trim text) hne
  · intro raw ending hraw hending
    have hlength := congrArg List.length hraw
    rw [hsplit, List.length_append, List.length_append, List.length_append, hcount] at hlength
    rcases hending with rfl | rfl
    · rw [List.length_nil] at hlength
      omega
    · -- The text ends with a newline, which is not part of the trimmed text.
      have hrest : rest ≠ [] := by
        intro hnil
        rcases eq_of_splitOn_nil hraw with rfl | ⟨before, hend⟩
        · exact hne rfl
        · have hend : text.takeWhile isWhitespace ++ trim text ++ first = before ++ ['\n'] := by
            rw [← hall hnil]
            exact htext.symm.trans hend
          exact not_newline_end_of_trim (trim_trim text) hne hfirst hend
      have hpos := List.length_pos_iff.mpr hrest
      rw [List.length_singleton] at hlength
      omega

/-- A trimmed text has as many lines as pieces. -/
theorem length_lines_trim {text : Str} (hne : trim text ≠ []) :
    (lines (trim text)).length = (trim text).count '\n' + 1 := by
  obtain ⟨raw, ending, hsplit, hsame, hending⟩ := lines_splitOn (trim text)
  have hlength := congrArg List.length hsplit
  rw [length_splitOn, List.length_append, hsame.length_eq] at hlength
  rcases hending with ⟨rfl, -⟩ | rfl
  · exact hlength.symm
  · rcases eq_of_splitOn_nil hsplit with hnil | ⟨before, hend⟩
    · exact absurd hnil hne
    · apply False.elim
      have hend : [] ++ trim text ++ [] = before ++ ['\n'] := by simpa using hend
      exact not_newline_end_of_trim (trim_trim text) hne List.not_mem_nil hend

end Str

/-! ## Truncation -/

namespace TaskWords

theorem bestLine_lt {words : TaskWords} {lines : List Str} {index score : Nat}
    (h : words.bestLine lines = some (index, score)) : index < lines.length := by
  induction lines generalizing index score with
  | nil => cases h
  | cons line lines ih =>
    rw [List.length_cons]
    unfold bestLine at h
    split at h
    · cases h
      exact Nat.succ_pos _
    · next hbest =>
      split at h
      · cases h
        exact Nat.succ_pos _
      · cases h
        exact Nat.succ_lt_succ (ih hbest)

theorem focus_lt (words : TaskWords) {lines : List Str} (h : lines ≠ []) :
    words.focus lines < lines.length := by
  unfold focus
  cases hbest : words.bestLine lines with
  | none =>
    have hpos := List.length_pos_iff.mpr h
    exact Nat.div_lt_self hpos (by decide)
  | some best => exact bestLine_lt hbest

end TaskWords

theorem linePrefix_isPrefix (budget : Nat) (output rest : Str) :
    linePrefix budget output rest <+: output ++ rest := by
  induction rest generalizing output with
  | nil => rw [linePrefix, List.append_nil]
  | cons c rest ih =>
    unfold linePrefix
    split
    · exact List.prefix_append _ _
    · have h := ih (output ++ [c])
      rwa [List.append_assoc, List.singleton_append] at h

section Widen

variable {lines : List Str} {budget : Nat} {range : Nat × Nat}

theorem widenOnce_range (budget : Nat) (h : range.1 < range.2 ∧ range.2 ≤ lines.length) :
    (widenOnce lines budget range).1 ≤ range.1 ∧ range.2 ≤ (widenOnce lines budget range).2 ∧
      (widenOnce lines budget range).2 ≤ lines.length := by
  unfold widenOnce
  dsimp only
  refine ⟨?_, ?_, ?_⟩
  · split <;> split <;> omega
  · split <;> omega
  · split
    · next hfits => exact hfits.1
    · exact h.2

theorem widen_range (rounds : Nat) (h : range.1 < range.2 ∧ range.2 ≤ lines.length) :
    (widen lines budget rounds range).1 < (widen lines budget rounds range).2 ∧
      (widen lines budget rounds range).2 ≤ lines.length := by
  induction rounds generalizing range with
  | zero => exact h
  | succ rounds ih =>
    unfold widen
    split
    · exact h
    · have hrange := widenOnce_range budget h
      exact ih ⟨by omega, hrange.2.2⟩

/-- The loop has ended: one more round changes nothing. -/
theorem widenOnce_widen (rounds : Nat) (h : range.1 < range.2 ∧ range.2 ≤ lines.length)
    (hrounds : lines.length ≤ rounds + (range.2 - range.1)) :
    widenOnce lines budget (widen lines budget rounds range) = widen lines budget rounds range := by
  induction rounds generalizing range with
  | zero =>
    have hrange := widenOnce_range budget h
    have hfull : range.1 = 0 ∧ range.2 = lines.length := by omega
    exact Prod.ext (by show (widenOnce lines budget range).1 = range.1; omega)
      (by show (widenOnce lines budget range).2 = range.2; omega)
  | succ rounds ih =>
    unfold widen
    split
    · assumption
    · next hchanged =>
      have hrange := widenOnce_range budget h
      apply ih ⟨by omega, hrange.2.2⟩
      have hwider : (widenOnce lines budget range).1 ≠ range.1 ∨
          (widenOnce lines budget range).2 ≠ range.2 := by
        by_contra hsame
        rw [not_or, not_not, not_not] at hsame
        exact hchanged (Prod.ext hsame.1 hsame.2)
      omega

end Widen

/-- What a preview shows of the lines from `offset` on: all of them, or the beginning of a single
    line over the budget. -/
def PreviewOf (lines : List Str) (budget : Nat) (preview : Str) (offset : Nat) : Prop :=
  let shown := (lines.drop offset).take (Str.lines preview).length
  shown.length = (Str.lines preview).length ∧
    (ShowsLines preview shown ∨
      ∃ raw line part, shown = [line] ∧ SameLine raw line ∧ budget < estimateTokens raw ∧
        part <+: raw ∧ preview = Str.trim part)

/-- All lines of a text, or of a range of them, that its trimmed form goes through. -/
theorem previewOf_trim (lines : List Str) (budget first : Nat) {text : Str}
    {raw ending : List Str} (hne : Str.trim text ≠ []) (hsplit : text.splitOn '\n' = raw ++ ending)
    (hending : ending = [] ∨ ending = [[]])
    (hsame : List.Forall₂ SameLine raw ((lines.drop first).take raw.length)) :
    PreviewOf lines budget (Str.trim text)
      (first + (text.takeWhile isWhitespace).count '\n') := by
  obtain ⟨hlength, htrim, hends⟩ := Str.trim_splitOn hne
  have hle := hends raw ending hsplit hending
  have hcount := Str.length_lines_trim hne
  -- The pieces that are shown are among those of the lines.
  have hraw : ((text.splitOn '\n').drop ((text.takeWhile isWhitespace).count '\n')).take
      (Str.lines (Str.trim text)).length =
      (raw.drop ((text.takeWhile isWhitespace).count '\n')).take
        (Str.lines (Str.trim text)).length := by
    rw [hsplit, List.drop_append_of_le_length (by omega),
      List.take_append_of_le_length (by rw [List.length_drop]; omega)]
  have hshown : ((((lines.drop first).take raw.length).drop
      ((text.takeWhile isWhitespace).count '\n')).take (Str.lines (Str.trim text)).length) =
      (lines.drop (first + (text.takeWhile isWhitespace).count '\n')).take
        (Str.lines (Str.trim text)).length := by
    rw [List.drop_take, List.take_take, List.drop_drop, Nat.min_eq_left (by omega)]
  have hforall := List.forall₂_take (Str.lines (Str.trim text)).length
    (List.forall₂_drop ((text.takeWhile isWhitespace).count '\n') hsame)
  rw [hshown] at hforall
  rw [← hcount] at hlength htrim
  constructor
  · rw [← hforall.length_eq, ← hraw, hlength]
  · left
    refine ⟨_, hforall, ?_⟩
    rw [← hraw, htrim]

/-- The beginning of a line without a newline. -/
theorem previewOf_part {lines : List Str} {budget index : Nat} {part raw line : Str}
    (hindex : lines[index]? = some line) (hsame : SameLine raw line) (hnewline : '\n' ∉ raw)
    (hbudget : budget < estimateTokens raw) (hpart : part <+: raw) (hne : Str.trim part ≠ []) :
    PreviewOf lines budget (Str.trim part) index := by
  have hcount : (Str.trim part).count '\n' = 0 := by
    apply List.count_eq_zero.mpr
    exact fun hmem => hnewline (hpart.subset (Str.mem_of_mem_trim hmem))
  have hone : (Str.lines (Str.trim part)).length = 1 := by
    rw [Str.length_lines_trim hne, hcount]
  have hshown : (lines.drop index).take (Str.lines (Str.trim part)).length = [line] := by
    obtain ⟨hlt, hline⟩ := List.getElem?_eq_some_iff.mp hindex
    rw [hone, List.drop_eq_getElem_cons hlt, hline]
    rfl
  constructor
  · rw [hshown, hone]
    rfl
  · exact .inr ⟨raw, line, part, hshown, hsame, hbudget, hpart, rfl⟩

/-- A range of the lines, joined again. -/
theorem previewOf_range {lines found : List Str} {range : Nat × Nat} (budget : Nat)
    (hfound : List.Forall₂ SameLine found (lines.take found.length))
    (hrange : range.1 < range.2 ∧ range.2 ≤ found.length) (hnewline : ∀ line ∈ found, '\n' ∉ line)
    (hne : Str.trim (joinRange found range.1 range.2) ≠ []) :
    PreviewOf lines budget (trimLeadingLines (joinRange found range.1 range.2)).1
      (range.1 + (trimLeadingLines (joinRange found range.1 range.2)).2) := by
  have hlength : ((found.take range.2).drop range.1).length = range.2 - range.1 := by
    rw [List.length_drop, List.length_take, Nat.min_eq_left hrange.2]
  have hsplit : (joinRange found range.1 range.2).splitOn '\n' =
      (found.take range.2).drop range.1 ++ [] := by
    rw [List.append_nil]
    apply Str.splitOn_join
    · rw [← List.length_pos_iff, hlength]
      omega
    · intro line hline
      exact hnewline line (List.mem_of_mem_take (List.mem_of_mem_drop hline))
  apply previewOf_trim lines budget range.1 hne hsplit (.inl rfl)
  have hrest := List.forall₂_drop range.1 (List.forall₂_take range.2 hfound)
  rw [List.take_take, Nat.min_eq_left hrange.2] at hrest
  rw [hlength, ← List.drop_take]
  exact hrest

theorem truncateToTokenBudget_shows {words : TaskWords} {text : Str} {lines : List Str}
    {budget : Nat} (htext : IsText text lines)
    (hne : (truncateToTokenBudget words text budget).1 ≠ []) :
    PreviewOf lines budget (truncateToTokenBudget words text budget).1
      (truncateToTokenBudget words text budget).2.2 := by
  have hfound := Str.lines_sameLine htext
  obtain ⟨raw, ending, hsplit, hsame, hending⟩ := htext
  unfold truncateToTokenBudget at hne ⊢
  split at hne
  · exact absurd rfl hne
  · next hblank =>
    have htext : Str.trim text ≠ [] := fun hnil => hblank (by rw [hnil]; rfl)
    have hlines : Str.lines text ≠ [] := by
      obtain ⟨pieces, last, hpieces, hlines, hlast⟩ := Str.isText_lines text
      have hle := (Str.trim_splitOn htext).2.2 pieces last hpieces hlast
      rw [hlines.length_eq] at hle
      exact List.length_pos_iff.mp (by omega)
    rw [if_neg hblank]
    split at hne
    · next hfits =>
      rw [if_pos hfits]
      have hall : List.Forall₂ SameLine raw ((lines.drop 0).take raw.length) := by
        rw [List.drop_zero, hsame.length_eq, List.take_length]
        exact hsame
      have h := previewOf_trim lines budget 0 htext hsplit hending hall
      rwa [Nat.zero_add] at h
    · next hlong =>
      rw [if_neg hlong]
      dsimp only at hne ⊢
      have hfocus := TaskWords.focus_lt words hlines
      have hget := List.getElem?_eq_getElem hfocus
      have hgetD : (Str.lines text).getD (words.focus (Str.lines text)) [] =
          (Str.lines text)[words.focus (Str.lines text)] := by
        rw [List.getD_eq_getElem?_getD, hget]
        rfl
      split at hne
      · next hover =>
        rw [if_pos hover]
        rw [hgetD] at hne hover ⊢
        have hline := hfound.get hfocus (hfound.length_eq ▸ hfocus)
        rw [List.get_eq_getElem, List.get_eq_getElem, List.getElem_take] at hline
        apply previewOf_part (List.getElem?_eq_getElem _) hline _ hover _ hne
        · exact Str.newline_not_mem_lines (List.getElem_mem hfocus)
        · have hpart := linePrefix_isPrefix budget []
            (Str.lines text)[words.focus (Str.lines text)]
          rwa [List.nil_append] at hpart
      · next hover =>
        rw [if_neg hover]
        apply previewOf_range budget hfound _ (fun _ => Str.newline_not_mem_lines) hne
        apply widen_range
        dsimp only
        omega

theorem truncateToTokenBudget_whole {words : TaskWords} {text : Str} {budget : Nat}
    (h : (truncateToTokenBudget words text budget).2.1 = false) :
    (truncateToTokenBudget words text budget).1 = Str.trim text := by
  unfold truncateToTokenBudget at h ⊢
  split
  · next hblank => exact (List.isEmpty_iff.mp hblank).symm
  next hblank =>
  rw [if_neg hblank] at h
  split
  · rfl
  next hlong =>
  rw [if_neg hlong] at h
  dsimp only at h
  split at h
  · cases h
  · cases h

end Ivygrep.Native
