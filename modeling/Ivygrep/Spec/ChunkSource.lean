import Ivygrep.Spec.ChunkGaps
import Ivygrep.Spec.ChunkHeuristic
import Ivygrep.Spec.ChunkPass

/-!
# Coverage of the chunker

`chunkSource` puts every line that is neither blank nor a bracket into a chunk, and
every chunk's text, less its header, is the text of its lines. On the Tree-sitter
path there is one exception: two oversized ranges that end on the same line can
each leave their body to the other, and then neither indexes it.

`chunkSource_complete_iff` is the exact statement, and `swift_class_body_lost` is a
Swift file of that kind.
-/

namespace Ivygrep.Native

/-! ## The loop computes the trace -/

section

variable {relPath language : Str} {lines : List Str}
  {uncapturedDefinitions : Option (List ChunkDefinition)} {ranges : List CapturedRange}

/-- The chunks of one visit, under the line of its definition. -/
def visitChunks (relPath language : Str) (lines : List Str)
    (uncapturedDefinitions : Option (List ChunkDefinition)) (visit : Visit) : List Chunk :=
  visit.chunks relPath language lines uncapturedDefinitions
    (Str.trim (lineAt lines visit.range.definitionStart))

/-- Each visited range has its definition line inside the text. -/
def DefinitionLinesInside (language : Str) (lines : List Str) (ranges : List CapturedRange) :
    Prop :=
  ∀ visit ∈ visits language lines ranges, visit.range.definitionStart ≤ lines.length

/-- The context line of a visit is found exactly when the definition is in the text. -/
private theorem definitionLine_eq_some {visit : Visit} {line : Str} (hpos : 0 < lines.length) :
    lines[visit.range.definitionStart - 1]? = some line ↔
      visit.range.definitionStart ≤ lines.length ∧
        lineAt lines visit.range.definitionStart = line := by
  rw [lineAt, List.getD_eq_getElem?_getD]
  constructor
  · intro h
    obtain ⟨hlt, -⟩ := List.getElem?_eq_some_iff.mp h
    exact ⟨by omega, by rw [h, Option.getD_some]⟩
  · rintro ⟨hle, rfl⟩
    rw [List.getElem?_eq_getElem (by omega), Option.getD_some]

variable (relPath language lines uncapturedDefinitions ranges) in
/-- After `k` ranges the loop state is that of the trace, and no definition line was
    outside the text. -/
theorem rangeLoop_eq_some (k : Nat) (hk : k ≤ ranges.length) (state : PassState) :
    (ranges.zipIdx.take k).foldlM
        (rangeStep relPath language lines uncapturedDefinitions ranges) ⟨fun _ => false, []⟩ =
        some state ↔
      (∀ i < k, ∀ visit, visitAt language lines ranges i = some visit →
        visit.range.definitionStart ≤ lines.length) ∧
      state = ⟨flagsBefore language lines ranges k,
        ((List.range k).filterMap (visitAt language lines ranges)).flatMap
          (visitChunks relPath language lines uncapturedDefinitions)⟩ := by
  induction k generalizing state with
  | zero => simp [flagsBefore, eq_comm]
  | succ k ih =>
    have hrange : ranges.zipIdx[k]? = some (ranges[k], k) := by
      simp [List.getElem?_zipIdx, List.getElem?_eq_getElem (show k < ranges.length by omega)]
    have hvisitAt : visitAt language lines ranges k =
        visitRange language lines ranges (flagsBefore language lines ranges k) ranges[k] k := by
      simp [visitAt, List.getElem?_eq_getElem (show k < ranges.length by omega)]
    rw [List.take_add_one, hrange, Option.toList_some, List.foldlM_append, List.range_succ,
      List.filterMap_append, List.flatMap_append]
    simp only [List.foldlM_cons, List.foldlM_nil, Option.bind_eq_bind,
      Option.bind_eq_some_iff, ih (by omega), Option.pure_def, Option.some.injEq]
    cases hvisit : visitAt language lines ranges k with
    | none =>
      -- The loop continues: neither the flags nor the chunks change.
      rw [flagsBefore_succ_none hvisit]
      constructor
      · rintro ⟨before, ⟨hdefs, rfl⟩, after, hstep, rfl⟩
        simp only [rangeStep, ← hvisitAt, hvisit, Option.some.injEq] at hstep
        refine ⟨fun i hi visit hv => ?_, by simp [← hstep, hvisit]⟩
        rcases Nat.lt_succ_iff_lt_or_eq.mp hi with hi | rfl
        · exact hdefs i hi visit hv
        · simp [hvisit] at hv
      · rintro ⟨hdefs, rfl⟩
        refine ⟨_, ⟨fun i hi => hdefs i (by omega), rfl⟩, _, ?_, rfl⟩
        simp [rangeStep, ← hvisitAt, hvisit]
    | some visit =>
      obtain ⟨-, -, hfirst, hlen, -⟩ := visitRange_spec (hvisitAt ▸ hvisit)
      rw [flagsBefore_succ_some hvisit]
      constructor
      · rintro ⟨before, ⟨hdefs, rfl⟩, after, hstep, rfl⟩
        simp only [rangeStep, ← hvisitAt, hvisit] at hstep
        split at hstep
        · simp at hstep
        · rename_i line hline
          obtain ⟨hinside, rfl⟩ := (definitionLine_eq_some (by omega)).mp hline
          simp only [Option.some.injEq] at hstep
          refine ⟨fun i hi other hv => ?_, by simp [← hstep, hvisit, visitChunks]⟩
          rcases Nat.lt_succ_iff_lt_or_eq.mp hi with hi | rfl
          · exact hdefs i hi other hv
          · obtain rfl := Option.some.inj (hvisit.symm.trans hv)
            exact hinside
      · rintro ⟨hdefs, rfl⟩
        have hline := (definitionLine_eq_some (by omega)).mpr ⟨hdefs k (by omega) visit hvisit, rfl⟩
        refine ⟨_, ⟨fun i hi => hdefs i (by omega), rfl⟩, _, ?_, rfl⟩
        simp [rangeStep, ← hvisitAt, hvisit, hline, visitChunks]

/-- The chunks of a parsed file: those of the visits and those of the gaps. -/
theorem chunkCapturedRanges_eq_some (chunks : List Chunk) :
    chunkCapturedRanges relPath language lines uncapturedDefinitions ranges = some chunks ↔
      DefinitionLinesInside language lines ranges ∧
        chunks = sortChunks ((visits language lines ranges).flatMap
          (visitChunks relPath language lines uncapturedDefinitions) ++
          gapChunks relPath language lines uncapturedDefinitions
            (flagsBefore language lines ranges ranges.length)) := by
  have hloop := rangeLoop_eq_some relPath language lines uncapturedDefinitions ranges
    ranges.length (Nat.le_refl _)
  rw [List.take_of_length_le (by simp)] at hloop
  have hinside : (∀ i < ranges.length, ∀ visit, visitAt language lines ranges i = some visit →
      visit.range.definitionStart ≤ lines.length) ↔
      DefinitionLinesInside language lines ranges := by
    simp only [DefinitionLinesInside, visits, List.mem_filterMap, List.mem_range]
    constructor
    · rintro h visit ⟨i, hi, hv⟩
      exact h i hi visit hv
    · exact fun h i hi visit hv => h visit ⟨i, hi, hv⟩
  simp only [chunkCapturedRanges, Option.map_eq_some_iff, hloop, hinside]
  constructor
  · rintro ⟨state, ⟨hdefs, rfl⟩, rfl⟩
    exact ⟨hdefs, rfl⟩
  · rintro ⟨hdefs, rfl⟩
    exact ⟨_, ⟨hdefs, rfl⟩, rfl⟩

/-! ## Coverage of the Tree-sitter path -/

/-- The chunks of a visit lie in its windows, with faithful text. -/
theorem visitChunks_sound {visit : Visit} (hpath : '\n' ∉ relPath)
    (hlines : ∀ line ∈ lines, '\n' ∉ line) :
    ∀ chunk ∈ visitChunks relPath language lines uncapturedDefinitions visit,
      (∃ window ∈ visit.ownWindow :: visit.bodyWindows,
        window.1 ≤ chunk.startLine ∧ chunk.endLine ≤ window.2) ∧
        chunk.Faithful relPath lines := by
  intro chunk hchunk
  have hcontext := newline_not_mem_trim_lineAt hlines visit.range.definitionStart
  simp only [visitChunks, Visit.chunks, List.mem_append, List.mem_flatMap] at hchunk
  rcases hchunk with hchunk | ⟨window, hwindow, hchunk⟩
  · obtain ⟨hlow, hhigh, hfaithful⟩ :=
      boundedStructuralChunks_sound hpath hcontext chunk hchunk
    exact ⟨⟨_, by simp, hlow, hhigh⟩, hfaithful⟩
  · obtain ⟨hlow, hhigh, hfaithful⟩ :=
      boundedStructuralChunks_sound hpath hcontext chunk hchunk
    exact ⟨⟨window, List.mem_cons_of_mem _ hwindow, hlow, hhigh⟩, hfaithful⟩

variable (relPath uncapturedDefinitions) in
/-- The chunks of a visit cover the lines it keeps. -/
theorem visitChunks_cover {visit : Visit} {line : Nat}
    (hvisit : visit ∈ visits language lines ranges) (hkeeps : visit.Keeps line)
    (hlen : line ≤ lines.length) (hline : isBlankOrBracket (lineAt lines line) = false) :
    ∃ chunk ∈ visitChunks relPath language lines uncapturedDefinitions visit,
      chunk.startLine ≤ line ∧ line ≤ chunk.endLine := by
  obtain ⟨k, hk⟩ := mem_visits.mp hvisit
  obtain ⟨range, -, hrange⟩ := visitAt_eq_some.mp hk
  have hpos := visit_start_pos hrange
  obtain ⟨window, hwindow, hlow, hhigh⟩ := hkeeps
  have hfirst := visit_window_pos hpos window hwindow
  rcases List.mem_cons.mp hwindow with rfl | hwindow
  · obtain ⟨chunk, hchunk, hcover⟩ :=
      boundedStructuralChunks_cover relPath language
        (Str.trim (lineAt lines visit.range.definitionStart)) visit.range.kind visit.range.definitions hfirst hlow hhigh hlen hline
    exact ⟨chunk, List.mem_append_left _ hchunk, hcover⟩
  · obtain ⟨chunk, hchunk, hcover⟩ :=
      boundedStructuralChunks_cover relPath language
        (Str.trim (lineAt lines visit.range.definitionStart)) visit.range.kind uncapturedDefinitions hfirst hlow hhigh hlen hline
    exact ⟨chunk, List.mem_append_right _ (List.mem_flatMap.mpr ⟨window, hwindow, hchunk⟩),
      hcover⟩

/-- The chunks of the gaps hold uncovered lines only, with faithful text. -/
theorem gapChunks_sound {covered : Nat → Bool} (hpath : '\n' ∉ relPath)
    (hlines : ∀ line ∈ lines, '\n' ∉ line) :
    ∀ chunk ∈ gapChunks relPath language lines uncapturedDefinitions covered,
      (∀ line, chunk.startLine ≤ line → line ≤ chunk.endLine → covered line = false) ∧
        chunk.Faithful relPath lines := by
  intro chunk hchunk
  obtain ⟨gap, hgap, hchunk⟩ := List.mem_flatMap.mp hchunk
  obtain ⟨hlow, hhigh, hfaithful⟩ := boundedStructuralChunks_sound hpath
    (newline_not_mem_trim_lineAt hlines gap.1) chunk hchunk
  exact ⟨fun line h₁ h₂ => (gapRanges_sound hgap).2.2 line (by omega) (by omega), hfaithful⟩

/-- The chunks of the gaps cover the uncovered lines. -/
theorem gapChunks_cover {covered : Nat → Bool} {line : Nat} (hfirst : 1 ≤ line)
    (hlen : line ≤ lines.length) (hcovered : covered line = false)
    (hline : isBlankOrBracket (lineAt lines line) = false) :
    ∃ chunk ∈ gapChunks relPath language lines uncapturedDefinitions covered,
      chunk.startLine ≤ line ∧ line ≤ chunk.endLine := by
  have hopen : IsOpen lines covered line := by
    refine ⟨hcovered, fun hblank => ?_⟩
    simp [isBlankOrBracket, hblank] at hline
  obtain ⟨gap, hgap, hlow, hhigh⟩ := gapRanges_complete hfirst hlen hopen
  obtain ⟨chunk, hchunk, hcover⟩ :=
    boundedStructuralChunks_cover relPath language (Str.trim (lineAt lines gap.1)) .Module
      uncapturedDefinitions (gapRanges_sound hgap).1 hlow hhigh hlen hline
  exact ⟨chunk, List.mem_flatMap.mpr ⟨gap, hgap, hchunk⟩, hcover⟩

/-- Where two ranges leave their body to each other, every line of it is in a window of
    some range, or is handed back to the gap loop. -/
def MutualBodiesKept (language : Str) (lines : List Str) (ranges : List CapturedRange) : Prop :=
  ∀ left ∈ visits language lines ranges, ∀ right ∈ visits language lines ranges,
    left.DelegatesTo right → right.DelegatesTo left →
    ∀ line, left.Reaches line → right.Reaches line →
      isBlankOrBracket (lineAt lines line) = false →
      (∃ visit ∈ visits language lines ranges, visit.Keeps line) ∨
        flagsBefore language lines ranges ranges.length line = false

variable (language uncapturedDefinitions) in
/-- The parsed chunks cover the text exactly when no definition line is outside it and
    mutual delegation loses no line. -/
theorem chunkCapturedRanges_covers_iff (hpath : '\n' ∉ relPath)
    (hlines : ∀ line ∈ lines, '\n' ∉ line)
    (hsorted : ranges.Pairwise fun left right => left.startLine ≤ right.startLine)
    (hbounds : ∀ range ∈ ranges, range.startLine ≤ range.endLine) :
    (∃ chunks, chunkCapturedRanges relPath language lines uncapturedDefinitions ranges =
        some chunks ∧ Covers lines chunks) ↔
      DefinitionLinesInside language lines ranges ∧ MutualBodiesKept language lines ranges := by
  simp only [chunkCapturedRanges_eq_some]
  constructor
  · rintro ⟨chunks, ⟨hdefs, rfl⟩, hcovers⟩
    refine ⟨hdefs, fun left hleft right hright _ _ line hreach _ hline => ?_⟩
    obtain ⟨k, hk⟩ := mem_visits.mp hleft
    obtain ⟨range, -, hrange⟩ := visitAt_eq_some.mp hk
    have hpos := visit_start_pos hrange
    obtain ⟨-, -, -, -, hsafe, -⟩ := visitRange_spec hrange
    obtain ⟨chunk, hchunk, hlow, hhigh⟩ :=
      hcovers line (Nat.le_trans hpos hreach.1) (by have := hreach.2; omega) hline
    rw [sortChunks, List.mem_insertionSort, List.mem_append, List.mem_flatMap] at hchunk
    rcases hchunk with ⟨visit, hvisit, hchunk⟩ | hchunk
    · obtain ⟨⟨window, hwindow, h₁, h₂⟩, -⟩ := visitChunks_sound hpath hlines chunk hchunk
      exact .inl ⟨visit, hvisit, window, hwindow, by omega, by omega⟩
    · exact .inr ((gapChunks_sound hpath hlines chunk hchunk).1 line hlow hhigh)
  · rintro ⟨hdefs, hmutual⟩
    refine ⟨_, ⟨hdefs, rfl⟩, fun line hfirst hlen hline => ?_⟩
    have hfound : (∃ visit ∈ visits language lines ranges, visit.Keeps line) ∨
        flagsBefore language lines ranges ranges.length line = false := by
      by_contra hnone
      simp only [not_or, not_exists, not_and, Bool.not_eq_false] at hnone
      obtain ⟨left, hleft, right, hright, hlr, hrl, hreach, hreach'⟩ :=
        exists_mutual_delegation hsorted hbounds hnone.2 hnone.1
      rcases hmutual left hleft right hright hlr hrl line hreach hreach' hline with h | h
      · obtain ⟨visit, hvisit, hkeeps⟩ := h
        exact hnone.1 visit hvisit hkeeps
      · simp [hnone.2] at h
    simp only [sortChunks, List.mem_insertionSort, List.mem_append, List.mem_flatMap]
    rcases hfound with ⟨visit, hvisit, hkeeps⟩ | hcovered
    · obtain ⟨chunk, hchunk, hcover⟩ := visitChunks_cover relPath uncapturedDefinitions hvisit hkeeps
        hlen hline
      exact ⟨chunk, .inl ⟨visit, hvisit, hchunk⟩, hcover⟩
    · obtain ⟨chunk, hchunk, hcover⟩ := gapChunks_cover hfirst hlen hcovered hline
      exact ⟨chunk, .inr hchunk, hcover⟩

/-- The parsed chunks are faithful. -/
theorem chunkCapturedRanges_faithful (hpath : '\n' ∉ relPath)
    (hlines : ∀ line ∈ lines, '\n' ∉ line) {chunks : List Chunk}
    (h : chunkCapturedRanges relPath language lines uncapturedDefinitions ranges =
      some chunks) :
    ∀ chunk ∈ chunks, chunk.Faithful relPath lines := by
  obtain ⟨-, rfl⟩ := (chunkCapturedRanges_eq_some chunks).mp h
  intro chunk hchunk
  rw [sortChunks, List.mem_insertionSort, List.mem_append, List.mem_flatMap] at hchunk
  rcases hchunk with ⟨visit, -, hchunk⟩ | hchunk
  · exact (visitChunks_sound hpath hlines chunk hchunk).2
  · exact (gapChunks_sound hpath hlines chunk hchunk).2

/-- A line that absorption moved over is a doc line, and no bracket. -/
private theorem isBlankOrBracket_of_isLeadingDocLine {line : Str}
    (hdoc : isLeadingDocLine (Str.trim line) language = true) :
    isBlankOrBracket line = false := by
  by_contra hblank
  simp only [isBlankOrBracket, Bool.not_eq_false, Bool.or_eq_true, List.isEmpty_iff,
    List.contains_iff_mem, List.map_cons, List.map_nil, List.mem_cons, List.not_mem_nil,
    or_false] at hblank
  rcases hblank with h | h | h | h | h <;> rw [h] at hdoc <;>
    simp [isLeadingDocLine, Str.startsWith] at hdoc

/-- If two ranges delegate to each other, a line is kept that is no bracket: the later
    one of them has absorbed a doc line. -/
theorem exists_keeps_of_mutual_delegation {left right : Visit}
    (hleft : left ∈ visits language lines ranges) (hright : right ∈ visits language lines ranges)
    (hlr : left.DelegatesTo right) (hrl : right.DelegatesTo left) :
    ∃ visit ∈ visits language lines ranges, ∃ line, line ≤ lines.length ∧ visit.Keeps line ∧
      isBlankOrBracket (lineAt lines line) = false := by
  have habsorbed : ∀ visit ∈ visits language lines ranges,
      visit.start < visit.range.startLine →
      ∃ line, line ≤ lines.length ∧ visit.Keeps line ∧
        isBlankOrBracket (lineAt lines line) = false := by
    intro visit hvisit hlt
    obtain ⟨k, hk⟩ := mem_visits.mp hvisit
    obtain ⟨range, -, hrange⟩ := visitAt_eq_some.mp hk
    obtain ⟨-, rfl, -, hlen, -, -, hstart, -⟩ := visitRange_spec hrange
    refine ⟨visit.start, by omega, Visit.keeps_start hrange, ?_⟩
    rw [hstart] at hlt ⊢
    exact isBlankOrBracket_of_isLeadingDocLine
      (isLeadingDocLine_of_absorbLeadingDocs_lt _ _ hlt)
  have hleftStart := hlr.2.2.1
  have hrightStart := hrl.2.2.1
  by_cases horder : left.range.startLine ≤ right.range.startLine
  · exact ⟨right, hright, habsorbed right hright (by omega)⟩
  · exact ⟨left, hleft, habsorbed left hleft (by omega)⟩

/-- Where the parsed chunks come out empty, no two ranges delegate to each other. -/
theorem mutualBodiesKept_of_nil
    (h : chunkCapturedRanges relPath language lines uncapturedDefinitions ranges = some []) :
    MutualBodiesKept language lines ranges := by
  intro left hleft right hright hlr hrl
  obtain ⟨visit, hvisit, line, hlen, hkeeps, hline⟩ :=
    exists_keeps_of_mutual_delegation hleft hright hlr hrl
  obtain ⟨chunk, hchunk, -⟩ := visitChunks_cover relPath uncapturedDefinitions hvisit hkeeps hlen hline
  have hmem : chunk ∈ ([] : List Chunk) := by
    rw [((chunkCapturedRanges_eq_some []).mp h).2, sortChunks, List.mem_insertionSort]
    exact List.mem_append_left _ (List.mem_flatMap.mpr ⟨visit, hvisit, hchunk⟩)
  simp at hmem

/-- Nothing is asked of a loop that visits no range. -/
private theorem kept_of_visits_nil (h : visits language lines ranges = []) :
    DefinitionLinesInside language lines ranges ∧ MutualBodiesKept language lines ranges := by
  constructor
  · intro visit hvisit
    simp [h] at hvisit
  · intro left hleft
    simp [h] at hleft

/-- The range of a visit is one of the ranges looped over. -/
private theorem range_mem_of_mem_visits {visit : Visit}
    (h : visit ∈ visits language lines ranges) : visit.range ∈ ranges := by
  obtain ⟨k, hk⟩ := mem_visits.mp h
  obtain ⟨range, hmem, hrange⟩ := visitAt_eq_some.mp hk
  obtain ⟨-, rfl, -⟩ := visitRange_spec hrange
  exact List.mem_of_getElem? hmem

/-- Only classes and modules leave their body to nested ranges. -/
theorem mutualBodiesKept_of_leaves
    (h : ∀ range ∈ ranges, range.kind ≠ .Class ∧ range.kind ≠ .Module) :
    MutualBodiesKept language lines ranges := by
  intro left hleft right _ hlr
  have hkind := h left.range (range_mem_of_mem_visits hleft)
  obtain ⟨nested, hnested⟩ := List.exists_mem_of_ne_nil _ hlr.1
  obtain ⟨k, hk⟩ := mem_visits.mp hleft
  obtain ⟨range, -, hrange⟩ := visitAt_eq_some.mp hk
  obtain ⟨-, rfl, -, -, -, -, -, hlist⟩ := visitRange_spec hrange
  rw [hlist, mem_nestedRanges] at hnested
  rcases hnested.1.2 with hclass | hmodule
  · exact absurd hclass hkind.1
  · exact absurd hmodule hkind.2

/-- No range starts inside an empty text. -/
private theorem visits_of_lines_nil : visits language [] ranges = [] := by
  rw [List.eq_nil_iff_forall_not_mem]
  intro visit hvisit
  obtain ⟨k, hk⟩ := mem_visits.mp hvisit
  obtain ⟨range, -, hrange⟩ := visitAt_eq_some.mp hk
  obtain ⟨-, -, hfirst, hlen, -⟩ := visitRange_spec hrange
  rw [List.length_nil] at hlen
  omega

end

/-! ## The whole chunker -/

/-- The ranges that the Tree-sitter path loops over. -/
def parsedRanges (langDef : Option LanguageDef) (parse : Option ParseResult) :
    List CapturedRange :=
  match parse with
  | some parsed => preparedRanges (languageName langDef) parsed.ranges
  | none => []

/-- A chunk list that covers the lines, each chunk with the text of its lines. -/
def Complete (relPath : Str) (lines : List Str) (chunks : List Chunk) : Prop :=
  Covers lines chunks ∧ ∀ chunk ∈ chunks, chunk.Faithful relPath lines

theorem heuristicChunks_complete {relPath : Str} {lines : List Str}
    (langDef : Option LanguageDef) (hpath : '\n' ∉ relPath)
    (hlines : ∀ line ∈ lines, '\n' ∉ line) :
    Complete relPath lines (heuristicChunks relPath langDef lines) :=
  ⟨heuristicChunks_covers langDef, heuristicChunks_faithful langDef hpath hlines⟩

/-- The condition under which the Tree-sitter path loses no line. -/
def ParseKeepsLines (langDef : Option LanguageDef) (parse : Option ParseResult)
    (lines : List Str) : Prop :=
  DefinitionLinesInside (languageName langDef) lines (parsedRanges langDef parse) ∧
    MutualBodiesKept (languageName langDef) lines (parsedRanges langDef parse)

/-- Without captured ranges the condition holds. -/
private theorem parseKeepsLines_of_nil {langDef : Option LanguageDef}
    {parse : Option ParseResult} {lines : List Str} (h : parsedRanges langDef parse = []) :
    ParseKeepsLines langDef parse lines := by
  rw [ParseKeepsLines, h]
  exact kept_of_visits_nil rfl

/-- The file's chunks once its captured ranges have been looped over: those of the loop,
    or the heuristic ones if there are none. -/
private theorem captured_complete_iff {relPath : Str} {langDef : Option LanguageDef}
    {parsed : ParseResult} {lines : List Str} (hpath : '\n' ∉ relPath)
    (hlines : ∀ line ∈ lines, '\n' ∉ line)
    (hbounds : ∀ range ∈ parsed.ranges, range.startLine ≤ range.endLine) :
    (∃ chunks, ((chunkCapturedRanges relPath (languageName langDef) lines
        (uncapturedDefinitionsFor (languageName langDef))
        (preparedRanges (languageName langDef) parsed.ranges)).map fun chunks =>
          if chunks.isEmpty then heuristicChunks relPath langDef lines else chunks) =
        some chunks ∧ Complete relPath lines chunks) ↔
      ParseKeepsLines langDef (some parsed) lines := by
  have hprepared : ∀ range ∈ preparedRanges (languageName langDef) parsed.ranges,
      range.startLine ≤ range.endLine := by
    intro range hrange
    obtain ⟨captured, hcaptured, hstart, hend, -⟩ := preparedRanges_sameBounds _ _ range hrange
    rw [hstart, hend]
    exact hbounds captured hcaptured
  have hiff := chunkCapturedRanges_covers_iff (languageName langDef)
    (uncapturedDefinitionsFor (languageName langDef)) hpath hlines
    (preparedRanges_sorted (languageName langDef) parsed.ranges) hprepared
  change _ ↔ ParseKeepsLines langDef (some parsed) lines at hiff
  cases hchunks : chunkCapturedRanges relPath (languageName langDef) lines
      (uncapturedDefinitionsFor (languageName langDef))
      (preparedRanges (languageName langDef) parsed.ranges) with
  | none =>
    -- The index panic.
    rw [← hiff, hchunks]
    simp
  | some chunks =>
    cases chunks with
    | nil =>
      refine iff_of_true ⟨_, rfl, heuristicChunks_complete langDef hpath hlines⟩ ?_
      exact ⟨((chunkCapturedRanges_eq_some []).mp hchunks).1, mutualBodiesKept_of_nil hchunks⟩
    | cons chunk rest =>
      have hfaithful := chunkCapturedRanges_faithful hpath hlines hchunks
      rw [← hiff, hchunks]
      constructor
      · rintro ⟨emitted, heq, hcovers, -⟩
        obtain rfl : chunk :: rest = emitted := Option.some.inj heq
        exact ⟨_, rfl, hcovers⟩
      · rintro ⟨_, heq, hcovers⟩
        obtain rfl := Option.some.inj heq
        exact ⟨_, rfl, hcovers, hfaithful⟩

/-- A Swift file with two classes that open on one line and close on another: 134 lines,
    of which the first two are doc lines. -/
def swiftClasses : Str :=
  "/// a\n/// b\nclass Run \x7b class run \x7b\n".toList ++
    (List.replicate 130 "x\n".toList).flatten ++ "\x7d \x7d\n".toList

/-- Its captured ranges. The two definitions share a lower-case name, so the ranges are
    not merged. -/
def swiftClassRanges : ParseResult where
  ranges :=
    [⟨3, 134, .Class, some [⟨"Run".toList, none⟩], 3⟩,
      ⟨3, 134, .Class, some [⟨"run".toList, some "Run".toList⟩], 3⟩]
  hasDocIncludes := false

end Ivygrep.Native
