import Ivygrep.Spec.ChunkWindows

/-!
# The heuristic chunks and the prepared ranges

Where no parse is used, `chunk_source` falls back to signature ranges or to fixed
windows. Both cover the whole text. The ranges of a parse are made unique and
sorted first; this keeps each range's own bounds.
-/

namespace Ivygrep.Native

/-- Every line that is neither blank nor a bracket is in a chunk. -/
def Covers (lines : List Str) (chunks : List Chunk) : Prop :=
  ∀ line, 1 ≤ line → line ≤ lines.length → isBlankOrBracket (lineAt lines line) = false →
    ∃ chunk ∈ chunks, chunk.startLine ≤ line ∧ line ≤ chunk.endLine

/-- Lines and their trimmed forms hold no newline. -/
theorem newline_not_mem_trim_lineAt {lines : List Str} (hlines : ∀ line ∈ lines, '\n' ∉ line)
    (number : Nat) : '\n' ∉ Str.trim (lineAt lines number) := by
  refine fun h => ?_
  have hmem := Str.mem_of_mem_trim h
  rw [lineAt, List.getD_eq_getElem?_getD] at hmem
  cases hget : lines[number - 1]? with
  | none => simp [hget] at hmem
  | some line =>
    rw [hget, Option.getD_some] at hmem
    exact hlines line (List.mem_of_getElem? hget) hmem

/-! ## Fixed windows -/

/-- Every line is in a fixed window. -/
theorem fallbackWindows_cover (lineCount start line : Nat) (hstart : start ≤ line)
    (hend : line ≤ lineCount) :
    ∃ window ∈ fallbackWindows lineCount start, window.1 ≤ line ∧ line ≤ window.2 := by
  fun_induction fallbackWindows lineCount start with
  | case1 start hle stop ih =>
    by_cases hline : line ≤ stop
    · exact ⟨(start, stop), by simp, hstart, hline⟩
    · rw [if_neg (by omega)]
      obtain ⟨window, hwindow, hcover⟩ := ih (by omega) (by omega)
      exact ⟨window, List.mem_cons_of_mem _ hwindow, hcover⟩
  | case2 start hle => omega

section

variable {relPath language : Str} {lines : List Str}

theorem fallbackChunks_covers : Covers lines (fallbackChunks relPath language lines) := by
  intro line hfirst hlen _
  obtain ⟨window, hwindow, hcover⟩ := fallbackWindows_cover lines.length 1 line hfirst hlen
  exact ⟨_, List.mem_map_of_mem hwindow, hcover⟩

theorem fallbackChunks_faithful (hpath : '\n' ∉ relPath) :
    ∀ chunk ∈ fallbackChunks relPath language lines, chunk.Faithful relPath lines := by
  intro chunk hchunk
  obtain ⟨window, -, rfl⟩ := List.mem_map.mp hchunk
  exact stripChunkHeader_first _ hpath

/-! ## Signature ranges -/

/-- The leading doc lines of a signature start at or above it. -/
theorem leadingDocStart_bounds (start : Nat) (h : 1 ≤ start) :
    1 ≤ leadingDocStart language lines start ∧ leadingDocStart language lines start ≤ start := by
  induction start with
  | zero => omega
  | succ start ih =>
    simp only [leadingDocStart]
    split
    · split
      · omega
      · have := ih (by omega)
        omega
    · omega

/-- Consecutive segments from `starts` cover everything from the first start on: the
    line is in the segment of the last start at or above it. -/
theorem exists_segment {starts : List Nat} {line first : Nat} (hfirst : starts.head? = some first)
    (hle : first ≤ line) :
    ∃ idx, ∃ h : idx < starts.length, starts[idx] ≤ line ∧
      ∀ next ∈ starts[idx + 1]?, line < next := by
  induction starts generalizing first with
  | nil => simp at hfirst
  | cons start rest ih =>
    obtain rfl : start = first := by simpa using hfirst
    cases hrest : rest.head? with
    | none =>
      obtain rfl := List.head?_eq_none_iff.mp hrest
      exact ⟨0, by simp, hle, by simp⟩
    | some next =>
      by_cases hnext : next ≤ line
      · obtain ⟨idx, hidx, hlow, hhigh⟩ := ih hrest hnext
        exact ⟨idx + 1, by simpa using hidx, by simpa using hlow, by simpa using hhigh⟩
      · refine ⟨0, by simp, hle, fun other hother => ?_⟩
        rw [Option.mem_def, List.getElem?_cons_succ, ← List.head?_eq_getElem?, hrest,
          Option.some.injEq] at hother
        omega

theorem signatureChunks_covers {signatures : List (Nat × ChunkKind)}
    (hpos : ∀ signature ∈ signatures, 1 ≤ signature.1) (hne : signatures ≠ []) :
    Covers lines (signatureChunks relPath language lines signatures) := by
  intro line hfirst hlen hline
  obtain ⟨signature, rest, rfl⟩ := List.exists_cons_of_ne_nil hne
  let starts := (signature :: rest).map fun entry => leadingDocStart language lines entry.1
  have hstart : ∀ start ∈ starts, 1 ≤ start := by
    intro start hmem
    obtain ⟨found, hfound, rfl⟩ := List.mem_map.mp hmem
    exact (leadingDocStart_bounds found.1 (hpos found hfound)).1
  have hhead : starts.head? = some (leadingDocStart language lines signature.1) := rfl
  by_cases hpreamble : leadingDocStart language lines signature.1 ≤ line
  · -- The line is in the range of some signature.
    obtain ⟨idx, hidx, hlow, hhigh⟩ := exists_segment hhead hpreamble
    have hsignatures : idx < (signature :: rest).length := by simpa [starts] using hidx
    have hstop : line ≤ (starts[idx + 1]?.map (· - 1)).getD lines.length := by
      cases hnext : starts[idx + 1]? with
      | none => simpa using hlen
      | some next =>
        have := hhigh next hnext
        simp only [Option.map_some, Option.getD_some]
        omega
    obtain ⟨chunk, hchunk, hcover⟩ :=
      boundedStructuralChunks_cover relPath language
        (Str.trim (lineAt lines (signature :: rest)[idx].1)) (signature :: rest)[idx].2 none
        (hstart _ (List.getElem_mem hidx)) hlow hstop hlen hline
    refine ⟨chunk, List.mem_append_right _ (List.mem_flatMap.mpr
      ⟨((signature :: rest)[idx], idx), ?_, ?_⟩), hcover⟩
    · rw [List.mem_zipIdx_iff_getElem?, List.getElem?_eq_getElem hsignatures]
    · have hget : starts.getD idx 0 = starts[idx] := by
        rw [List.getD_eq_getElem?_getD, List.getElem?_eq_getElem hidx, Option.getD_some]
      dsimp only
      split
      · rename_i hempty
        change (starts[idx + 1]?.map (· - 1)).getD lines.length < starts.getD idx 0 at hempty
        omega
      · change chunk ∈ boundedStructuralChunks relPath lines (starts.getD idx 0)
          ((starts[idx + 1]?.map (· - 1)).getD lines.length) _ _ _ _
        rw [hget]
        exact hchunk
  · obtain ⟨chunk, hchunk, hcover⟩ :=
      boundedStructuralChunks_cover relPath language (Str.trim (lineAt lines 1)) .Module none
        (Nat.le_refl 1) hfirst (Nat.le_sub_one_of_lt (Nat.lt_of_not_le hpreamble)) hlen hline
    refine ⟨chunk, List.mem_append_left _ ?_, hcover⟩
    simp only [List.map_cons, List.head?_cons]
    rw [if_pos (by omega)]
    exact hchunk

theorem signatureChunks_faithful {signatures : List (Nat × ChunkKind)} (hpath : '\n' ∉ relPath)
    (hlines : ∀ line ∈ lines, '\n' ∉ line) :
    ∀ chunk ∈ signatureChunks relPath language lines signatures,
      chunk.Faithful relPath lines := by
  intro chunk hchunk
  rcases List.mem_append.mp hchunk with hchunk | hchunk
  · dsimp only at hchunk
    split at hchunk
    · split at hchunk
      · exact (boundedStructuralChunks_sound hpath
          (newline_not_mem_trim_lineAt hlines 1) chunk hchunk).2.2
      · simp at hchunk
    · simp at hchunk
  · obtain ⟨⟨⟨definitionStart, kind⟩, idx⟩, -, hchunk⟩ := List.mem_flatMap.mp hchunk
    dsimp only at hchunk
    split at hchunk
    · simp at hchunk
    · exact (boundedStructuralChunks_sound hpath
        (newline_not_mem_trim_lineAt hlines definitionStart) chunk hchunk).2.2

/-- The fallback covers the text. -/
theorem heuristicChunks_covers (langDef : Option LanguageDef) :
    Covers lines (heuristicChunks relPath langDef lines) := by
  cases langDef with
  | none => exact fallbackChunks_covers
  | some langDef =>
    simp only [heuristicChunks]
    split
    · exact fallbackChunks_covers
    · rename_i hne
      refine signatureChunks_covers (fun signature hmem => ?_) (by simpa using hne)
      simp only [collectSignatures, List.mem_filterMap, Prod.exists,
        Option.map_eq_some_iff] at hmem
      obtain ⟨_, idx, -, _, -, rfl⟩ := hmem
      exact Nat.succ_pos idx

/-- The fallback's chunks are faithful. -/
theorem heuristicChunks_faithful (langDef : Option LanguageDef) (hpath : '\n' ∉ relPath)
    (hlines : ∀ line ∈ lines, '\n' ∉ line) :
    ∀ chunk ∈ heuristicChunks relPath langDef lines, chunk.Faithful relPath lines := by
  cases langDef with
  | none => exact fallbackChunks_faithful hpath
  | some langDef =>
    simp only [heuristicChunks]
    split
    · exact fallbackChunks_faithful hpath
    · exact signatureChunks_faithful hpath hlines

end

/-! ## Prepared ranges -/

/-- The numbers of a range are those of a captured one. -/
def SameBounds (left right : CapturedRange) : Prop :=
  left.startLine = right.startLine ∧ left.endLine = right.endLine ∧
    left.definitionStart = right.definitionStart

theorem MergedRange.absorb_sameBounds (merged : MergedRange) (incoming : CapturedRange) :
    SameBounds (merged.absorb incoming).range merged.range := by
  rw [MergedRange.absorb]
  split <;> exact ⟨rfl, rfl, rfl⟩

/-- Merging keeps the bounds of every merged range and adds at most those of the new one. -/
theorem MergedRange.add_sameBounds (incoming : CapturedRange) (merged : List MergedRange) :
    ∀ entry ∈ MergedRange.add incoming merged,
      SameBounds entry.range incoming ∨ ∃ old ∈ merged, SameBounds entry.range old.range := by
  induction merged with
  | nil =>
    intro entry hentry
    obtain rfl := List.mem_singleton.mp hentry
    exact .inl ⟨rfl, rfl, rfl⟩
  | cons first rest ih =>
    intro entry hentry
    simp only [MergedRange.add] at hentry
    split at hentry
    · rcases List.mem_cons.mp hentry with rfl | hentry
      · exact .inr ⟨first, by simp, first.absorb_sameBounds incoming⟩
      · exact .inr ⟨entry, List.mem_cons_of_mem _ hentry, rfl, rfl, rfl⟩
    · rcases List.mem_cons.mp hentry with rfl | hentry
      · exact .inr ⟨entry, by simp, rfl, rfl, rfl⟩
      · rcases ih entry hentry with h | ⟨old, hold, h⟩
        · exact .inl h
        · exact .inr ⟨old, List.mem_cons_of_mem _ hold, h⟩

theorem coalesceInlineDefinitionRanges_sameBounds (ranges : List CapturedRange) :
    ∀ range ∈ coalesceInlineDefinitionRanges ranges,
      ∃ captured ∈ ranges, SameBounds range captured := by
  have hfold : ∀ (rest : List CapturedRange) (merged : List MergedRange),
      (∀ entry ∈ merged, ∃ captured ∈ ranges, SameBounds entry.range captured) →
      (∀ range ∈ rest, range ∈ ranges) →
      ∀ entry ∈ rest.foldl (fun merged range => MergedRange.add range merged) merged,
        ∃ captured ∈ ranges, SameBounds entry.range captured := by
    intro rest
    induction rest with
    | nil => exact fun merged h _ => h
    | cons range rest ih =>
      intro merged hmerged hrest
      refine ih _ (fun entry hentry => ?_) fun other hother =>
        hrest other (List.mem_cons_of_mem _ hother)
      rcases MergedRange.add_sameBounds range merged entry hentry with h | ⟨old, hold, h⟩
      · exact ⟨range, hrest range (by simp), h⟩
      · obtain ⟨captured, hcaptured, h'⟩ := hmerged old hold
        exact ⟨captured, hcaptured, h.1.trans h'.1, h.2.1.trans h'.2.1, h.2.2.trans h'.2.2⟩
  intro range hrange
  obtain ⟨entry, hentry, rfl⟩ := List.mem_map.mp hrange
  exact hfold ranges [] (by simp) (fun _ h => h) entry hentry

theorem retainUniqueRanges_subset (seen : List (Nat × Nat × ChunkKind))
    (ranges : List CapturedRange) : retainUniqueRanges seen ranges ⊆ ranges := by
  induction ranges generalizing seen with
  | nil => simp [retainUniqueRanges]
  | cons range rest ih =>
    simp only [retainUniqueRanges]
    split
    · exact fun other hother => List.mem_cons_of_mem _ (ih _ hother)
    · exact List.cons_subset_cons _ (ih _)

/-- Preparing the ranges invents none. -/
theorem preparedRanges_sameBounds (language : Str) (ranges : List CapturedRange) :
    ∀ range ∈ preparedRanges language ranges, ∃ captured ∈ ranges, SameBounds range captured := by
  intro range hrange
  simp only [preparedRanges, sortByStart, List.mem_insertionSort] at hrange
  split at hrange
  · exact coalesceInlineDefinitionRanges_sameBounds ranges range hrange
  · exact ⟨range, retainUniqueRanges_subset [] ranges hrange, rfl, rfl, rfl⟩

/-- The prepared ranges are sorted by start line. -/
theorem preparedRanges_sorted (language : Str) (ranges : List CapturedRange) :
    (preparedRanges language ranges).Pairwise fun left right =>
      left.startLine ≤ right.startLine := by
  have : Std.Total fun left right : CapturedRange => left.startLine ≤ right.startLine :=
    ⟨fun left right => Nat.le_total _ _⟩
  have : IsTrans CapturedRange fun left right => left.startLine ≤ right.startLine :=
    ⟨fun _ _ _ => Nat.le_trans⟩
  exact List.pairwise_insertionSort _ _

end Ivygrep.Native
