import Ivygrep.Spec.ChunkWindows

/-!
# Uncovered line ranges

The last loop of the Tree-sitter path collects the maximal runs of uncovered
non-blank lines (`gapRanges`). Its runs hold uncovered lines only, and every
uncovered non-blank line is in one of them.
-/

namespace Ivygrep.Native

section

variable {lines : List Str} {covered : Nat → Bool}

/-- A line that the gap loop collects. -/
def IsOpen (lines : List Str) (covered : Nat → Bool) (line : Nat) : Prop :=
  covered line = false ∧ Str.trim (lineAt lines line) ≠ []

/-- The loop state after lines `1..=k`: the closed gaps and the current one hold open
    lines only, and every open line is in one of them. -/
structure GapInv (lines : List Str) (covered : Nat → Bool) (k : Nat) (state : GapState) :
    Prop where
  current : ∀ start ∈ state.gapStart,
    1 ≤ start ∧ start ≤ k ∧ ∀ line, start ≤ line → line ≤ k → IsOpen lines covered line
  closed : ∀ gap ∈ state.gaps, 1 ≤ gap.1 ∧ gap.2 ≤ k ∧
    ∀ line, gap.1 ≤ line → line ≤ gap.2 → IsOpen lines covered line
  complete : ∀ line, 1 ≤ line → line ≤ k → IsOpen lines covered line →
    (∃ gap ∈ state.gaps, gap.1 ≤ line ∧ line ≤ gap.2) ∨ ∃ start ∈ state.gapStart, start ≤ line

/-- One iteration of the gap loop. -/
theorem gapStep_inv {k : Nat} {state : GapState} (h : GapInv lines covered k state) :
    GapInv lines covered (k + 1) (gapStep lines covered state (k + 1)) := by
  have hopen : (!covered (k + 1) && !(Str.trim (lineAt lines (k + 1))).isEmpty) = true ↔
      IsOpen lines covered (k + 1) := by
    simp [IsOpen]
  obtain ⟨gapStart, gaps⟩ := state
  simp only [gapStep, Nat.add_sub_cancel]
  by_cases hline : IsOpen lines covered (k + 1)
  · -- The line opens a gap, or extends the current one.
    rw [if_pos (hopen.mpr hline)]
    refine ⟨?_, fun gap hgap => ?_, fun line hfirst hlast hisopen => ?_⟩
    · intro start hstart
      cases gapStart with
      | none =>
        obtain rfl : k + 1 = start := by simpa using hstart
        refine ⟨by omega, Nat.le_refl _, fun line h₁ h₂ => ?_⟩
        obtain rfl : line = k + 1 := by omega
        exact hline
      | some current =>
        obtain rfl : current = start := by simpa using hstart
        obtain ⟨hpos, hle, hall⟩ := h.current current rfl
        refine ⟨hpos, by omega, fun line h₁ h₂ => ?_⟩
        rcases Nat.lt_or_eq_of_le h₂ with h₂ | rfl
        · exact hall line h₁ (by omega)
        · exact hline
    · obtain ⟨hpos, hle, hall⟩ := h.closed gap hgap
      exact ⟨hpos, by omega, hall⟩
    · rcases Nat.lt_or_eq_of_le hlast with hlast | rfl
      · rcases h.complete line hfirst (by omega) hisopen with hgap | ⟨start, hstart, hle⟩
        · exact .inl hgap
        · have hcur : gapStart = some start := hstart
          exact .inr ⟨start, by simp [hcur], hle⟩
      · cases hcur : gapStart with
        | none => exact .inr ⟨k + 1, by simp, Nat.le_refl _⟩
        | some current =>
          have := (h.current current hcur).2.1
          exact .inr ⟨current, by simp, by omega⟩
  · -- The line closes the current gap.
    rw [if_neg (mt hopen.mp hline)]
    have hold : ∀ line, line ≤ k + 1 → IsOpen lines covered line → line ≤ k := by
      intro line hle hisopen
      rcases Nat.lt_or_eq_of_le hle with hlt | rfl
      · omega
      · exact absurd hisopen hline
    cases gapStart with
    | none =>
      refine ⟨by simp, fun gap hgap => ?_, fun line hfirst hlast hisopen => ?_⟩
      · obtain ⟨hpos, hle, hall⟩ := h.closed gap hgap
        exact ⟨hpos, by omega, hall⟩
      · exact h.complete line hfirst (hold line hlast hisopen) hisopen
    | some current =>
      obtain ⟨hpos, hcle, hall⟩ := h.current current rfl
      simp only [hcle, if_true]
      refine ⟨by simp, fun gap hgap => ?_, fun line hfirst hlast hisopen => ?_⟩
      · rcases List.mem_append.mp hgap with hgap | hgap
        · obtain ⟨hpos, hle, hall⟩ := h.closed gap hgap
          exact ⟨hpos, by omega, hall⟩
        · obtain rfl := List.mem_singleton.mp hgap
          exact ⟨hpos, by dsimp only; omega, hall⟩
      · have hle := hold line hlast hisopen
        rcases h.complete line hfirst hle hisopen with ⟨gap, hgap, hin⟩ | ⟨start, hstart, hin⟩
        · exact .inl ⟨gap, List.mem_append_left _ hgap, hin⟩
        · obtain rfl : current = start := by simpa using hstart
          exact .inl ⟨(current, k), by simp, hin, hle⟩

variable (lines covered) in
/-- The gap loop keeps its invariant over the first `k` lines. -/
theorem gapLoop_inv (k : Nat) :
    GapInv lines covered k
      ((List.range' 1 k).foldl (gapStep lines covered) ⟨none, []⟩) := by
  induction k with
  | zero => exact ⟨by simp, by simp, fun line h₁ h₂ => by omega⟩
  | succ k ih =>
    rw [List.range'_concat, List.foldl_append]
    have := gapStep_inv ih
    simpa [Nat.add_comm] using this

/-- A gap holds uncovered lines of the text only. -/
theorem gapRanges_sound {gap : Nat × Nat} (h : gap ∈ gapRanges lines covered) :
    1 ≤ gap.1 ∧ gap.2 ≤ lines.length ∧
      ∀ line, gap.1 ≤ line → line ≤ gap.2 → covered line = false := by
  have hinv := gapLoop_inv lines covered lines.length
  simp only [gapRanges] at h
  split at h
  · rename_i start hstart
    rcases List.mem_append.mp h with h | h
    · obtain ⟨hpos, hle, hall⟩ := hinv.closed gap h
      exact ⟨hpos, hle, fun line h₁ h₂ => (hall line h₁ h₂).1⟩
    · obtain rfl := List.mem_singleton.mp h
      obtain ⟨hpos, -, hall⟩ := hinv.current start hstart
      exact ⟨hpos, Nat.le_refl _, fun line h₁ h₂ => (hall line h₁ h₂).1⟩
  · obtain ⟨hpos, hle, hall⟩ := hinv.closed gap h
    exact ⟨hpos, hle, fun line h₁ h₂ => (hall line h₁ h₂).1⟩

/-- Every uncovered non-blank line is in a gap. -/
theorem gapRanges_complete {line : Nat} (hfirst : 1 ≤ line) (hlast : line ≤ lines.length)
    (hopen : IsOpen lines covered line) :
    ∃ gap ∈ gapRanges lines covered, gap.1 ≤ line ∧ line ≤ gap.2 := by
  have hinv := gapLoop_inv lines covered lines.length
  simp only [gapRanges]
  rcases hinv.complete line hfirst hlast hopen with ⟨gap, hgap, hin⟩ | ⟨start, hstart, hin⟩
  · split
    · exact ⟨gap, List.mem_append_left _ hgap, hin⟩
    · exact ⟨gap, hgap, hin⟩
  · rw [Option.mem_def.mp hstart]
    exact ⟨(start, lines.length), by simp, hin, hlast⟩

end

end Ivygrep.Native
