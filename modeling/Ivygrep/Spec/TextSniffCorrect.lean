import Ivygrep.Native.TextSniff

/-!
# Reading piece by piece

The streaming check gives the answer of the check that has the whole file, however the file is
split into reads.
-/

namespace Ivygrep.Native

/-- Only the first bytes count. -/
theorem isProbablyText_take (bytes : List UInt8) :
    isProbablyText (bytes.take textSniffBytes) = isProbablyText bytes := by
  unfold isProbablyText
  rw [List.take_take, Nat.min_self]

/-! ## The run of bytes without a newline -/

theorem scanMinifiedRun_append (run : Nat) (bytes more : List UInt8) :
    scanMinifiedRun run (bytes ++ more) =
      (scanMinifiedRun run bytes || scanMinifiedRun (runAfter run bytes) more) := by
  induction bytes generalizing run with
  | nil => rfl
  | cons byte bytes ih =>
    rw [List.cons_append, scanMinifiedRun, scanMinifiedRun, runAfter]
    split
    · exact ih 0
    · split
      · rfl
      · exact ih (run + 1)

/-! ## The sample -/

/-- The sample is the beginning of what was read, and text once it is full. -/
def SampleOf (sample consumed : List UInt8) : Prop :=
  sample = consumed.take textSniffBytes ∧
    (sample.length = textSniffBytes → isProbablyText sample = true)

theorem fillSample_some {sample consumed bytes filled : List UInt8} (h : SampleOf sample consumed)
    (hfill : fillSample sample bytes = some filled) : SampleOf filled (consumed ++ bytes) := by
  obtain ⟨rfl, htext⟩ := h
  unfold fillSample at hfill
  split at hfill
  · next hshort =>
    have hfilled : consumed.take textSniffBytes ++
        bytes.take (textSniffBytes - (consumed.take textSniffBytes).length) =
          (consumed ++ bytes).take textSniffBytes := by
      rw [List.length_take] at hshort ⊢
      rw [List.take_append, Nat.min_eq_right (by omega)]
    dsimp only at hfill
    split at hfill
    · cases hfill
    · next hnot =>
      obtain rfl := Option.some.inj hfill
      refine ⟨hfilled, fun hfull => ?_⟩
      rw [not_and] at hnot
      exact (Bool.not_eq_false _).mp (hnot hfull)
  · next hfull =>
    obtain rfl := Option.some.inj hfill
    refine ⟨?_, htext⟩
    rw [List.length_take] at hfull
    rw [List.take_append_of_le_length (by omega)]

theorem fillSample_none {sample consumed bytes : List UInt8} (h : SampleOf sample consumed)
    (hfill : fillSample sample bytes = none) (more : List UInt8) :
    isProbablyText (consumed ++ bytes ++ more) = false := by
  obtain ⟨rfl, -⟩ := h
  unfold fillSample at hfill
  split at hfill
  · next hshort =>
    rw [List.length_take] at hshort
    dsimp only at hfill
    split at hfill
    · next hnot =>
      rw [List.length_take, Nat.min_eq_right (by omega), List.length_append, List.length_take,
        List.length_take] at hnot
      have hfilled : consumed.take textSniffBytes ++ bytes.take (textSniffBytes - consumed.length) =
          (consumed ++ bytes ++ more).take textSniffBytes := by
        rw [List.take_append_of_le_length (by rw [List.length_append]; omega), List.take_append]
      rw [← isProbablyText_take, ← hfilled]
      exact hnot.2
    · cases hfill
  · cases hfill

/-! ## The loop -/

theorem readLoop_spec {ε : Type} {sample consumed : List UInt8} {run : Nat}
    (h : SampleOf sample consumed) (reads : List Read) :
    readLoop (ε := ε) sample run (reads.map .ok) =
      .ok (isProbablyText (consumed ++ (reads.map Subtype.val).flatten) &&
        !scanMinifiedRun run (reads.map Subtype.val).flatten) := by
  induction reads generalizing sample consumed run with
  | nil =>
    obtain ⟨rfl, -⟩ := h
    simp [readLoop, scanMinifiedRun, isProbablyText_take]
  | cons read reads ih =>
    rw [List.map_cons, List.map_cons, List.flatten_cons, scanMinifiedRun_append,
      ← List.append_assoc]
    unfold readLoop
    cases hfill : fillSample sample read.val with
    | none =>
      rw [fillSample_none h hfill]
      rfl
    | some filled =>
      dsimp only
      split
      · next hlong =>
        rw [hlong]
        simp
      · next hshort =>
        rw [ih (fillSample_some h hfill)]
        simp [hshort]

/-- The two checks agree, for every file and every way to split it into reads. -/
theorem isIndexableFileReader_eq {ε : Type} (reads : List Read) :
    isIndexableFileReader (ε := ε) (reads.map .ok) =
      .ok (isIndexableFile (reads.map Subtype.val).flatten) := by
  have hstart : SampleOf [] [] := ⟨rfl, fun hfull => absurd hfull (by decide)⟩
  rw [isIndexableFileReader, readLoop_spec hstart, List.nil_append, isIndexableFile]
  generalize (reads.map Subtype.val).flatten = bytes
  cases bytes with
  | nil => rfl
  | cons byte bytes => rfl

end Ivygrep.Native
