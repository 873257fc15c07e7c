import Ivygrep.ForStd.List
import Ivygrep.Native.FileSearchBatch

/-!
# The merge of file results

A batch that merges after every workspace holds the first `limit` entries of the ranking of all
results at once: an entry that a truncation drops has `limit` other files above it, and keeps
them.
-/

namespace Ivygrep.Native

open ForStd

variable {Path : Type} [LinearOrder Path]

/-! ## The comparison -/

theorem compareFiles_lt {left right : FileSearchResult Path} :
    compareFiles left right = .lt ↔ right.hitCount < left.hitCount ∨
      left.hitCount = right.hitCount ∧ left.filePath < right.filePath := by
  unfold compareFiles
  rw [Ordering.then_eq_lt, compare_lt_iff_lt, compare_eq_iff_eq, compare_lt_iff_lt, eq_comm]

theorem compareFiles_ne_gt {left right : FileSearchResult Path} :
    compareFiles left right ≠ .gt ↔ right.hitCount < left.hitCount ∨
      left.hitCount = right.hitCount ∧ left.filePath ≤ right.filePath := by
  unfold compareFiles
  rw [Ne, Ordering.then_eq_gt, compare_gt_iff_gt, compare_eq_iff_eq, compare_gt_iff_gt, ← not_lt]
  grind

/-- The relation that `sortFiles` sorts by. -/
def NotAfter (left right : FileSearchResult Path) : Prop := compareFiles left right ≠ .gt

instance : DecidableRel (@NotAfter Path _) := fun left right =>
  inferInstanceAs (Decidable (compareFiles left right ≠ .gt))

instance : IsTrans (FileSearchResult Path) NotAfter where
  trans a b c hab hbc := by
    unfold NotAfter at *
    rw [compareFiles_ne_gt] at *
    grind

instance : Std.Total (@NotAfter Path _) where
  total a b := by
    unfold NotAfter
    rw [compareFiles_ne_gt, compareFiles_ne_gt]
    grind

/-! ## One record -/

theorem retainUnseen_eq (seen : List Path) (files : List (FileSearchResult Path)) :
    retainUnseen seen files =
      (keepFirst FileSearchResult.filePath files).filter (!seen.contains ·.filePath) := by
  induction files generalizing seen with
  | nil => rfl
  | cons file files ih =>
    rw [retainUnseen, keepFirst, List.filter_cons]
    cases hseen : seen.contains file.filePath with
    | true =>
      -- A path seen before is dropped with all its later results.
      rw [if_pos rfl, if_neg (by simp), ih, List.filter_filter]
      refine List.filter_congr fun other _ => ?_
      by_cases hpath : other.filePath = file.filePath
      · simp [hpath] at hseen ⊢
        exact hseen
      · simp [hpath]
    | false =>
      rw [if_neg (by simp), if_pos (by simp), ih, List.filter_filter]
      congr 1
      refine List.filter_congr fun other _ => ?_
      by_cases hpath : other.filePath = file.filePath
      · simp [hpath]
      · simp [hpath]

/-- The ranking of results: the best of every path, best first. -/
def fileRanking (files : List (FileSearchResult Path)) : List (FileSearchResult Path) :=
  ranking NotAfter FileSearchResult.filePath files

theorem retainUnseen_sortFiles (files : List (FileSearchResult Path)) :
    retainUnseen [] (sortFiles files) = fileRanking files := by
  rw [retainUnseen_eq]
  exact List.filter_eq_self.mpr fun _ _ => rfl

/-- A merge into a truncated ranking is a merge into the whole. -/
theorem truncate_fileRanking_append (limit : Option Nat)
    (files more : List (FileSearchResult Path)) :
    truncate limit (fileRanking (truncate limit (fileRanking files) ++ more)) =
      truncate limit (fileRanking (files ++ more)) := by
  cases limit with
  | none =>
    show fileRanking (fileRanking files ++ more) = fileRanking (files ++ more)
    unfold fileRanking
    rw [ranking_append, ranking_append,
      ranking_of_sorted (ranking_sorted files) (ranking_nodup _ _ files)]
  | some limit => exact take_ranking_append files more limit

/-! ## Runs -/

/-- A workspace root with the outcome of its search. -/
abbrev WorkspaceResult (Path : Type) := Path × Except Str (List (FileSearchResult Path))

namespace FileSearchBatch

/-- A run of `record` with absolute paths. -/
def recordAll (ops : PathOps Path) (batch : FileSearchBatch Path)
    (records : List (WorkspaceResult Path)) : FileSearchBatch Path :=
  records.foldl (fun batch entry => batch.record ops entry.1 true entry.2) batch

end FileSearchBatch

/-- The results of a workspace, with absolute paths. A failed workspace has none. -/
def absoluteFiles (ops : PathOps Path) (entry : WorkspaceResult Path) :
    List (FileSearchResult Path) :=
  match entry.2 with
  | .ok files => files.map (·.absolute ops entry.1)
  | .error _ => []

/-- The warning of a failed workspace. -/
def failureWarning (ops : PathOps Path) (entry : WorkspaceResult Path) : Option Str :=
  match entry.2 with
  | .ok _ => none
  | .error err =>
    some ("search failed for ".toList ++ ops.display entry.1 ++ ": ".toList ++ err)

/-- The workspace was searched. -/
def Succeeded (entry : WorkspaceResult Path) : Prop := ∃ files, entry.2 = .ok files

/-- What a batch holds after a run from a new one. -/
structure Merged (ops : PathOps Path) (warnings : List Str) (limit : Option Nat)
    (records : List (WorkspaceResult Path)) (batch : FileSearchBatch Path) : Prop where
  limit_eq : batch.limit = limit
  files_eq : batch.files = truncate limit (fileRanking (records.flatMap (absoluteFiles ops)))
  warnings_eq : batch.warnings = warnings ++ records.filterMap (failureWarning ops)
  successful_iff : 0 < batch.successfulWorkspaces ↔ ∃ entry ∈ records, Succeeded entry

variable {ops : PathOps Path} {warnings : List Str} {limit : Option Nat}

theorem merged_record {records : List (WorkspaceResult Path)} {batch : FileSearchBatch Path}
    (h : Merged ops warnings limit records batch) (entry : WorkspaceResult Path) :
    Merged ops warnings limit (records ++ [entry]) (batch.record ops entry.1 true entry.2) := by
  obtain ⟨root, result⟩ := entry
  cases result with
  | ok files =>
    refine ⟨h.limit_eq, ?_, ?_, ?_⟩
    · show truncate batch.limit (retainUnseen [] (sortFiles (batch.files ++ _))) = _
      rw [retainUnseen_sortFiles, h.limit_eq, h.files_eq, truncate_fileRanking_append,
        List.flatMap_append, List.flatMap_singleton]
      rfl
    · rw [List.filterMap_append, ← List.append_assoc, ← h.warnings_eq]
      exact (List.append_nil _).symm
    · refine ⟨fun _ => ⟨_, List.mem_append_right _ (List.mem_singleton_self _), files, rfl⟩, ?_⟩
      exact fun _ => Nat.succ_pos _
  | error err =>
    refine ⟨h.limit_eq, ?_, ?_, ?_⟩
    · rw [List.flatMap_append, List.flatMap_singleton]
      show batch.files = truncate limit (fileRanking (_ ++ []))
      rw [List.append_nil, h.files_eq]
    · rw [List.filterMap_append, ← List.append_assoc, ← h.warnings_eq]
      rfl
    · show 0 < batch.successfulWorkspaces ↔ _
      rw [h.successful_iff]
      simp [Succeeded]

theorem merged_recordAll (records : List (WorkspaceResult Path)) :
    Merged ops warnings limit records ((FileSearchBatch.new warnings limit).recordAll ops records) := by
  induction records using List.reverseRecOn with
  | nil =>
    refine ⟨rfl, ?_, (List.append_nil _).symm, by simp [FileSearchBatch.recordAll, FileSearchBatch.new]⟩
    cases limit <;> simp [FileSearchBatch.recordAll, FileSearchBatch.new, truncate, fileRanking,
      ranking, keepFirst]
  | append_singleton records entry ih =>
    unfold FileSearchBatch.recordAll
    rw [List.foldl_append]
    exact merged_record ih entry

/-! ## The ranking as a merge -/

/-- A result of its path that no other outranks, and no earlier one equals. -/
def IsHighestRanked (file : FileSearchResult Path) (all : List (FileSearchResult Path)) : Prop :=
  ∃ before after, all = before ++ file :: after ∧
    (∀ other ∈ before, other.filePath = file.filePath → other.hitCount < file.hitCount) ∧
    ∀ other ∈ after, other.filePath = file.filePath → other.hitCount ≤ file.hitCount

/-- For every path its highest-ranked result, by descending hit count and ascending path. -/
structure IsMerge (all merged : List (FileSearchResult Path)) : Prop where
  sorted : merged.Pairwise fun left right => right.hitCount < left.hitCount ∨
    left.hitCount = right.hitCount ∧ left.filePath < right.filePath
  mem_iff : ∀ file, file ∈ merged ↔ IsHighestRanked file all

theorem isMerge_fileRanking (all : List (FileSearchResult Path)) :
    IsMerge all (fileRanking all) where
  sorted := by
    have hsorted : (fileRanking all).Pairwise NotAfter := ranking_sorted all
    have hnodup := List.pairwise_map.mp
      (ranking_nodup NotAfter FileSearchResult.filePath all)
    refine (hsorted.and hnodup).imp fun {left right} h => ?_
    rcases compareFiles_ne_gt.mp h.1 with hcount | ⟨hcount, hpath⟩
    · exact .inl hcount
    · exact .inr ⟨hcount, lt_of_le_of_ne hpath h.2⟩
  mem_iff file := by
    have hrel : ∀ other : FileSearchResult Path, other.filePath = file.filePath →
        (¬ NotAfter other file ↔ other.hitCount < file.hitCount) ∧
        (NotAfter file other ↔ other.hitCount ≤ file.hitCount) := by
      intro other hpath
      unfold NotAfter
      rw [compareFiles_ne_gt, compareFiles_ne_gt, hpath]
      simp only [le_refl, and_true]
      omega
    unfold fileRanking
    rw [mem_ranking]
    unfold IsBest IsHighestRanked
    refine exists_congr fun before => exists_congr fun after => and_congr_right fun _ => ?_
    refine and_congr (forall₂_congr fun other _ => ?_) (forall₂_congr fun other _ => ?_)
    · exact ⟨fun h hpath => (hrel other hpath).1.mp (h hpath), fun h hpath => (hrel other hpath).1.mpr (h hpath)⟩
    · exact ⟨fun h hpath => (hrel other hpath).2.mp (h hpath), fun h hpath => (hrel other hpath).2.mpr (h hpath)⟩

/-! ## The order of the workspaces -/

/-- What a result is ranked by. -/
def rankKey (file : FileSearchResult Path) : Path × Nat := (file.filePath, file.hitCount)

/-- The order of a merge on the keys alone. -/
def KeyBefore (left right : Path × Nat) : Prop :=
  right.2 < left.2 ∨ left.2 = right.2 ∧ left.1 < right.1

instance : Std.Irrefl (@KeyBefore Path _) where
  irrefl a h := by
    unfold KeyBefore at h
    simp at h

instance : Std.Antisymm (@KeyBefore Path _) where
  antisymm a b hab hba := by
    unfold KeyBefore at hab hba
    grind

/-- Equally ranked results of one path are the same. -/
def TiesAgree (all : List (FileSearchResult Path)) : Prop :=
  ∀ left ∈ all, ∀ right ∈ all, rankKey left = rankKey right → left = right

theorem mem_of_mem_fileRanking {file : FileSearchResult Path} {all : List (FileSearchResult Path)}
    (h : file ∈ fileRanking all) : file ∈ all := by
  obtain ⟨before, after, rfl, -⟩ := mem_ranking.mp h
  simp

/-- The keys of a ranking: the paths with their highest hit counts. -/
theorem mem_map_rankKey_fileRanking {key : Path × Nat} {all : List (FileSearchResult Path)} :
    key ∈ (fileRanking all).map rankKey ↔
      (∃ file ∈ all, rankKey file = key) ∧
        ∀ file ∈ all, file.filePath = key.1 → file.hitCount ≤ key.2 := by
  -- The best result of a path has the highest hit count.
  have hbest : ∀ file, IsBest NotAfter FileSearchResult.filePath file all →
      ∀ other ∈ all, other.filePath = file.filePath → other.hitCount ≤ file.hitCount := by
    intro file hfile other hother hpath
    rcases compareFiles_ne_gt.mp (hfile.rel hother hpath) with h | h
    · exact h.le
    · exact h.1.ge
  constructor
  · intro hmem
    obtain ⟨file, hfile, rfl⟩ := List.mem_map.mp hmem
    exact ⟨⟨file, mem_of_mem_fileRanking hfile, rfl⟩, hbest file (mem_ranking.mp hfile)⟩
  · rintro ⟨⟨file, hfile, rfl⟩, hmax⟩
    obtain ⟨best, hmem, hpath⟩ :=
      exists_isBest NotAfter FileSearchResult.filePath hfile
    have hin : best ∈ fileRanking all := mem_ranking.mpr hmem
    have hle := hmax best (mem_of_mem_fileRanking hin) hpath
    have hge := hbest best hmem file hfile hpath.symm
    exact List.mem_map.mpr ⟨best, hin, Prod.ext hpath (Nat.le_antisymm hle hge)⟩

theorem map_rankKey_fileRanking_perm {all all' : List (FileSearchResult Path)}
    (h : all.Perm all') : (fileRanking all).map rankKey = (fileRanking all').map rankKey := by
  refine List.Pairwise.eq_of_mem_iff (r := KeyBefore)
    (List.pairwise_map.mpr (isMerge_fileRanking all).sorted)
    (List.pairwise_map.mpr (isMerge_fileRanking all').sorted) fun key => ?_
  rw [mem_map_rankKey_fileRanking, mem_map_rankKey_fileRanking]
  simp only [h.mem_iff]

omit [LinearOrder Path] in
theorem truncate_map (limit : Option Nat) {files files' : List (FileSearchResult Path)}
    (h : files.map rankKey = files'.map rankKey) :
    (truncate limit files).map rankKey = (truncate limit files').map rankKey := by
  cases limit with
  | none => exact h
  | some limit =>
    show (files.take limit).map rankKey = (files'.take limit).map rankKey
    rw [List.map_take, List.map_take, h]

omit [LinearOrder Path] in
theorem truncate_sublist (limit : Option Nat) (files : List (FileSearchResult Path)) :
    (truncate limit files).Sublist files := by
  cases limit with
  | none => exact .refl _
  | some limit => exact List.take_sublist limit files

namespace FileSearchBatch

/-- For every order of the workspaces: the files are the first `limit` of the merge of all
    results, a failed workspace adds its warning and nothing else, and `finish` fails exactly
    when there are warnings and no successes. Another order gives the same paths with the same
    hit counts, and the same files when equally ranked results of a path are the same. -/
theorem recordAll_merges (ops : PathOps Path) (warnings : List Str) (limit : Option Nat)
    (records : List (WorkspaceResult Path)) :
    (∃ merged, IsMerge (records.flatMap (absoluteFiles ops)) merged ∧
      ((new warnings limit).recordAll ops records).files = truncate limit merged) ∧
    ((new warnings limit).recordAll ops records).warnings =
      warnings ++ records.filterMap (failureWarning ops) ∧
    ((∃ err, ((new warnings limit).recordAll ops records).finish = .error err) ↔
      (¬ ∃ entry ∈ records, Succeeded entry) ∧
        warnings ++ records.filterMap (failureWarning ops) ≠ []) ∧
    (∀ outcome, ((new warnings limit).recordAll ops records).finish = .ok outcome →
      outcome = ((new warnings limit).recordAll ops records).finishPartial) ∧
    ∀ records', records'.Perm records →
      ((new warnings limit).recordAll ops records').files.map rankKey =
        ((new warnings limit).recordAll ops records).files.map rankKey ∧
      (TiesAgree (records.flatMap (absoluteFiles ops)) →
        ((new warnings limit).recordAll ops records').files =
          ((new warnings limit).recordAll ops records).files) := by
  have hmerged : ∀ records, Merged ops warnings limit records
      ((new warnings limit).recordAll ops records) := merged_recordAll
  have hrun := hmerged records
  refine ⟨⟨_, isMerge_fileRanking _, hrun.files_eq⟩, hrun.warnings_eq, ?_, ?_, ?_⟩
  · rw [← hrun.warnings_eq, ← hrun.successful_iff]
    unfold finish
    split
    · rename_i h
      exact ⟨fun _ => ⟨by omega, h.2⟩, fun _ => ⟨_, rfl⟩⟩
    · rename_i h
      constructor
      · intro herr
        obtain ⟨_, herr⟩ := herr
        simp at herr
      · intro hfail
        exact absurd ⟨by omega, hfail.2⟩ h
  · intro outcome hfinish
    unfold finish at hfinish
    split at hfinish
    · simp at hfinish
    · exact (Except.ok.inj hfinish).symm
  · intro records' hperm
    have hall : (records'.flatMap (absoluteFiles ops)).Perm (records.flatMap (absoluteFiles ops)) :=
      hperm.flatMap_right _
    have hkeys := truncate_map limit (map_rankKey_fileRanking_perm hall)
    rw [hrun.files_eq, (hmerged records').files_eq]
    refine ⟨hkeys, fun hties => ?_⟩
    have hmem : ∀ {all : List (FileSearchResult Path)} {file},
        file ∈ truncate limit (fileRanking all) → file ∈ all := fun {all file} h =>
      mem_of_mem_fileRanking ((truncate_sublist limit _).subset h)
    have hsame := map_eq_map_of_map_eq_map (g := id) hkeys fun left hleft right hright =>
      hties left (hall.mem_iff.mp (hmem hleft)) right (hmem hright)
    rwa [List.map_id, List.map_id] at hsame

/-! The same file below two workspaces, found once in both, with different scores. -/

private def pathLists : PathOps (List Str) where
  join root path := root ++ path
  display path := List.intercalate "/".toList path

private def oneHit (path : List Str) (score : UInt32) : FileSearchResult (List Str) :=
  ⟨path, score, 1, 0, false, []⟩

private def outerWorkspace : WorkspaceResult (List Str) :=
  (["a".toList], .ok [oneHit ["b".toList, "f.rs".toList] 0x3f800000])

private def innerWorkspace : WorkspaceResult (List Str) :=
  (["a".toList, "b".toList], .ok [oneHit ["f.rs".toList] 0x40000000])

/-- Of equally ranked results of one path the first recorded stays. -/
theorem equal_hit_counts_depend_on_order :
    ((new [] none).recordAll pathLists [outerWorkspace, innerWorkspace]).files ≠
      ((new [] none).recordAll pathLists [innerWorkspace, outerWorkspace]).files := by
  decide +kernel

end FileSearchBatch

end Ivygrep.Native
