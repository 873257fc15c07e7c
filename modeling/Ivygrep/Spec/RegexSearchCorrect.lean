import Ivygrep.ForStd.Ranking
import Ivygrep.Native.RegexSearch

/-!
# Limited regex results

The hits of sorted files, one file after the other, are in the order of the final sort. A limited
search gives the first of them, however a batch is shared out, and so does a sorted walk.
-/

namespace Ivygrep.Native

open ForStd

/-! ## The order of the hits -/

section Order

variable {Path : Type} [LinearOrder Path]

/-- The relation that hits are sorted by. -/
def HitNotAfter (left right : SearchHit Path) : Prop := compareHits left right ≠ .gt

instance : DecidableRel (@HitNotAfter Path _) := fun left right =>
  inferInstanceAs (Decidable (compareHits left right ≠ .gt))

theorem hitNotAfter_iff {left right : SearchHit Path} : HitNotAfter left right ↔
    left.filePath < right.filePath ∨
      left.filePath = right.filePath ∧ left.startLine ≤ right.startLine := by
  unfold HitNotAfter compareHits
  rw [Ne, Ordering.then_eq_gt, compare_gt_iff_gt, compare_eq_iff_eq, compare_gt_iff_gt]
  grind

instance : IsTrans (SearchHit Path) HitNotAfter where
  trans a b c hab hbc := by
    rw [hitNotAfter_iff] at *
    grind

instance : Std.Total (@HitNotAfter Path _) where
  total a b := by
    rw [hitNotAfter_iff, hitNotAfter_iff]
    grind

end Order

variable {Name ε : Type} [LinearOrder Name]

/-! ## One file -/

theorem sinkLines_none {α : Type} (lines : List α) : sinkLines none lines = lines := by
  induction lines with
  | nil => rfl
  | cons line lines ih => rw [sinkLines, ih]

/-- A sink with room takes as many lines. -/
theorem sinkLines_some {α : Type} {room : Nat} (hroom : 1 ≤ room) (lines : List α) :
    sinkLines (some room) lines = lines.take room := by
  induction lines generalizing room with
  | nil => rw [List.take_nil]; rfl
  | cons line lines ih =>
    obtain ⟨room, rfl⟩ := Nat.exists_eq_add_of_le' hroom
    rw [sinkLines, List.take_succ_cons]
    split
    · next hlast => rw [Nat.le_zero.mp (Nat.le_of_succ_le_succ hlast), List.take_zero]
    · next hmore => rw [Nat.add_sub_cancel, ih (by omega)]

variable (files : RegexFiles Name ε)

/-- All hits of a file. -/
def fileHits (path : List Name) : List (SearchHit (List Name)) := searchFile files none path

omit [LinearOrder Name] in
theorem searchFile_some {maxHits : Nat} (hmax : 1 ≤ maxHits) (path : List Name) :
    searchFile files (some maxHits) path = (fileHits files path).take maxHits := by
  unfold fileHits searchFile
  cases files.scan path with
  | none => rw [List.take_nil]
  | some scan =>
    dsimp only
    rw [sinkLines_none, sinkLines_some hmax, List.map_take]

omit [LinearOrder Name] in
theorem filePath_of_mem_fileHits {path : List Name} {hit : SearchHit (List Name)}
    (h : hit ∈ fileHits files path) : hit.filePath = path := by
  unfold fileHits searchFile at h
  cases hscan : files.scan path with
  | none =>
    rw [hscan] at h
    exact absurd h List.not_mem_nil
  | some scan =>
    rw [hscan] at h
    obtain ⟨line, -, rfl⟩ := List.mem_map.mp h
    rfl

theorem fileHits_sorted (path : List Name) : (fileHits files path).Pairwise HitNotAfter := by
  unfold fileHits searchFile
  cases files.scan path with
  | none => exact List.Pairwise.nil
  | some scan =>
    dsimp only
    rw [sinkLines_none, List.pairwise_map]
    refine (List.pairwise_map.mp scan.ascending).imp fun hlt => ?_
    exact hitNotAfter_iff.mpr (.inr ⟨rfl, Nat.le_of_lt hlt⟩)

/-- The hits of sorted files are sorted. -/
theorem flatMap_fileHits_sorted {paths : List (List Name)} (h : paths.Pairwise (· < ·)) :
    (paths.flatMap (fileHits files)).Pairwise HitNotAfter := by
  rw [List.pairwise_flatMap]
  refine ⟨fun path _ => fileHits_sorted files path, h.imp fun hlt left hleft right hright => ?_⟩
  rw [hitNotAfter_iff, filePath_of_mem_fileHits files hleft, filePath_of_mem_fileHits files hright]
  exact .inl hlt

theorem sortHits_flatMap {paths : List (List Name)} (h : paths.Pairwise (· < ·)) :
    sortHits (paths.flatMap (fileHits files)) = paths.flatMap (fileHits files) :=
  (flatMap_fileHits_sorted files h).insertionSort_eq

/-! ## Known files -/

/-- The first hits of some files. -/
def firstHits (maxHits : Nat) (paths : List (List Name)) : List (SearchHit (List Name)) :=
  (sortHits (paths.flatMap (fileHits files))).take maxHits

variable {maxHits : Nat}

theorem mergeHits_firstHits (left right : List (List Name)) :
    mergeHits maxHits (firstHits files maxHits left) (firstHits files maxHits right) =
      firstHits files maxHits (left ++ right) := by
  unfold firstHits
  rw [List.flatMap_append]
  exact take_insertionSort_append_take HitNotAfter _ _ maxHits

theorem firstHits_nil : firstHits files maxHits [] = [] := List.take_nil

theorem searchBatch_eq (hmax : 1 ≤ maxHits) (sharing : Sharing Name) (batch : List (List Name)) :
    searchBatch files sharing maxHits batch = firstHits files maxHits batch := by
  have hsingle : ∀ path, searchFile files (some maxHits) path = firstHits files maxHits [path] := by
    intro path
    rw [searchFile_some files hmax, firstHits, List.flatMap_singleton]
    congr 1
    exact (fileHits_sorted files path).insertionSort_eq.symm
  have hstep : ∀ done path, mergeHits maxHits (firstHits files maxHits done)
      (searchFile files (some maxHits) path) = firstHits files maxHits (done ++ [path]) := by
    intro done path
    rw [hsingle, mergeHits_firstHits]
  rw [searchBatch, Partition.foldReduce_eq (firstHits_nil files) hstep (mergeHits_firstHits files),
    sharing.items]

/-- Later batches hold later files only, so the loop may stop when there are enough hits. -/
theorem searchBatches_eq (hmax : 1 ≤ maxHits) (sharing : Sharing Name)
    (batches : List (List (List Name))) {done : List (List Name)}
    (h : (done ++ batches.flatten).Pairwise (· < ·)) :
    searchBatches files sharing maxHits (firstHits files maxHits done) batches =
      firstHits files maxHits (done ++ batches.flatten) := by
  induction batches generalizing done with
  | nil =>
    rw [List.flatten_nil, List.append_nil]
    rfl
  | cons batch batches ih =>
    rw [List.flatten_cons, ← List.append_assoc] at h ⊢
    rw [searchBatches, searchBatch_eq files hmax, mergeHits_firstHits]
    split
    · next henough =>
      have hdone := h.sublist (List.sublist_append_left (done ++ batch) batches.flatten)
      rw [firstHits, sortHits_flatMap files hdone, List.length_take] at henough
      have hall : (done ++ batch ++ batches.flatten).flatMap (fileHits files) =
          (done ++ batch).flatMap (fileHits files) ++ batches.flatten.flatMap (fileHits files) :=
        List.flatMap_append
      rw [firstHits, firstHits, sortHits_flatMap files h, sortHits_flatMap files hdone, hall,
        List.take_append_of_le_length (by omega)]
    · exact ih h

/-- All hits come file by file. -/
theorem regexSearchParallel_none (sharing : Sharing Name) {paths : List (List Name)}
    (h : paths.Pairwise (· < ·)) :
    regexSearchParallel files sharing paths none = paths.flatMap (fileHits files) :=
  sortHits_flatMap files h

/-- A limit cuts them off. -/
theorem regexSearchParallel_some (hmax : 1 ≤ maxHits) (sharing : Sharing Name)
    {paths : List (List Name)} (h : paths.Pairwise (· < ·)) :
    regexSearchParallel files sharing paths (some maxHits) =
      (paths.flatMap (fileHits files)).take maxHits := by
  have hflatten := chunks_flatten (show 0 < regexParallelBatchFiles by decide) paths
  have hsorted : ([] ++ (chunks regexParallelBatchFiles paths).flatten).Pairwise (· < ·) := by
    rw [List.nil_append, hflatten]
    exact h
  have hbatches := searchBatches_eq files hmax sharing (chunks regexParallelBatchFiles paths)
    hsorted
  rw [List.nil_append, hflatten, firstHits_nil] at hbatches
  rw [← sortHits_flatMap files h]
  exact hbatches

/-! ## A walk -/

/-- The files of a walk that count. -/
def visiblePaths (filter : WalkFilter Name) (entries : List (List Name × Option Bool)) :
    List (List Name) :=
  (entries.filter fun entry => entry.2 = some true ∧ filter.admits entry.1 = true).map Prod.fst

variable {filter : WalkFilter Name}

/-- The files of a sorted walk are sorted. -/
theorem visiblePaths_sorted {tree : ForStd.FileTree Name Bool} (h : tree.Distinct) :
    (visiblePaths filter tree.walk).Pairwise (· < ·) :=
  List.pairwise_map.mpr (tree.walk_sorted h |>.filter _)

omit [LinearOrder Name] in
theorem mem_visiblePaths {entries : List (List Name × Option Bool)} {path : List Name} :
    path ∈ visiblePaths filter entries ↔
      (path, some true) ∈ entries ∧ filter.admits path = true := by
  unfold visiblePaths
  rw [List.mem_map]
  constructor
  · rintro ⟨⟨path, isFile⟩, hentry, rfl⟩
    obtain ⟨hmem, hvisible⟩ := List.mem_filter.mp hentry
    obtain ⟨rfl, hadmits⟩ := of_decide_eq_true hvisible
    exact ⟨hmem, hadmits⟩
  · rintro ⟨hmem, hadmits⟩
    exact ⟨(path, some true), List.mem_filter.mpr ⟨hmem, decide_eq_true ⟨rfl, hadmits⟩⟩, rfl⟩

omit [LinearOrder Name] in
theorem visiblePaths_cons_of_visible {path : List Name} {isFile : Option Bool}
    (entries : List (List Name × Option Bool)) (hfile : isFile = some true)
    (hadmits : filter.admits path = true) :
    visiblePaths filter ((path, isFile) :: entries) = path :: visiblePaths filter entries := by
  unfold visiblePaths
  rw [List.filter_cons, if_pos (decide_eq_true ⟨hfile, hadmits⟩)]
  rfl

omit [LinearOrder Name] in
theorem visiblePaths_cons_of_hidden {path : List Name} {isFile : Option Bool}
    (entries : List (List Name × Option Bool))
    (h : ¬ (isFile = some true ∧ filter.admits path = true)) :
    visiblePaths filter ((path, isFile) :: entries) = visiblePaths filter entries := by
  unfold visiblePaths
  rw [List.filter_cons, if_neg (by rw [decide_eq_true_eq]; exact h)]

omit [LinearOrder Name] in
/-- The hits of a file are pushed until there are as many as wanted. -/
theorem pushHits_some {hits localHits : List (SearchHit (List Name))}
    (hroom : hits.length < maxHits) (hfits : (hits ++ localHits).length ≤ maxHits) :
    pushHits (some maxHits) hits localHits =
      (hits ++ localHits, decide (maxHits ≤ (hits ++ localHits).length)) := by
  induction localHits generalizing hits with
  | nil =>
    rw [List.append_nil, decide_eq_false (Nat.not_le_of_lt hroom)]
    rfl
  | cons hit localHits ih =>
    rw [List.append_cons] at hfits ⊢
    unfold pushHits
    dsimp only
    rw [Option.any_some]
    split
    · next hfull =>
      have hlast : localHits = [] := by
        rw [decide_eq_true_eq] at hfull
        rw [List.length_append] at hfits
        exact List.length_eq_zero_iff.mp (by omega)
      rw [hlast, List.append_nil, hfull]
    · next hmore =>
      rw [decide_eq_true_eq] at hmore
      exact ih (Nat.lt_of_not_le hmore) hfits

omit [LinearOrder Name] in
theorem pushHits_none (hits localHits : List (SearchHit (List Name))) :
    pushHits none hits localHits = (hits ++ localHits, false) := by
  induction localHits generalizing hits with
  | nil =>
    rw [List.append_nil]
    rfl
  | cons hit localHits ih =>
    rw [List.append_cons]
    exact ih (hits ++ [hit])

omit [LinearOrder Name] in
theorem fileHits_of_scan {path : List Name} {scan : FileScan ε} (h : files.scan path = some scan) :
    fileHits files path = scan.lines.map (lineHit files path) := by
  unfold fileHits searchFile
  rw [h]
  dsimp only
  rw [sinkLines_none]

omit [LinearOrder Name] in
theorem fileHits_of_closed {path : List Name} (h : files.scan path = none) :
    fileHits files path = [] := by
  unfold fileHits searchFile
  rw [h]

section Walk

variable {files}

omit [LinearOrder Name] in
/-- An unlimited walk gives the hits of its files, one after the other. -/
theorem walkHits_none
    (hread : ∀ path scan, files.scan path = some scan → scan.failure = none)
    (htype : ∀ path, filter.typeFilterMatch path = .accept)
    (hits : List (SearchHit (List Name))) (entries : List (List Name × Option Bool)) :
    walkHits files filter none hits entries =
      .ok (hits ++ (visiblePaths filter entries).flatMap (fileHits files)) := by
  induction entries generalizing hits with
  | nil =>
    rw [visiblePaths, List.filter_nil, List.map_nil, List.flatMap_nil, List.append_nil]
    rfl
  | cons entry entries ih =>
    obtain ⟨path, isFile⟩ := entry
    unfold walkHits
    split
    · next hskip =>
      rw [ih, visiblePaths_cons_of_hidden]
      rintro ⟨hfile, hadmits⟩
      rcases hskip with hno | hno | hno
      · exact hno hfile
      · rw [hadmits] at hno
        cases hno
      · rw [htype] at hno
        cases hno
    next hvisible =>
    rw [not_or, not_or, not_not, Bool.not_eq_false] at hvisible
    rw [visiblePaths_cons_of_visible entries hvisible.1 hvisible.2.1, List.flatMap_cons]
    dsimp only
    rw [if_neg (by simp [remainingHits])]
    cases hscan : files.scan path with
    | none => rw [ih, fileHits_of_closed files hscan, List.nil_append]
    | some scan =>
      have hfailure : searchFailure (remainingHits none hits) scan = none := hread path scan hscan
      dsimp only
      rw [hfailure]
      dsimp only
      rw [if_neg (by simp [htype]), fileHits_of_scan files hscan, remainingHits, Option.map_none,
        sinkLines_none, pushHits_none]
      dsimp only
      rw [if_neg Bool.false_ne_true, ih, List.append_assoc]

omit [LinearOrder Name] in
/-- A limited walk gives the first of them. -/
theorem walkHits_some
    (hread : ∀ path scan, files.scan path = some scan → scan.failure = none)
    (htype : ∀ path, filter.typeFilterMatch path = .accept)
    {hits : List (SearchHit (List Name))} (hroom : hits.length < maxHits)
    (entries : List (List Name × Option Bool)) :
    walkHits files filter (some maxHits) hits entries =
      .ok ((hits ++ (visiblePaths filter entries).flatMap (fileHits files)).take maxHits) := by
  induction entries generalizing hits with
  | nil =>
    rw [visiblePaths, List.filter_nil, List.map_nil, List.flatMap_nil, List.append_nil,
      List.take_of_length_le (Nat.le_of_lt hroom)]
    rfl
  | cons entry entries ih =>
    obtain ⟨path, isFile⟩ := entry
    unfold walkHits
    split
    · next hskip =>
      rw [ih hroom, visiblePaths_cons_of_hidden]
      rintro ⟨hfile, hadmits⟩
      rcases hskip with hno | hno | hno
      · exact hno hfile
      · rw [hadmits] at hno
        cases hno
      · rw [htype] at hno
        cases hno
    next hvisible =>
    rw [not_or, not_or, not_not, Bool.not_eq_false] at hvisible
    rw [visiblePaths_cons_of_visible entries hvisible.1 hvisible.2.1, List.flatMap_cons]
    have hremaining : remainingHits (some maxHits) hits = some (maxHits - hits.length) := rfl
    dsimp only
    rw [hremaining, if_neg (by rw [Option.some.injEq]; omega)]
    cases hscan : files.scan path with
    | none =>
      rw [fileHits_of_closed files hscan, List.nil_append]
      exact ih hroom
    | some scan =>
      have hfailure : searchFailure (some (maxHits - hits.length)) scan = none := by
        unfold searchFailure
        rw [hread path scan hscan, ite_self]
      dsimp only
      rw [hfailure]
      dsimp only
      rw [if_neg (by simp [htype]), sinkLines_some (by omega), List.map_take,
        ← fileHits_of_scan files hscan]
      generalize fileHits files path = found
      have hfits : (hits ++ found.take (maxHits - hits.length)).length ≤ maxHits := by
        rw [List.length_append, List.length_take]
        omega
      rw [pushHits_some hroom hfits]
      dsimp only
      split
      · -- The limit is reached within this file.
        next hfull =>
        rw [decide_eq_true_eq, List.length_append, List.length_take] at hfull
        rw [List.take_append, List.take_of_length_le (Nat.le_of_lt hroom),
          List.take_append_of_le_length (by omega)]
      · next hmore =>
        rw [decide_eq_true_eq, List.length_append, List.length_take] at hmore
        rw [List.take_of_length_le (show found.length ≤ maxHits - hits.length by omega)]
        rw [ih (by rw [List.length_append]; omega), List.append_assoc]

end Walk

/-- For any sorted files and any limit: the limited search gives the first hits of the unlimited
    one, and a walk over the same files gives the same hits, with and without the limit. -/
theorem regexSearch_limited (files : RegexFiles Name ε) {paths : List (List Name)}
    (hpaths : paths.Pairwise (· < ·)) {maxHits : Nat} (hmax : 1 ≤ maxHits)
    (sharing unlimitedSharing : Sharing Name) :
    let unlimited := regexSearchParallel files unlimitedSharing paths none
    let limited := regexSearchParallel files sharing paths (some maxHits)
    unlimited.Pairwise HitNotAfter ∧ limited = unlimited.take maxHits ∧
      ∀ (tree : ForStd.FileTree Name Bool) (filter : WalkFilter Name), tree.Distinct →
        (∀ path, path ∈ paths ↔ (path, some true) ∈ tree.walk ∧ filter.admits path = true) →
        (∀ path, filter.typeFilterMatch path = .accept) →
        (∀ path scan, files.scan path = some scan → scan.failure = none) →
        regexSearchWalk files filter tree (some maxHits) = .ok limited ∧
          regexSearchWalk files filter tree none = .ok unlimited := by
  intro unlimited limited
  have hunlimited : unlimited = paths.flatMap (fileHits files) :=
    regexSearchParallel_none files unlimitedSharing hpaths
  have hlimited : limited = (paths.flatMap (fileHits files)).take maxHits :=
    regexSearchParallel_some files hmax sharing hpaths
  rw [hunlimited, hlimited]
  refine ⟨flatMap_fileHits_sorted files hpaths, rfl, ?_⟩
  intro tree filter hdistinct hvisible htype hread
  have hsame : visiblePaths filter tree.walk = paths := by
    apply (visiblePaths_sorted hdistinct).eq_of_mem_iff hpaths
    intro path
    rw [mem_visiblePaths, hvisible]
  unfold regexSearchWalk
  rw [walkHits_some hread htype hmax, walkHits_none hread htype, hsame]
  exact ⟨rfl, rfl⟩

/-- Two matching lines in every file. -/
private def twoLineFiles : RegexFiles Nat Unit where
  scan _ := some ⟨[(1, []), (4, [])], by decide, none⟩
  regexPreviewLine := id

private def everyFile : WalkFilter Nat where
  admits _ := true
  typeFilterMatch _ := .accept
  isIndexableText _ := true

/-- The file `2`, and a directory `1` with the file `5` and a symlink. -/
private def smallTree : ForStd.FileTree Nat Bool :=
  .dir [(2, .file true), (1, .dir [(5, .file true), (3, .file false)])]

private def oneSegment : Sharing Nat := ⟨.segment, fun _ => rfl⟩

theorem regexSearch_limited_small : ∃ hits, regexSearchWalk twoLineFiles everyFile smallTree
    (some 3) = .ok hits ∧
      hits.map (fun hit => (hit.filePath, hit.startLine)) = [([1, 5], 1), ([1, 5], 4), ([2], 1)] := by
  have hpaths : ([[1, 5], [2]] : List (List Nat)).Pairwise (· < ·) := by decide
  have hwalk : smallTree.walk =
      [([], none), ([1], none), ([1, 3], some false), ([1, 5], some true), ([2], some true)] := by
    rfl
  obtain ⟨-, hlimited, hwalks⟩ := regexSearch_limited twoLineFiles hpaths
    (show 1 ≤ 3 by decide) oneSegment oneSegment
  have hdistinct : smallTree.Distinct := by
    simp [smallTree, ForStd.FileTree.Distinct, ForStd.FileTree.DistinctEntries]
  have hvisible : ∀ path, path ∈ [[1, 5], [2]] ↔
      (path, some true) ∈ smallTree.walk ∧ everyFile.admits path = true := by
    intro path
    rw [hwalk]
    simp [everyFile]
  have hlimit := (hwalks smallTree everyFile hdistinct hvisible (fun _ => rfl) (by
    rintro path scan hscan
    obtain rfl := Option.some.inj hscan
    rfl)).1
  refine ⟨_, hlimit, ?_⟩
  rw [hlimited, regexSearchParallel_none twoLineFiles oneSegment hpaths]
  rfl

end Ivygrep.Native
