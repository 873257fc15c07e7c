import Ivygrep.ForStd.Ranking
import Ivygrep.Native.LiteralSearch
import Ivygrep.Spec.LiteralFilesCorrect

/-!
# Limited literal results

The bounds of a snippet do not decrease along the lines of a file, so a stable sort by path and
bounds leaves the hits of a file in the order of their lines. Truncating a file, a fold or a merge
then drops no hit that belongs among the first, however the files are shared out.
-/

namespace Ivygrep.Native

open ForStd

/-! ## Snippet bounds -/

/-- The start of a snippet does not decrease with its line. -/
theorem snippetBounds_start_mono {left right : Nat} (h : left ≤ right) (context count : Nat) :
    (snippetBounds left context count).1 ≤ (snippetBounds right context count).1 := by
  simp only [snippetBounds]
  omega

theorem snippetBounds_end_mono {left right : Nat} (h : left ≤ right) (context count : Nat) :
    (snippetBounds left context count).2 ≤ (snippetBounds right context count).2 := by
  simp only [snippetBounds, saturatingAdd]
  omega

theorem saturatingAdd_mono {left right : Nat} (h : left ≤ right) (other : Nat) :
    saturatingAdd left other ≤ saturatingAdd right other := by
  simp only [saturatingAdd]
  omega

/-! ## The order of the hits -/

section Order

variable {Path : Type} [LinearOrder Path]

theorem snippetNotAfter_iff {left right : SearchHit Path} : SnippetNotAfter left right ↔
    left.filePath < right.filePath ∨ left.filePath = right.filePath ∧
      (left.startLine < right.startLine ∨
        left.startLine = right.startLine ∧ left.endLine ≤ right.endLine) := by
  unfold SnippetNotAfter compareSnippets
  rw [Ne, Ordering.then_eq_gt, Ordering.then_eq_gt, compare_gt_iff_gt, compare_eq_iff_eq,
    compare_gt_iff_gt, compare_eq_iff_eq, compare_gt_iff_gt]
  grind

instance : IsTrans (SearchHit Path) SnippetNotAfter where
  trans a b c hab hbc := by
    rw [snippetNotAfter_iff] at *
    grind

instance : Std.Total (@SnippetNotAfter Path _) where
  total a b := by
    rw [snippetNotAfter_iff, snippetNotAfter_iff]
    grind

/-- A hit with the number of its line. -/
abbrev LineHit (Path : Type) := SearchHit Path × Nat

/-- Path, start line, end line and match line. -/
def LineHit.Before (left right : LineHit Path) : Prop :=
  left.1.filePath < right.1.filePath ∨ left.1.filePath = right.1.filePath ∧
    (left.1.startLine < right.1.startLine ∨ left.1.startLine = right.1.startLine ∧
      (left.1.endLine < right.1.endLine ∨
        left.1.endLine = right.1.endLine ∧ left.2 < right.2))

instance : DecidableRel (@LineHit.Before Path _) :=
  fun _ _ => inferInstanceAs (Decidable (_ ∨ _))

/-- The hit that is not after the other, by line as well. -/
def LineHit.NotAfter (left right : LineHit Path) : Prop := ¬ LineHit.Before right left

instance : DecidableRel (@LineHit.NotAfter Path _) :=
  fun left right => inferInstanceAs (Decidable (¬ LineHit.Before right left))

instance : IsTrans (LineHit Path) LineHit.NotAfter where
  trans a b c hab hbc := by
    unfold LineHit.NotAfter LineHit.Before at *
    grind

instance : Std.Total (@LineHit.NotAfter Path _) where
  total a b := by
    unfold LineHit.NotAfter LineHit.Before
    grind

theorem LineHit.Before.snippetNotAfter {left right : LineHit Path} (h : left.Before right) :
    SnippetNotAfter left.1 right.1 := by
  rw [snippetNotAfter_iff]
  unfold LineHit.Before at h
  grind

theorem LineHit.Before.notAfter {left right : LineHit Path} (h : left.Before right) :
    left.NotAfter right := by
  unfold LineHit.NotAfter LineHit.Before at *
  grind

/-- Between files, the path alone decides. -/
theorem snippetNotAfter_iff_of_ne {left right : LineHit Path}
    (h : left.1.filePath ≠ right.1.filePath) :
    SnippetNotAfter left.1 right.1 ↔ left.NotAfter right := by
  rw [snippetNotAfter_iff]
  unfold LineHit.NotAfter LineHit.Before
  grind

end Order

/-! ## The hits of the files -/

namespace LiteralSearch

variable {Path : Type} [LinearOrder Path] (search : LiteralSearch Path)

/-- The hits of a file with the numbers of their lines. -/
def lineHits (candidate : Path × Path) : List (LineHit Path) :=
  match search.readToString candidate.2 with
  | none => []
  | some content =>
    if ((Str.bytes content).take textSniffBytes).contains 0 then []
    else
      let lines := Str.lines content
      let found := lines.zipIdx.filter fun line =>
        Str.contains (search.lowercase.foldLiteralCase line.1) search.queryLower
      found.map fun line => (literalHit search.lowercase candidate.1 search.queryLower
        search.context lines line, line.2 + 1)

omit [LinearOrder Path] in
theorem literalHitsForFile_none (candidate : Path × Path) :
    search.literalHitsForFile none candidate = (search.lineHits candidate).map Prod.fst := by
  unfold literalHitsForFile lineHits
  cases search.readToString candidate.2 with
  | none => rfl
  | some content =>
    simp only [literalHitsInContent]
    split
    · rfl
    · rw [List.map_map]
      rfl

omit [LinearOrder Path] in
theorem literalHitsForFile_some (maxHits : Nat) (candidate : Path × Path) :
    search.literalHitsForFile (some maxHits) candidate =
      (search.literalHitsForFile none candidate).take maxHits := by
  unfold literalHitsForFile
  cases search.readToString candidate.2 with
  | none => exact List.take_nil.symm
  | some content => exact literalHitsInContent_some ..

omit [LinearOrder Path] in
theorem filePath_of_mem_lineHits {candidate : Path × Path} {hit : LineHit Path}
    (h : hit ∈ search.lineHits candidate) : hit.1.filePath = candidate.1 := by
  unfold lineHits at h
  cases hread : search.readToString candidate.2 with
  | none => simp [hread] at h
  | some content =>
    simp only [hread] at h
    split at h
    · simp at h
    · obtain ⟨line, -, rfl⟩ := List.mem_map.mp h
      rfl

/-- The hits of a file come in the order of their lines. -/
theorem lineHits_before (candidate : Path × Path) :
    (search.lineHits candidate).Pairwise LineHit.Before := by
  unfold lineHits
  cases search.readToString candidate.2 with
  | none => exact List.Pairwise.nil
  | some content =>
    simp only
    split
    · exact List.Pairwise.nil
    · rw [List.pairwise_map]
      have hascending : ((Str.lines content).zipIdx.map Prod.snd).Pairwise (· < ·) := by
        rw [List.zipIdx_map_snd]
        exact List.pairwise_lt_range'
      refine ((List.pairwise_map.mp hascending).filter _).imp fun {left right} hlt => ?_
      have hline := saturatingAdd_mono (Nat.le_of_lt hlt) 1
      have hstart := snippetBounds_start_mono hline search.context (Str.lines content).length
      have hend := snippetBounds_end_mono hline search.context (Str.lines content).length
      -- the bounds may coincide, but then the line decides
      refine .inr ⟨rfl, ?_⟩
      simp only [literalHit]
      omega

/-- The hits of all files, in the order of the candidates. -/
def allHits (candidates : List (Path × Path)) : List (LineHit Path) :=
  candidates.flatMap search.lineHits

omit [LinearOrder Path] in
theorem map_allHits (candidates : List (Path × Path)) :
    candidates.flatMap (search.literalHitsForFile none) =
      (search.allHits candidates).map Prod.fst := by
  rw [allHits, List.map_flatMap]
  exact List.flatMap_congr fun candidate _ => search.literalHitsForFile_none candidate

section Distinct

variable {candidates : List (Path × Path)} (hdistinct : (candidates.map Prod.fst).Nodup)

include hdistinct in
/-- Two hits come in the order of their lines, or from different files. -/
theorem allHits_pairwise : (search.allHits candidates).Pairwise fun left right =>
    left.Before right ∨ left.1.filePath ≠ right.1.filePath := by
  rw [allHits, List.pairwise_flatMap]
  refine ⟨fun candidate _ => (search.lineHits_before candidate).imp .inl, ?_⟩
  refine (List.pairwise_map.mp hdistinct).imp fun {left right} hne leftHit hleft rightHit hright => ?_
  rw [search.filePath_of_mem_lineHits hleft, search.filePath_of_mem_lineHits hright]
  exact .inr hne

/-- All hits by path, start line, end line and match line. -/
def sortedHits (candidates : List (Path × Path)) : List (LineHit Path) :=
  (search.allHits candidates).insertionSort LineHit.NotAfter

theorem sortedHits_perm (candidates : List (Path × Path)) :
    (search.sortedHits candidates).Perm (search.allHits candidates) :=
  List.perm_insertionSort _ _

include hdistinct in
theorem sortedHits_before : (search.sortedHits candidates).Pairwise LineHit.Before := by
  have hapart : (search.sortedHits candidates).Pairwise fun left right =>
      left.Before right ∨ right.Before left := by
    refine (search.sortedHits_perm candidates).symm.pairwise ?_ fun h => h.symm
    refine (search.allHits_pairwise hdistinct).imp fun {left right} h => ?_
    rcases h with hbefore | hne
    · exact .inl hbefore
    · exact (lt_or_gt_of_ne hne).imp .inl .inl
  refine hapart.imp₂ (fun left right h hnotAfter => ?_)
    (List.pairwise_insertionSort LineHit.NotAfter _)
  exact h.resolve_right hnotAfter

include hdistinct in
/-- The stable sort by snippets leaves the hits in the order of their lines. -/
theorem sort_allHits : ((search.allHits candidates).map Prod.fst).insertionSort SnippetNotAfter =
    (search.sortedHits candidates).map Prod.fst := by
  have hagree : (search.allHits candidates).Pairwise fun left right =>
      SnippetNotAfter left.1 right.1 ↔ left.NotAfter right := by
    refine (search.allHits_pairwise hdistinct).imp fun {left right} h => ?_
    rcases h with hbefore | hne
    · exact iff_of_true hbefore.snippetNotAfter hbefore.notAfter
    · exact snippetNotAfter_iff_of_ne hne
  rw [sortedHits, ← insertionSort_congr (fun left right : LineHit Path =>
    SnippetNotAfter left.1 right.1) hagree]
  exact (List.map_insertionSort _ _ Prod.fst _ fun _ _ _ _ => Iff.rfl).symm

end Distinct

/-! ## Truncated merges -/

/-- The first hits of some files. -/
def firstHits (maxHits : Nat) (candidates : List (Path × Path)) : List (SearchHit Path) :=
  (((search.allHits candidates).map Prod.fst).insertionSort SnippetNotAfter).take maxHits

theorem mergeHits_firstHits (maxHits : Nat) (left right : List (Path × Path)) :
    mergeHits (some maxHits) (search.firstHits maxHits left) (search.firstHits maxHits right) =
      search.firstHits maxHits (left ++ right) := by
  unfold firstHits allHits
  rw [List.flatMap_append, List.map_append]
  exact take_insertionSort_append_take SnippetNotAfter _ _ maxHits

/-- The hits of a file are sorted, so that its first hits are those of its first lines. -/
theorem literalHitsForFile_firstHits (maxHits : Nat) (candidate : Path × Path) :
    search.literalHitsForFile (some maxHits) candidate = search.firstHits maxHits [candidate] := by
  have hsorted : ((search.lineHits candidate).map Prod.fst).Pairwise SnippetNotAfter :=
    List.pairwise_map.mpr
      ((search.lineHits_before candidate).imp LineHit.Before.snippetNotAfter)
  rw [literalHitsForFile_some, literalHitsForFile_none, firstHits, allHits,
    List.flatMap_singleton, hsorted.insertionSort_eq]

theorem literalSearchPaths_some (maxHits : Nat) (paths : Partition (Path × Path)) :
    search.literalSearchPaths (some maxHits) paths = search.firstHits maxHits paths.items := by
  refine Partition.foldReduce_eq ?_ ?_ (search.mergeHits_firstHits maxHits) paths
  · exact List.take_nil
  · intro done candidate
    rw [literalHitsForFile_firstHits, mergeHits_firstHits]

theorem literalSearchPaths_none (paths : Partition (Path × Path)) :
    search.literalSearchPaths none paths =
      ((search.allHits paths.items).map Prod.fst).insertionSort SnippetNotAfter := by
  rw [← map_allHits]
  rfl

end LiteralSearch

/-- For any candidates with distinct relative paths, the unlimited search gives every hit once, by
path, start line, end line and match line; a limited search gives the first of them, however the
candidates are shared out. -/
theorem literalSearchPaths_prefix {Path : Type} [LinearOrder Path] (search : LiteralSearch Path)
    {candidates : List (Path × Path)} (hdistinct : (candidates.map Prod.fst).Nodup) :
    ∃ matched : List (LineHit Path),
      matched.Perm (candidates.flatMap search.lineHits) ∧ matched.Pairwise LineHit.Before ∧
        ∀ paths : Partition (Path × Path), paths.items = candidates →
          search.literalSearchPaths none paths = matched.map Prod.fst ∧
            ∀ maxHits, 1 ≤ maxHits →
              search.literalSearchPaths (some maxHits) paths =
                (matched.map Prod.fst).take maxHits := by
  refine ⟨search.sortedHits candidates, search.sortedHits_perm candidates,
    search.sortedHits_before hdistinct, ?_⟩
  intro paths hitems
  rw [search.literalSearchPaths_none, hitems, search.sort_allHits hdistinct]
  refine ⟨rfl, fun maxHits _ => ?_⟩
  rw [search.literalSearchPaths_some, hitems, LiteralSearch.firstHits,
    search.sort_allHits hdistinct]

/-- A file `1` with two matching lines, and a file `2` with one. -/
private def smallSearch : LiteralSearch Nat where
  lowercase := asciiFolding
  readToString path :=
    match path with
    | 1 => some "xa\nA".toList
    | 2 => some "a\nb".toList
    | _ => none
  queryLower := ['a']
  context := 3

/-- The snippets of both lines of file `1` have the same bounds. -/
theorem literalSearchPaths_prefix_small :
    ∃ matched : List (LineHit Nat), matched.length = 3 ∧ matched.Pairwise LineHit.Before ∧
      smallSearch.literalSearchPaths (some 2) (.join (.segment [(2, 2)]) (.segment [(1, 1)])) =
        (matched.map Prod.fst).take 2 := by
  obtain ⟨matched, hperm, hbefore, hpaths⟩ :=
    literalSearchPaths_prefix smallSearch
      (show (([(2, 2), (1, 1)] : List (Nat × Nat)).map Prod.fst).Nodup by decide)
  have hlength : ([(2, 2), (1, 1)].flatMap smallSearch.lineHits).length = 3 := by decide +kernel
  exact ⟨matched, hperm.length_eq.trans hlength, hbefore,
    (hpaths (.join (.segment [(2, 2)]) (.segment [(1, 1)])) rfl).2 2 (by decide)⟩

end Ivygrep.Native
