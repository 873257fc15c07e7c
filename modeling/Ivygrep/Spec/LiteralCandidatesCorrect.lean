import Ivygrep.Native.LiteralCandidates
import Ivygrep.Spec.LiteralPrefilterCorrect
import Ivygrep.Spec.LiteralSearchCorrect

/-!
# The index gives the hits of the walk

The candidates of the index are other files than those of the walk, and fewer. Those that it leaves
out have no hit, so that a search with the index answers as a search without one does.
-/

namespace Ivygrep.Native

open ForStd

/-! ## Candidates with the same hits -/

namespace LiteralSearch

variable {Path : Type} [LinearOrder Path] (search : LiteralSearch Path)

/-- Two lists of files, each of them without repetitions, that have the same files with hits. -/
structure SameHits (left right : List (Path × Path)) : Prop where
  nodup_left : (left.map Prod.fst).Nodup
  nodup_right : (right.map Prod.fst).Nodup
  mem_iff : ∀ candidate, search.lineHits candidate ≠ [] → (candidate ∈ left ↔ candidate ∈ right)

omit [LinearOrder Path] in
theorem allHits_filter (candidates : List (Path × Path)) :
    search.allHits (candidates.filter fun candidate => search.lineHits candidate ≠ []) =
      search.allHits candidates := by
  induction candidates with
  | nil => rfl
  | cons candidate candidates ih =>
    simp only [allHits, List.flatMap_cons] at ih ⊢
    by_cases h : search.lineHits candidate = []
    · rw [List.filter_cons_of_neg (by simpa using h), ih, h, List.nil_append]
    · rw [List.filter_cons_of_pos (by simpa using h), List.flatMap_cons, ih]

variable {search} {left right : List (Path × Path)}

omit [LinearOrder Path] in
theorem SameHits.allHits_perm (h : search.SameHits left right) :
    (search.allHits left).Perm (search.allHits right) := by
  rw [← search.allHits_filter left, ← search.allHits_filter right]
  refine List.Perm.flatMap_right _ ?_
  refine (List.perm_ext_iff_of_nodup (h.nodup_left.of_map.filter _)
    (h.nodup_right.of_map.filter _)).mpr fun candidate => ?_
  rw [List.mem_filter, List.mem_filter]
  refine and_congr_left fun hhits => h.mem_iff candidate ?_
  simpa using hhits

theorem SameHits.sortedHits_eq (h : search.SameHits left right) :
    search.sortedHits left = search.sortedHits right := by
  -- both sides are sorted by a strict order, and one is a permutation of the other
  have hperm := (search.sortedHits_perm left).trans
    (h.allHits_perm.trans (search.sortedHits_perm right).symm)
  refine List.Perm.eq_of_pairwise (fun a b _ _ hab hba => ?_)
    (search.sortedHits_before h.nodup_left) (search.sortedHits_before h.nodup_right) hperm
  exact absurd hba hab.notAfter

/-- The search finds the same in both, however they are shared out. -/
theorem SameHits.literalSearchPaths_eq (h : search.SameHits left right)
    {leftPaths rightPaths : Partition (Path × Path)} (hleft : leftPaths.items = left)
    (hright : rightPaths.items = right) (maxHits : Option Nat) :
    search.literalSearchPaths maxHits leftPaths = search.literalSearchPaths maxHits rightPaths := by
  have hsorted := congrArg (List.map Prod.fst) h.sortedHits_eq
  rw [← search.sort_allHits h.nodup_left, ← search.sort_allHits h.nodup_right] at hsorted
  cases maxHits with
  | none => rw [literalSearchPaths_none, literalSearchPaths_none, hleft, hright, hsorted]
  | some maxHits =>
    rw [literalSearchPaths_some, literalSearchPaths_some, hleft, hright, firstHits, firstHits,
      hsorted]

end LiteralSearch

/-! ## An index that is up to date -/

namespace LiteralContext

variable {Path : Type} [LinearOrder Path] {context : LiteralContext Path}
  {options : LiteralOptions Path}

/-- A document that stands for the file: it has the text that the file has now, and the filters let
    it pass. -/
def Indexes (context : LiteralContext Path) (options : LiteralOptions Path)
    (document : TrigramDocument Path × Nat) (path : Path) (content : Str) : Prop :=
  (∃ documents, (documents, document.2) ∈ context.searchers.zipIdx ∧ document.1 ∈ documents) ∧
    context.shownPath options document.2 document.1 = some path ∧
    document.1.textTrigrams = some content ∧ options.scopeQuery document.1.filePath = true

/-- The index shows files of the walk only, and each of them that can be read is indexed as it is
    now, or is one of those that the lexical index skipped. -/
structure UpToDate (context : LiteralContext Path) (options : LiteralOptions Path) : Prop where
  distinct : ((context.literalSearchWalkPaths options).map Prod.fst).Nodup
  shown : ∀ documents index, (documents, index) ∈ context.searchers.zipIdx →
    ∀ document ∈ documents, ∀ path, context.shownPath options index document = some path →
      (path, context.join path) ∈ context.literalSearchWalkPaths options
  unindexed : ∀ path ∈ context.unindexedPaths options,
    (path, context.join path) ∈ context.literalSearchWalkPaths options
  covered : ∀ candidate ∈ context.literalSearchWalkPaths options, ∀ content,
    context.readToString candidate.2 = some content →
      candidate.1 ∈ context.unindexedPaths options ∨
        ∃ document, context.Indexes options document candidate.1 content

omit [LinearOrder Path] in
/-- A walked file is the one at its relative path. -/
theorem UpToDate.join_eq (h : context.UpToDate options) {candidate : Path × Path}
    (hwalked : candidate ∈ context.literalSearchWalkPaths options)
    (hjoin : (candidate.1, context.join candidate.1) ∈ context.literalSearchWalkPaths options) :
    candidate = (candidate.1, context.join candidate.1) :=
  List.inj_on_of_nodup_map h.distinct hwalked hjoin rfl

omit [LinearOrder Path] in
/-- The terms of the runs find the candidates of the runs. -/
theorem queryMatches_terms {runs : List Str} {document : TrigramDocument Path} {content : Str}
    (htext : document.textTrigrams = some content)
    (hscope : options.scopeQuery document.filePath = true) (h : isCandidate runs content = true) :
    options.queryMatches (substringCandidateTerms runs) document = true := by
  simp only [LiteralOptions.queryMatches, htext, Option.any_some, hscope, Bool.and_true]
  exact h

omit [LinearOrder Path] in
theorem mem_indexedPaths {terms : List Str} {path : Path} :
    path ∈ context.indexedPaths options terms ↔
      ∃ documents index, (documents, index) ∈ context.searchers.zipIdx ∧ ∃ document ∈ documents,
        options.queryMatches terms document = true ∧
          context.shownPath options index document = some path := by
  simp only [indexedPaths, foundDocuments, List.zipIdx_map, List.mem_flatMap, List.mem_map,
    List.mem_filterMap]
  constructor
  · rintro ⟨_, ⟨searcher, hsearcher, rfl⟩, document, hdocument, hshown⟩
    obtain ⟨hmem, hfound⟩ := List.mem_filter.mp hdocument
    exact ⟨searcher.1, searcher.2, hsearcher, document, hmem, hfound, hshown⟩
  · rintro ⟨documents, index, hsearcher, document, hmem, hfound, hshown⟩
    exact ⟨_, ⟨(documents, index), hsearcher, rfl⟩, document,
      List.mem_filter.mpr ⟨hmem, hfound⟩, hshown⟩

theorem mem_sortedCandidates {paths : List Path} {candidate : Path × Path} :
    candidate ∈ context.sortedCandidates paths ↔
      candidate.1 ∈ paths ∧ candidate = (candidate.1, context.join candidate.1) := by
  simp only [sortedCandidates, List.mem_map, List.mem_insertionSort, List.mem_dedup]
  constructor
  · rintro ⟨path, hpath, rfl⟩
    exact ⟨hpath, rfl⟩
  · rintro ⟨hpath, heq⟩
    exact ⟨candidate.1, hpath, heq.symm⟩

theorem nodup_sortedCandidates (paths : List Path) :
    ((context.sortedCandidates paths).map Prod.fst).Nodup := by
  rw [sortedCandidates, List.map_map,
    show Prod.fst ∘ (fun path => (path, context.join path)) = id from rfl, List.map_id]
  exact (List.perm_insertionSort _ _).nodup_iff.mpr (List.nodup_dedup _)

theorem substringCandidateFiles_eq_some {runs terms : List Str} {paths : List (Path × Path)}
    (hterms : substringCandidateQuery runs = some terms)
    (h : context.substringCandidateFiles options runs = some paths) :
    paths = context.sortedCandidates
      (context.indexedPaths options terms ++ context.unindexedPaths options) := by
  unfold substringCandidateFiles at h
  split at h
  · rw [hterms, Option.bind_some] at h
    split at h
    · cases h
    · exact (Option.some.inj h).symm
  · cases h

/-- The candidates of an index that is up to date: files of the walk, and of these each one whose
    content is a candidate for the runs. -/
theorem UpToDate.substringCandidateFiles_spec (h : context.UpToDate options) {runs : List Str}
    (hterms : substringCandidateQuery runs = some (substringCandidateTerms runs))
    {paths : List (Path × Path)}
    (hpaths : context.substringCandidateFiles options runs = some paths) :
    (paths.map Prod.fst).Nodup ∧ paths ⊆ context.literalSearchWalkPaths options ∧
      ∀ candidate ∈ context.literalSearchWalkPaths options, ∀ content,
        context.readToString candidate.2 = some content → isCandidate runs content = true →
          candidate ∈ paths := by
  obtain rfl := substringCandidateFiles_eq_some hterms hpaths
  refine ⟨nodup_sortedCandidates _, ?_, ?_⟩
  · -- whatever the index shows is walked
    intro candidate hcandidate
    obtain ⟨hfound, heq⟩ := mem_sortedCandidates.mp hcandidate
    rw [heq]
    rcases List.mem_append.mp hfound with hindexed | hunindexed
    · obtain ⟨documents, index, hsearcher, document, hdocument, -, hshown⟩ :=
        mem_indexedPaths.mp hindexed
      exact h.shown documents index hsearcher document hdocument _ hshown
    · exact h.unindexed _ hunindexed
  · -- a walked file is either listed as skipped, or its document has the terms
    intro candidate hwalked content hread hruns
    rcases h.covered candidate hwalked content hread with hunindexed | ⟨document, hindexes⟩
    · exact mem_sortedCandidates.mpr ⟨List.mem_append_right _ hunindexed,
        h.join_eq hwalked (h.unindexed _ hunindexed)⟩
    · obtain ⟨⟨documents, hsearcher, hdocument⟩, hshown, htext, hscope⟩ := hindexes
      have hindexed : candidate.1 ∈ context.indexedPaths options (substringCandidateTerms runs) :=
        mem_indexedPaths.mpr ⟨documents, document.2, hsearcher, document.1, hdocument,
          queryMatches_terms htext hscope hruns, hshown⟩
      exact mem_sortedCandidates.mpr ⟨List.mem_append_left _ hindexed,
        h.join_eq hwalked (h.shown documents document.2 hsearcher document.1 hdocument _ hshown)⟩

omit [LinearOrder Path] in
/-- A file with a hit has a line that the query matches. -/
theorem exists_match_of_lineHits {search : LiteralSearch Path} {candidate : Path × Path}
    (h : search.lineHits candidate ≠ []) :
    ∃ content, search.readToString candidate.2 = some content ∧ ∃ line ∈ Str.lines content,
      Str.contains (search.lowercase.foldLiteralCase line) search.queryLower = true := by
  have hhits : search.literalHitsForFile none candidate ≠ [] := by
    rw [search.literalHitsForFile_none]
    exact fun hnil => h (List.map_eq_nil_iff.mp hnil)
  unfold LiteralSearch.literalHitsForFile at hhits
  cases hread : search.readToString candidate.2 with
  | none => simp [hread] at hhits
  | some content =>
    rw [hread] at hhits
    exact ⟨content, rfl, exists_line_of_hits hhits⟩

/-- The candidates of the index have the hits of the walk. -/
theorem UpToDate.sameHits (h : context.UpToDate options) {lowercase : Lowercase}
    (hunicode : lowercase.AsciiOnly) {queryLower : Str} {runs : List Str}
    (hspec : ∀ run ∈ runs, IsRun queryLower run) (hne : runs ≠ []) :
    (context.literalSearch options lowercase queryLower).SameHits
      ((context.substringCandidateFiles options runs).getD (context.literalSearchWalkPaths options))
      (context.literalSearchWalkPaths options) := by
  cases hpaths : context.substringCandidateFiles options runs with
  | none => exact ⟨h.distinct, h.distinct, fun _ _ => Iff.rfl⟩
  | some paths =>
    have hterms := substringCandidateQuery_eq fun run hrun => (hspec run hrun).wellFormed
    rw [if_neg hne] at hterms
    obtain ⟨hnodup, hsub, hfound⟩ := h.substringCandidateFiles_spec hterms hpaths
    refine ⟨hnodup, h.distinct, fun candidate hhits => ⟨fun hmem => hsub hmem, fun hwalked => ?_⟩⟩
    obtain ⟨content, hread, line, hline, hmatch⟩ := exists_match_of_lineHits hhits
    exact hfound candidate hwalked content hread
      (isCandidate_of_match hunicode hspec hline hmatch)

/-- The same workspace with an index that has no trigrams. -/
def withoutTrigrams (context : LiteralContext Path) : LiteralContext Path :=
  { context with hasTextTrigrams := false }

/-- With an index that is up to date, a literal search answers as it does without trigrams, whatever
    the query and its limit, and however the workers share the files. -/
theorem literalSearchWithContext_indexed {Path : Type} [LinearOrder Path]
    {context : LiteralContext Path} {options : LiteralOptions Path}
    (h : context.UpToDate options) {lowercase : Lowercase} (hunicode : lowercase.AsciiOnly)
    (share shareWalk : ∀ paths : List (Path × Path),
      {shared : Partition (Path × Path) // shared.items = paths}) (queryText : Str) :
    ∃ hits, context.literalSearchWithContext options lowercase share queryText = some hits ∧
      context.withoutTrigrams.literalSearchWithContext options lowercase shareWalk queryText =
        some hits := by
  unfold literalSearchWithContext literalSearchCandidates
  split
  · exact ⟨[], rfl, rfl⟩
  · obtain ⟨runs, hruns, hspec⟩ :=
      substringCandidateRuns_spec (lowercase.foldLiteralCase (Str.trim queryText))
    simp only [hruns, Option.map_some]
    have hwalk : context.withoutTrigrams.substringCandidateFiles options runs = none := rfl
    rw [hwalk, Option.getD_none, ite_self]
    refine ⟨_, rfl, congrArg some (Eq.symm ?_)⟩
    have hsame : (context.literalSearch options lowercase
        (lowercase.foldLiteralCase (Str.trim queryText))).SameHits
          (if runs = [] then context.literalSearchWalkPaths options
            else (context.substringCandidateFiles options runs).getD
              (context.literalSearchWalkPaths options))
          (context.literalSearchWalkPaths options) := by
      split
      · exact ⟨h.distinct, h.distinct, fun _ _ => Iff.rfl⟩
      · next hne => exact h.sameHits hunicode hspec hne
    exact hsame.literalSearchPaths_eq (share _).2 (shareWalk _).2 options.maxHits

theorem asciiFolding_asciiOnly : asciiFolding.AsciiOnly := by
  intro c d hc hd hmem
  obtain rfl : d = c.toLower := List.mem_singleton.mp hmem
  rw [Str.toLower_of_not_ascii hc] at hd
  exact absurd hd hc

/-- File `1` is indexed, and so is file `2`, which the query does not match; file `3` is not. -/
private def indexedFiles : LiteralContext Nat where
  walked := [(3, 13), (1, 11), (2, 12)]
  readToString path :=
    match path with
    | 11 => some "an Abc".toList
    | 12 => some "b".toList
    | 13 => some "abcabc".toList
    | _ => none
  join path := path + 10
  hasTextTrigrams := true
  searchers :=
    [[⟨some 1, some "an Abc".toList, none, false⟩, ⟨some 2, some "b".toList, none, false⟩]]
  isShadowedBaseFile _ _ := false
  unindexedLiteralCandidates := some [3]

private def noFilters : LiteralOptions Nat where
  limit := some 1
  context := 0
  inScope _ := true
  scopeQuery _ := true
  globsMatch _ := true
  matchesLiveFileType _ := true
  typeMatchesLanguage := none
  skipGitignore := false

private theorem indexedFiles_upToDate : indexedFiles.UpToDate noFilters where
  distinct := by decide
  shown := by
    intro documents index hsearcher document hdocument path hpath
    obtain ⟨rfl, rfl⟩ := Prod.mk.inj (List.mem_singleton.mp hsearcher)
    rcases List.mem_cons.mp hdocument with rfl | hdocument
    · obtain rfl := Option.some.inj hpath
      decide
    · obtain rfl := List.mem_singleton.mp hdocument
      obtain rfl := Option.some.inj hpath
      decide
  unindexed := by decide
  covered := by
    intro candidate hwalked content hread
    have hfiles : candidate = (3, 13) ∨ candidate = (1, 11) ∨ candidate = (2, 12) := by
      simpa [literalSearchWalkPaths, indexedFiles, noFilters, LiteralOptions.filteredOut]
        using hwalked
    rcases hfiles with rfl | rfl | rfl
    · exact .inl (by decide)
    · obtain rfl := Option.some.inj hread
      exact .inr ⟨(⟨some 1, some "an Abc".toList, none, false⟩, 0),
        ⟨_, List.mem_singleton_self _, List.mem_cons_self⟩, rfl, rfl, rfl⟩
    · obtain rfl := Option.some.inj hread
      exact .inr ⟨(⟨some 2, some "b".toList, none, false⟩, 0),
        ⟨_, List.mem_singleton_self _, List.mem_cons_of_mem _ List.mem_cons_self⟩, rfl, rfl, rfl⟩

/-- The index leaves out file `2`, and file `1` has the first hit in either order of the files. -/
theorem literalSearchWithContext_indexed_small :
    indexedFiles.substringCandidateFiles noFilters ["abc".toList] = some [(1, 11), (3, 13)] ∧
      ∃ hits, hits.map SearchHit.filePath = [1] ∧
        indexedFiles.literalSearchWithContext noFilters asciiFolding
          (fun paths => ⟨.segment paths, rfl⟩) " aBC".toList = some hits ∧
        indexedFiles.withoutTrigrams.literalSearchWithContext noFilters asciiFolding
          (fun paths => ⟨.segment paths, rfl⟩) " aBC".toList = some hits := by
  obtain ⟨hits, hindexed, hwalk⟩ :=
    literalSearchWithContext_indexed indexedFiles_upToDate asciiFolding_asciiOnly
      (fun paths => ⟨.segment paths, rfl⟩) (fun paths => ⟨.segment paths, rfl⟩) " aBC".toList
  have hfirst : (indexedFiles.withoutTrigrams.literalSearchWithContext noFilters asciiFolding
      (fun paths => ⟨.segment paths, rfl⟩) " aBC".toList).map
        (List.map SearchHit.filePath) = some [1] := by
    decide +kernel
  rw [hwalk] at hfirst
  exact ⟨by decide +kernel, hits, Option.some.inj hfirst, hindexed, hwalk⟩

end LiteralContext

end Ivygrep.Native
