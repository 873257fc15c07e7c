import Ivygrep.ForStd.List
import Ivygrep.Native.LiteralFiles
import Ivygrep.Spec.LiteralLinesCorrect

/-!
# Literal search over files

A search with a limit returns the first files of a search without one. The heaps of a selection hold
the first files of the candidates so far, in whatever way these are shared out. Where files change
while they are read, each result still tells of one content, and the results are in order.
-/

namespace Ivygrep.Native

open ForStd

/-! ## The ranking -/

section Order

variable {Path : Type} [LinearOrder Path]

theorem compareRank_ne_gt {leftMatches rightMatches : Nat} {leftPath rightPath : Path} :
    compareRank leftMatches leftPath rightMatches rightPath ≠ .gt ↔
      rightMatches < leftMatches ∨ leftMatches = rightMatches ∧ leftPath ≤ rightPath := by
  unfold compareRank
  rw [Ne, Ordering.then_eq_gt, compare_gt_iff_gt, compare_eq_iff_eq, compare_gt_iff_gt, ← not_lt]
  grind

instance RankedFile.transNotAfter : IsTrans (RankedFile Path) RankedFile.NotAfter where
  trans a b c hab hbc := by
    unfold RankedFile.NotAfter at *
    rw [compareRank_ne_gt] at *
    grind

instance RankedFile.totalNotAfter : Std.Total (@RankedFile.NotAfter Path _) where
  total a b := by
    unfold RankedFile.NotAfter
    rw [compareRank_ne_gt, compareRank_ne_gt]
    grind

instance RankedResult.transNotAfter :
    IsTrans (FileSearchResult Path) RankedResult.NotAfter where
  trans a b c hab hbc := by
    unfold RankedResult.NotAfter at *
    rw [compareRank_ne_gt] at *
    grind

instance RankedResult.totalNotAfter : Std.Total (@RankedResult.NotAfter Path _) where
  total a b := by
    unfold RankedResult.NotAfter
    rw [compareRank_ne_gt, compareRank_ne_gt]
    grind

/-- More matching lines, or as many and a smaller path. -/
def RanksBefore (left right : FileSearchResult Path) : Prop :=
  right.hitCount < left.hitCount ∨
    left.hitCount = right.hitCount ∧ left.filePath < right.filePath

theorem RankedFile.relative_eq_of_ties {left right : RankedFile Path} (h : left.NotAfter right)
    (h' : right.NotAfter left) : left.relative = right.relative := by
  unfold RankedFile.NotAfter at h h'
  rw [compareRank_ne_gt] at h h'
  grind

theorem ranksBefore_of_notAfter {left right : FileSearchResult Path}
    (h : RankedResult.NotAfter left right) (hne : left.filePath ≠ right.filePath) :
    RanksBefore left right := by
  unfold RankedResult.NotAfter at h
  rw [compareRank_ne_gt] at h
  exact h.imp_right fun htie => ⟨htie.1, lt_of_le_of_ne htie.2 hne⟩

end Order

/-! ## One content -/

/-- The number of lines with the literal, in a file that is not binary. -/
def matchingLines (lowercase : Lowercase) (queryLower content : Str) : Nat :=
  if ((Str.bytes content).take textSniffBytes).contains 0 then 0
  else (Str.lines content).countP fun line =>
    Str.contains (lowercase.foldLiteralCase line) queryLower

section Content

variable {Path : Type} (lowercase : Lowercase) (relPath : Path) (queryLower content : Str)
  (context : Nat)

theorem length_literalHitsInContent :
    (literalHitsInContent lowercase content relPath queryLower context none).length =
      matchingLines lowercase queryLower content := by
  unfold literalHitsInContent matchingLines
  split
  · rfl
  · have hcount := List.countP_map
      (p := fun line => Str.contains (lowercase.foldLiteralCase line) queryLower)
      (f := Prod.fst) (l := (Str.lines content).zipIdx)
    rw [List.zipIdx_map_fst] at hcount
    rw [List.length_map, hcount]
    exact List.countP_eq_length_filter.symm

theorem literalHitsInContent_some (maxHits : Nat) :
    literalHitsInContent lowercase content relPath queryLower context (some maxHits) =
      (literalHitsInContent lowercase content relPath queryLower context none).take maxHits := by
  unfold literalHitsInContent
  split
  · exact List.take_nil.symm
  · exact List.map_take

theorem length_previews :
    (literalHitsInContent lowercase content relPath queryLower context
        (some defaultLiteralPreviewsPerFile)).length =
      min defaultLiteralPreviewsPerFile (matchingLines lowercase queryLower content) := by
  rw [literalHitsInContent_some, List.length_take, length_literalHitsInContent]

end Content

/-! ## Reading -/

section Reads

variable {ε : Type}

theorem readToEnd_eq_some {reads : List (LineRead ε)} {bytes : List UInt8}
    (h : readToEnd reads = some bytes) :
    readBytes reads = bytes ∧ ∀ error, .failed error ∉ reads := by
  induction reads generalizing bytes with
  | nil =>
    obtain rfl := Option.some.inj h
    exact ⟨rfl, fun error => List.not_mem_nil⟩
  | cons read reads ih =>
    cases read with
    | interrupted =>
      obtain ⟨hbytes, hclean⟩ := ih h
      exact ⟨hbytes, fun error => by simpa using hclean error⟩
    | failed error => cases h
    | bytes read =>
      obtain ⟨rest, hrest, rfl⟩ := Option.map_eq_some_iff.mp h
      obtain ⟨hbytes, hclean⟩ := ih hrest
      exact ⟨by rw [readBytes, hbytes], fun error => by simpa using hclean error⟩

/-- A file that cannot be read to its end has no count. -/
theorem countLoop_failed (lowercase : Lowercase) (matcher : LineMatcher)
    {reads : List (LineRead ε)} (h : readToEnd reads = none) (round : Nat) (counter : LineCounter)
    (carry : List UInt8) (count : LineCount) :
    matcher.countLoop lowercase (fun _ => false) false round counter carry reads ≠
      .ok (some count) := by
  induction reads generalizing round counter carry with
  | nil => cases h
  | cons read reads ih =>
    cases read with
    | interrupted => exact ih h (round + 1) counter carry
    | failed error => exact fun hok => by cases hok
    | bytes read =>
      have hrest : readToEnd reads = none := Option.map_eq_none_iff.mp h
      rw [LineMatcher.countLoop]
      dsimp only
      cases matcher.decodeBuffer lowercase false (carry ++ read.val).length counter
          (carry ++ read.val) with
      | none => exact fun hok => by cases hok
      | some decoded => exact ih hrest (round + 1) decoded.1 decoded.2

end Reads

/-- A search for a trimmed text, which has something in it. -/
structure Asks {Path ε : Type} (search : FileSearch Path ε) (queryText : Str) : Prop where
  query : search.queryLower = search.lowercase.foldLiteralCase (Str.trim queryText)
  nonempty : Str.trim queryText ≠ []

theorem trim_getLast? (text : Str) : (Str.trim text).getLast? ≠ some '\r' := by
  intro hlast
  have hne : Str.trim text ≠ [] := by
    intro hnil
    rw [hnil] at hlast
    cases hlast
  have hkept := List.rdropWhile_last_not isWhitespace (Str.trimStart text) hne
  rw [List.getLast?_eq_some_getLast hne] at hlast
  apply hkept
  show isWhitespace ((Str.trim text).getLast hne) = true
  rw [Option.some.inj hlast]
  decide

section Search

variable {Path ε : Type} {search : FileSearch Path ε} {queryText : Str}
  (schedule : Schedule Path ε)

/-- What `count_lines` says of a content. -/
def textCount (search : FileSearch Path ε) (content : Str) : Option LineCount :=
  if ((Str.bytes content).take textSniffBytes).contains 0 then none
  else some ⟨(Str.lines content).countP fun line =>
    Str.contains (search.lowercase.foldLiteralCase line) search.queryLower, false⟩

theorem textCount_of_pos {content : Str}
    (h : 0 < matchingLines search.lowercase search.queryLower content) :
    textCount search content =
      some ⟨matchingLines search.lowercase search.queryLower content, false⟩ := by
  unfold matchingLines at h ⊢
  unfold textCount
  split at h
  · exact absurd h (Nat.lt_irrefl 0)
  · next hclean => rw [if_neg hclean, if_neg hclean]

theorem eq_of_textCount {content : Str} {count : LineCount}
    (h : textCount search content = some count) :
    count = ⟨matchingLines search.lowercase search.queryLower content, false⟩ := by
  unfold textCount at h
  unfold matchingLines
  split at h
  · cases h
  · next hclean =>
    rw [if_neg hclean]
    exact (Option.some.inj h).symm

theorem Asks.countLines (h : Asks search queryText) {reads : List (LineRead ε)}
    {bytes : List UInt8} (hreads : readToEnd reads = some bytes) :
    search.matcher.countLines search.lowercase (fun _ => false) false reads =
      .ok (textCount search (Str.fromUtf8Lossy bytes)) := by
  obtain ⟨hbytes, hclean⟩ := readToEnd_eq_some hreads
  have hcount := (countLines_eq search.lowercase (Str.trim queryText) h.nonempty
    (trim_getLast? queryText) reads hclean).1
  rw [hbytes, ← h.query] at hcount
  exact hcount

theorem Asks.countFile (h : Asks search queryText) (pass : ReadPass) (absolute : Path) :
    search.countFile pass absolute false =
      (readToString (search.files pass absolute)).bind (textCount search) := by
  unfold FileSearch.countFile readToString
  cases search.files pass absolute with
  | none => rfl
  | some reads =>
    show _ = ((readToEnd reads).map Str.fromUtf8Lossy).bind (textCount search)
    cases hbytes : readToEnd reads with
    | none =>
      have hfailed := countLoop_failed search.lowercase search.matcher hbytes 0 LineCounter.new []
      dsimp only
      cases hcount : search.matcher.countLines search.lowercase (fun _ => false) false reads with
      | error error => rfl
      | ok count =>
        cases count with
        | none => rfl
        | some count => exact absurd hcount (hfailed count)
    | some bytes =>
      dsimp only
      rw [h.countLines hbytes]
      rfl

theorem Asks.readMatchingContent (h : Asks search queryText) (pass : ReadPass) (absolute : Path) :
    search.readMatchingContent schedule pass absolute =
      (readToString (search.files pass absolute)).bind fun content =>
        if 0 < matchingLines search.lowercase search.queryLower content then
          some (content, matchingLines search.lowercase search.queryLower content)
        else none := by
  unfold FileSearch.readMatchingContent
  cases readToString (search.files pass absolute) with
  | none => rfl
  | some content =>
    have hcount := h.countLines (schedule.textReads_all content)
    rw [show Str.fromUtf8Lossy (Str.bytes content) = content from Utf8.lossy_encode content]
      at hcount
    rw [Option.bind_some]
    dsimp only
    rw [hcount]
    by_cases hpos : 0 < matchingLines search.lowercase search.queryLower content
    · rw [textCount_of_pos hpos, if_pos hpos]
      exact if_pos hpos
    · rw [if_neg hpos]
      cases hnone : textCount search content with
      | none => rfl
      | some count =>
        rw [eq_of_textCount hnone]
        exact if_neg hpos

/-- The result of one content. -/
def contentResult (search : FileSearch Path ε) (relative : Path) (content : Str) :
    FileSearchResult Path :=
  let hits := literalHitsInContent search.lowercase content relative search.queryLower
    search.context (some defaultLiteralPreviewsPerFile)
  let matchCount := matchingLines search.lowercase search.queryLower content
  { filePath := relative
    totalScore := f32OfUsize (min matchCount maxLiteralFileScore)
    hitCount := matchCount
    moreHitsInFile := matchCount - hits.length
    hitCountIsLowerBound := false
    hits := hits }

theorem resultForContent_eq {content : Str}
    (h : 0 < matchingLines search.lowercase search.queryLower content) (relative : Path) :
    search.resultForContent relative content
        (matchingLines search.lowercase search.queryLower content) =
      some (contentResult search relative content) := by
  have hlength := length_previews search.lowercase relative search.queryLower content
    search.context
  have hprevews : 0 < defaultLiteralPreviewsPerFile := by decide
  unfold FileSearch.resultForContent
  rw [if_neg fun hnil => by
    rw [hnil, List.length_nil] at hlength
    omega, Nat.max_eq_left (by omega)]
  rfl

end Search

/-! ## Selection -/

section Selection

variable {Path ε : Type} [LinearOrder Path] (search : FileSearch Path ε)
  (schedule : Schedule Path ε)

omit [LinearOrder Path] in
theorem rankedFile_eq_some {candidate : Path × Path} {file : RankedFile Path}
    (h : search.rankedFile candidate = some file) :
    file.relative = candidate.1 ∧ file.absolute = candidate.2 ∧ 0 < file.matchCount := by
  obtain ⟨count, -, hfile⟩ := Option.bind_eq_some_iff.mp h
  split at hfile
  · next hpos =>
    obtain rfl := Option.some.inj hfile
    exact ⟨rfl, rfl, hpos⟩
  · cases hfile

/-- Of candidates with distinct paths no two files tie. -/
theorem eq_of_ties {candidates : List (Path × Path)} (h : (candidates.map Prod.fst).Nodup) :
    ∀ a ∈ candidates.filterMap search.rankedFile, ∀ b ∈ candidates.filterMap search.rankedFile,
      RankedFile.NotAfter a b → RankedFile.NotAfter b a → a = b := by
  intro a ha b hb hab hba
  obtain ⟨c, hc, hrankedA⟩ := List.mem_filterMap.mp ha
  obtain ⟨d, hd, hrankedB⟩ := List.mem_filterMap.mp hb
  have hrelative := RankedFile.relative_eq_of_ties hab hba
  rw [(rankedFile_eq_some search hrankedA).1, (rankedFile_eq_some search hrankedB).1] at hrelative
  obtain rfl := List.inj_on_of_nodup_map h hc hd hrelative
  rw [hrankedA] at hrankedB
  exact Option.some.inj hrankedB

/-- The heaps of a selection hold the first files of the candidates so far. -/
theorem selected_heap (partition : Partition (Path × Path)) :
    (partition.items.map Prod.fst).Nodup →
      partition.foldReduce [] search.selectStep
          (BinaryHeap.mergeBounded RankedFile.NotAfter schedule.rankedFiles search.maxFiles) =
        BinaryHeap.best RankedFile.NotAfter search.maxFiles
          (partition.items.filterMap search.rankedFile) := by
  refine Partition.foldReduce_induction
    (fun candidates heap => (candidates.map Prod.fst).Nodup →
      heap = BinaryHeap.best RankedFile.NotAfter search.maxFiles
        (candidates.filterMap search.rankedFile))
    (fun _ => (BinaryHeap.takeUpTo_nil _).symm) ?_ ?_ partition
  · intro candidates candidate heap hheap hnodup
    rw [List.map_append] at hnodup
    rw [hheap hnodup.of_append_left, List.filterMap_append, FileSearch.selectStep]
    cases hfile : search.rankedFile candidate with
    | none => rw [List.filterMap_cons_none hfile, List.filterMap_nil, List.append_nil]
    | some file =>
      rw [List.filterMap_cons_some hfile, List.filterMap_nil]
      exact BinaryHeap.pushBounded_best RankedFile.NotAfter search.maxFiles _ file
  · intro left right heap other hheap hother hnodup
    have hties := eq_of_ties search hnodup
    rw [List.filterMap_append] at hties ⊢
    rw [List.map_append] at hnodup
    rw [hheap hnodup.of_append_left, hother hnodup.of_append_right]
    exact BinaryHeap.mergeBounded_best RankedFile.NotAfter schedule.rankedFiles search.maxFiles
      hties

/-- However the candidates are shared out, the first ones of the ranking are selected. -/
theorem selectRankedFiles_eq (hdistinct : (search.paths.map Prod.fst).Nodup) :
    search.selectRankedFiles schedule =
      BinaryHeap.best RankedFile.NotAfter search.maxFiles
        (search.paths.filterMap search.rankedFile) := by
  unfold FileSearch.selectRankedFiles
  have hties := eq_of_ties search hdistinct
  by_cases hall : search.maxFiles.all (search.paths.length ≤ ·)
  · rw [if_pos hall]
    refine (BinaryHeap.takeUpTo_of_length_le ?_).symm
    rw [List.length_insertionSort]
    have hlength := List.length_filterMap_le search.rankedFile search.paths
    cases hmax : search.maxFiles with
    | none => rfl
    | some maxFiles =>
      rw [hmax] at hall
      exact decide_eq_true (Nat.le_trans hlength (of_decide_eq_true hall))
  · have hheap := selected_heap search schedule (schedule.share .select search.paths)
    rw [schedule.share_items] at hheap
    rw [if_neg hall, hheap hdistinct]
    have hsub := BinaryHeap.takeUpTo_sublist search.maxFiles
      ((search.paths.filterMap search.rankedFile).insertionSort RankedFile.NotAfter)
    have hmem : ∀ a ∈ schedule.rankedFiles.entries (BinaryHeap.best RankedFile.NotAfter
        search.maxFiles (search.paths.filterMap search.rankedFile)),
        a ∈ search.paths.filterMap search.rankedFile := by
      intro a ha
      have ha := hsub.subset ((schedule.rankedFiles.perm _).mem_iff.mp ha)
      exact (List.perm_insertionSort _ _).mem_iff.mp ha
    have hsorted := (List.pairwise_insertionSort RankedFile.NotAfter
      (search.paths.filterMap search.rankedFile)).sublist hsub
    show List.insertionSort _ (schedule.rankedFiles.entries _) = _
    rw [insertionSort_eq_of_perm RankedFile.NotAfter
      (fun a ha b hb => hties a (hmem a ha) b (hmem b hb)) (schedule.rankedFiles.perm _)]
    exact hsorted.insertionSort_eq

end Selection

/-! ## An unchanged file system -/

/-- Whenever a file is read it has this content; `none` is a file that cannot be read. -/
def HoldsContent {Path ε : Type} (files : LiveFiles Path ε) (content : Path → Option Str) : Prop :=
  ∀ pass absolute, readToString (files pass absolute) = content absolute

section Unchanged

variable {Path ε : Type} [LinearOrder Path] {search : FileSearch Path ε} {queryText : Str}
  (schedule : Schedule Path ε) {content : Path → Option Str}

/-- The file of a candidate whose content has the literal, with the number of matching lines. -/
def rankedContent (lowercase : Lowercase) (queryLower : Str) (content : Path → Option Str)
    (candidate : Path × Path) : Option (RankedFile Path) :=
  (content candidate.2).bind fun text =>
    if 0 < matchingLines lowercase queryLower text then
      some ⟨candidate.1, candidate.2, matchingLines lowercase queryLower text, false⟩
    else none

omit [LinearOrder Path] in
theorem rankedContent_eq_some {lowercase : Lowercase} {queryLower : Str}
    {candidate : Path × Path} {file : RankedFile Path}
    (h : rankedContent lowercase queryLower content candidate = some file) :
    ∃ text, content candidate.2 = some text ∧ 0 < matchingLines lowercase queryLower text ∧
      file = ⟨candidate.1, candidate.2, matchingLines lowercase queryLower text, false⟩ := by
  obtain ⟨text, htext, hfile⟩ := Option.bind_eq_some_iff.mp h
  split at hfile
  · next hpos => exact ⟨text, htext, hpos, (Option.some.inj hfile).symm⟩
  · cases hfile

omit [LinearOrder Path] in
theorem Asks.rankedFile (h : Asks search queryText) (hmode : search.mode ≠ .singleFileName)
    (hcontent : HoldsContent search.files content) (candidate : Path × Path) :
    search.rankedFile candidate =
      rankedContent search.lowercase search.queryLower content candidate := by
  unfold FileSearch.rankedFile rankedContent
  rw [decide_eq_false hmode, h.countFile, hcontent]
  cases content candidate.2 with
  | none => rfl
  | some text =>
    show (textCount search text).bind _ = if _ then _ else none
    by_cases hpos : 0 < matchingLines search.lowercase search.queryLower text
    · rw [textCount_of_pos hpos, if_pos hpos]
      exact if_pos hpos
    · rw [if_neg hpos]
      cases hcount : textCount search text with
      | none => rfl
      | some count =>
        rw [eq_of_textCount hcount]
        exact if_neg hpos

/-- The result of a ranked file with all its previews. -/
def allPreviews (search : FileSearch Path ε) (content : Path → Option Str)
    (file : RankedFile Path) : FileSearchResult Path where
  filePath := file.relative
  totalScore := f32OfUsize file.score
  hitCount := file.matchCount
  moreHitsInFile := 0
  hitCountIsLowerBound := false
  hits := literalHitsInContent search.lowercase ((content file.absolute).getD []) file.relative
    search.queryLower search.context none

omit [LinearOrder Path] in
theorem unlimitedResult_eq (hcontent : HoldsContent search.files content)
    (candidate : Path × Path) :
    search.unlimitedResult candidate =
      (rankedContent search.lowercase search.queryLower content candidate).map
        (allPreviews search content) := by
  unfold FileSearch.unlimitedResult rankedContent
  rw [hcontent]
  cases htext : content candidate.2 with
  | none => rfl
  | some text =>
    have hlength := length_literalHitsInContent search.lowercase candidate.1 search.queryLower
      text search.context
    show (if literalHitsInContent search.lowercase text candidate.1 search.queryLower
      search.context none = [] then none else _) = (if _ then _ else none).map _
    by_cases hpos : 0 < matchingLines search.lowercase search.queryLower text
    · rw [if_pos hpos, if_neg fun hnil => by
        rw [hnil, List.length_nil] at hlength
        omega, hlength, Option.map_some]
      unfold allPreviews
      rw [htext]
      rfl
    · rw [if_neg hpos, if_pos (List.length_eq_zero_iff.mp (by omega))]
      rfl

/-- The result of a search with a limit: it has the first previews. -/
def firstPreviews (file : FileSearchResult Path) : FileSearchResult Path :=
  let hits := file.hits.take defaultLiteralPreviewsPerFile
  { file with hits := hits, moreHitsInFile := file.hitCount - hits.length }

/-- The result of a search for file names. -/
def withoutPreviews (file : FileSearchResult Path) : FileSearchResult Path :=
  { file with hits := [], moreHitsInFile := file.hitCount }

omit [LinearOrder Path] in
theorem Asks.readSelectedFile (h : Asks search queryText)
    (hcontent : HoldsContent search.files content) {candidate : Path × Path}
    {file : RankedFile Path}
    (hfile : rankedContent search.lowercase search.queryLower content candidate = some file) :
    search.readSelectedFile schedule file = some (firstPreviews (allPreviews search content file)) := by
  obtain ⟨text, htext, hpos, rfl⟩ := rankedContent_eq_some hfile
  unfold FileSearch.readSelectedFile
  rw [h.readMatchingContent, hcontent, htext, Option.bind_some, if_pos hpos, Option.bind_some,
    resultForContent_eq hpos]
  unfold contentResult firstPreviews allPreviews
  rw [htext, literalHitsInContent_some]
  rfl

/-- The files with the literal, ranked. -/
def contentRanking (search : FileSearch Path ε) (content : Path → Option Str) :
    List (RankedFile Path) :=
  (search.paths.filterMap (rankedContent search.lowercase search.queryLower content)).insertionSort
    RankedFile.NotAfter

theorem Asks.selectRankedFiles (h : Asks search queryText) (hmode : search.mode ≠ .singleFileName)
    (hcontent : HoldsContent search.files content)
    (hdistinct : (search.paths.map Prod.fst).Nodup) :
    search.selectRankedFiles schedule =
      BinaryHeap.takeUpTo search.maxFiles (contentRanking search content) := by
  have hranked := funext fun candidate => h.rankedFile hmode hcontent candidate
  rw [selectRankedFiles_eq search schedule hdistinct, BinaryHeap.best, hranked]
  rfl

/-- Nothing has changed, so that the files that were selected are returned. -/
theorem Asks.readSelectedFiles (h : Asks search queryText)
    (hcontent : HoldsContent search.files content) {selected : List (RankedFile Path)}
    (hselected : ∀ file ∈ selected, file ∈ contentRanking search content) :
    search.readSelectedFiles schedule selected =
      selected.map fun file => firstPreviews (allPreviews search content file) := by
  have hread : ∀ file ∈ selected, search.readSelectedFile schedule file =
      some (firstPreviews (allPreviews search content file)) := by
    intro file hfile
    have hfile := (List.perm_insertionSort _ _).mem_iff.mp (hselected file hfile)
    obtain ⟨candidate, -, hcandidate⟩ := List.mem_filterMap.mp hfile
    exact h.readSelectedFile schedule hcontent hcandidate
  unfold FileSearch.readSelectedFiles
  rw [if_neg ?unchanged, List.filterMap_map]
  case unchanged =>
    rw [List.any_map, List.any_eq_true]
    rintro ⟨file, hfile, hchanged⟩
    show False
    refine of_decide_eq_true hchanged ?_
    rw [hread file hfile]
    rfl
  show selected.filterMap (search.readSelectedFile schedule) = _
  rw [List.filterMap_congr hread, List.filterMap_eq_map']

end Unchanged

/-! ## Files that change -/

section Changing

variable {Path ε : Type} [LinearOrder Path] (search : FileSearch Path ε) {queryText : Str}
  (schedule : Schedule Path ε)

/-- A result tells of one content of the file, which one of the passes has read. -/
def TellsOf (absolute : Path) (file : FileSearchResult Path) : Prop :=
  ∃ pass content, readToString (search.files pass absolute) = some content ∧
    0 < file.hitCount ∧
    file.hitCount = matchingLines search.lowercase search.queryLower content ∧
    file.hits = (literalHitsInContent search.lowercase content file.filePath search.queryLower
      search.context none).take defaultLiteralPreviewsPerFile ∧
    file.moreHitsInFile = file.hitCount - file.hits.length ∧ file.hitCountIsLowerBound = false

omit [LinearOrder Path] in
/-- The result of a file that is read again tells of what was read. -/
theorem Asks.tellsOf_result {search : FileSearch Path ε} (h : Asks search queryText)
    {pass : ReadPass} {absolute relative : Path} {read : Str × Nat}
    {file : FileSearchResult Path}
    (hread : search.readMatchingContent schedule pass absolute = some read)
    (hfile : search.resultForContent relative read.1 read.2 = some file) :
    file.filePath = relative ∧ TellsOf search absolute file := by
  rw [h.readMatchingContent] at hread
  obtain ⟨content, hcontent, hread⟩ := Option.bind_eq_some_iff.mp hread
  split at hread
  · next hpos =>
    obtain rfl := Option.some.inj hread
    rw [resultForContent_eq hpos] at hfile
    obtain rfl := Option.some.inj hfile
    refine ⟨rfl, pass, content, hcontent, hpos, rfl, ?_, rfl, rfl⟩
    exact literalHitsInContent_some _ _ _ _ _ _
  · cases hread

/-- What a selection among the results of candidates keeps. -/
structure Reselected (candidates : List (Path × Path)) (heap : List (FileSearchResult Path)) :
    Prop where
  sorted : heap.Pairwise RankedResult.NotAfter
  paths : (heap.map FileSearchResult.filePath).Subperm (candidates.map Prod.fst)
  tells : ∀ file ∈ heap, ∃ candidate ∈ candidates, candidate.1 = file.filePath ∧
    TellsOf search candidate.2 file
  short : ∀ limit, search.maxFiles = some limit → heap.length ≤ limit

theorem reselected_nil : Reselected search [] [] where
  sorted := List.Pairwise.nil
  paths := List.Subperm.refl []
  tells := fun _ hfile => absurd hfile List.not_mem_nil
  short := fun limit _ => Nat.zero_le limit

variable {search}

/-- Entries are pushed that come from other candidates. -/
theorem Reselected.pushAll {candidates : List (Path × Path)} {heap : List (FileSearchResult Path)}
    (h : Reselected search candidates heap) (more : List (Path × Path))
    (entries : List (FileSearchResult Path))
    (hpaths : (entries.map FileSearchResult.filePath).Subperm (more.map Prod.fst))
    (htells : ∀ file ∈ entries, ∃ candidate ∈ more, candidate.1 = file.filePath ∧
      TellsOf search candidate.2 file) :
    Reselected search (candidates ++ more)
      (entries.foldl (BinaryHeap.pushBounded RankedResult.NotAfter search.maxFiles) heap) where
  sorted := BinaryHeap.foldl_pushBounded_sorted RankedResult.NotAfter h.sorted search.maxFiles
    entries
  paths := by
    have hsub := BinaryHeap.foldl_pushBounded_subperm RankedResult.NotAfter search.maxFiles heap
      entries
    obtain ⟨kept, hperm, hkept⟩ := hsub
    have hmap : ((heap ++ entries).map FileSearchResult.filePath).Subperm
        ((candidates ++ more).map Prod.fst) := by
      rw [List.map_append, List.map_append]
      exact h.paths.append hpaths
    exact ((hperm.map _).symm.subperm.trans (hkept.map _).subperm).trans hmap
  tells := by
    intro file hfile
    have hfile := (BinaryHeap.foldl_pushBounded_subperm RankedResult.NotAfter search.maxFiles heap
      entries).subset hfile
    rcases List.mem_append.mp hfile with hold | hnew
    · obtain ⟨candidate, hcandidate, htells⟩ := h.tells file hold
      exact ⟨candidate, List.mem_append_left _ hcandidate, htells⟩
    · obtain ⟨candidate, hcandidate, htells⟩ := htells file hnew
      exact ⟨candidate, List.mem_append_right _ hcandidate, htells⟩
  short := by
    intro limit hlimit
    have hshort := h.short limit hlimit
    rw [hlimit]
    exact BinaryHeap.length_foldl_pushBounded_le RankedResult.NotAfter hshort entries

/-- A step keeps the heap, or pushes the result of the candidate. -/
theorem Asks.reselectStep (h : Asks search queryText) (heap : List (FileSearchResult Path))
    (candidate : Path × Path) :
    search.reselectStep schedule heap candidate = heap ∨
      ∃ file, file.filePath = candidate.1 ∧ TellsOf search candidate.2 file ∧
        search.reselectStep schedule heap candidate =
          BinaryHeap.pushBounded RankedResult.NotAfter search.maxFiles heap file := by
  unfold FileSearch.reselectStep
  cases search.countFile .reselectCount candidate.2 false with
  | none => exact .inl rfl
  | some count =>
    by_cases hcount : 0 < count.matchCount ∧
        search.wouldSelect heap candidate.1 count.matchCount = true
    · dsimp only
      rw [if_pos hcount]
      cases hread : search.readMatchingContent schedule .reselectRead candidate.2 with
      | none => exact .inl rfl
      | some read =>
        by_cases hselect : search.wouldSelect heap candidate.1 read.2 = true
        · dsimp only
          rw [if_pos hselect]
          cases hfile : search.resultForContent candidate.1 read.1 read.2 with
          | none => exact .inl rfl
          | some file =>
            obtain ⟨hpath, htells⟩ := h.tellsOf_result schedule hread hfile
            exact .inr ⟨file, hpath, htells, rfl⟩
        · exact .inl (if_neg hselect)
    · exact .inl (if_neg hcount)

theorem Asks.reselectLiveFiles (h : Asks search queryText) :
    Reselected search search.paths (search.reselectLiveFiles schedule) := by
  have hinduction : Reselected search (schedule.share .reselectCount search.paths).items
      (search.reselectLiveFiles schedule) := by
    refine Partition.foldReduce_induction (Reselected search) (reselected_nil search) ?_ ?_ _
    · intro candidates candidate heap hheap
      rcases h.reselectStep schedule heap candidate with hkept | ⟨file, hpath, htells, hpushed⟩
      · rw [hkept]
        exact hheap.pushAll [candidate] [] ⟨[], List.Perm.refl [], List.nil_sublist _⟩
          fun file hfile => absurd hfile List.not_mem_nil
      · rw [hpushed]
        refine hheap.pushAll [candidate] [file] ?_ ?_
        · rw [List.map_singleton, List.map_singleton, hpath]
        · intro other hother
          obtain rfl := List.mem_singleton.mp hother
          exact ⟨candidate, List.mem_singleton.mpr rfl, hpath.symm, htells⟩
    · intro left right heap other hheap hother
      have hperm := schedule.rankedResults.perm other
      refine hheap.pushAll right (schedule.rankedResults.entries other) ?_ ?_
      · exact (hperm.map _).subperm.trans hother.paths
      · exact fun file hfile => hother.tells file (hperm.mem_iff.mp hfile)
  rw [schedule.share_items] at hinduction
  exact hinduction

/-- All files that were selected still have as many matching lines. -/
theorem Asks.readUnchanged (h : Asks search queryText)
    (hdistinct : (search.paths.map Prod.fst).Nodup)
    (hsame : ∀ file ∈ search.selectRankedFiles schedule,
      ((search.readSelectedFile schedule file).map FileSearchResult.hitCount).getD 0 =
        file.matchCount) :
    Reselected search search.paths
      ((search.selectRankedFiles schedule).filterMap (search.readSelectedFile schedule)) := by
  rw [selectRankedFiles_eq search schedule hdistinct] at hsame ⊢
  have hsub := BinaryHeap.takeUpTo_sublist search.maxFiles
    ((search.paths.filterMap search.rankedFile).insertionSort RankedFile.NotAfter)
  have hperm := List.perm_insertionSort RankedFile.NotAfter
    (search.paths.filterMap search.rankedFile)
  have hread : ∀ file ∈ BinaryHeap.best RankedFile.NotAfter search.maxFiles
      (search.paths.filterMap search.rankedFile),
      ∃ result, search.readSelectedFile schedule file = some result ∧
        result.hitCount = file.matchCount ∧ result.filePath = file.relative ∧
        ∃ candidate ∈ search.paths, candidate.1 = result.filePath ∧
          TellsOf search candidate.2 result := by
    intro file hfile
    have hcount := hsame file hfile
    obtain ⟨candidate, hcandidate, hranked⟩ :=
      List.mem_filterMap.mp (hperm.mem_iff.mp (hsub.subset hfile))
    obtain ⟨hrelative, habsolute, hpos⟩ := rankedFile_eq_some search hranked
    cases hresult : search.readSelectedFile schedule file with
    | none =>
      rw [hresult] at hcount
      exact absurd hcount.symm (Nat.ne_of_gt hpos)
    | some result =>
      rw [hresult] at hcount
      obtain ⟨read, hcontent, hresult⟩ := Option.bind_eq_some_iff.mp hresult
      obtain ⟨hpath, htells⟩ := h.tellsOf_result schedule hcontent hresult
      rw [habsolute] at htells
      exact ⟨result, rfl, hcount, hpath, candidate, hcandidate, by rw [hpath, hrelative], htells⟩
  constructor
  case sorted =>
    have hsorted := (List.pairwise_insertionSort RankedFile.NotAfter
      (search.paths.filterMap search.rankedFile)).sublist hsub
    refine List.pairwise_filterMap.mpr (hsorted.imp_of_mem ?_)
    intro left right hleft hright hrank leftResult hleftRead rightResult hrightRead
    obtain ⟨result, hresult, hcount, hpath, -⟩ := hread left hleft
    obtain ⟨result', hresult', hcount', hpath', -⟩ := hread right hright
    obtain rfl := Option.some.inj (hleftRead.symm.trans hresult)
    obtain rfl := Option.some.inj (hrightRead.symm.trans hresult')
    unfold RankedResult.NotAfter
    rw [hcount, hpath, hcount', hpath']
    exact hrank
  case paths =>
    have hpaths : ∀ file ∈ BinaryHeap.best RankedFile.NotAfter search.maxFiles
        (search.paths.filterMap search.rankedFile),
        (search.readSelectedFile schedule file).map FileSearchResult.filePath =
          some file.relative := by
      intro file hfile
      obtain ⟨result, hresult, -, hpath, -⟩ := hread file hfile
      rw [hresult, Option.map_some, hpath]
    rw [List.map_filterMap, List.filterMap_congr hpaths, List.filterMap_eq_map']
    exact (((hsub.map _).subperm).trans (hperm.map _).subperm).trans
      (map_filterMap_sublist (fun _ _ hfile => (rankedFile_eq_some search hfile).1)
        search.paths).subperm
  case tells =>
    intro result hresult
    obtain ⟨file, hfile, hresult⟩ := List.mem_filterMap.mp hresult
    obtain ⟨result', hresult', -, -, hcandidate⟩ := hread file hfile
    obtain rfl := Option.some.inj (hresult.symm.trans hresult')
    exact hcandidate
  case short =>
    intro limit hlimit
    rw [hlimit]
    exact Nat.le_trans (List.length_filterMap_le _ _) (List.length_take_le _ _)

/-- What `read_selected_files` returns, whatever has changed. -/
theorem Asks.reselected (h : Asks search queryText)
    (hdistinct : (search.paths.map Prod.fst).Nodup) :
    Reselected search search.paths
      (search.readSelectedFiles schedule (search.selectRankedFiles schedule)) := by
  unfold FileSearch.readSelectedFiles
  dsimp only
  split
  · exact h.reselectLiveFiles schedule
  · next hunchanged =>
    rw [List.filterMap_map]
    refine h.readUnchanged schedule hdistinct fun file hfile => ?_
    by_contra hchanged
    apply hunchanged
    rw [List.any_map, List.any_eq_true]
    exact ⟨file, hfile, decide_eq_true hchanged⟩

end Changing

/-! ## Searches -/

/-- No line has a literal with a line end in it. -/
theorem matchingLines_newline {lowercase : Lowercase}
    (hnewline : ∀ c, '\n' ∈ lowercase.toLowercase c → c = '\n') {queryLower : Str}
    (hquery : '\n' ∈ queryLower) (content : Str) :
    matchingLines lowercase queryLower content = 0 := by
  unfold matchingLines
  split
  · rfl
  · refine List.countP_eq_zero.mpr fun line hline hmatch => ?_
    have hfound := (of_decide_eq_true hmatch).subset hquery
    rw [Lowercase.foldLiteralCase_eq] at hfound
    obtain ⟨c, hc, hfold⟩ := List.mem_flatMap.mp hfound
    obtain ⟨lower, hlower, heq⟩ := List.mem_map.mp hfold
    split at heq
    · cases heq
    · rw [heq] at hlower
      rw [hnewline c hlower] at hc
      exact Str.newline_not_mem_lines hline hc

section Search

variable {Path ε : Type} [LinearOrder Path] {search : FileSearch Path ε} {queryText : Str}
  (schedule : Schedule Path ε) {content : Path → Option Str}

theorem rankedContent_nil
    (hnewline : ∀ c, '\n' ∈ search.lowercase.toLowercase c → c = '\n')
    (hquery : '\n' ∈ search.queryLower) : contentRanking search content = [] := by
  have hnone : ∀ candidate ∈ search.paths,
      rankedContent search.lowercase search.queryLower content candidate = none := by
    intro candidate _
    unfold rankedContent
    cases content candidate.2 with
    | none => rfl
    | some text =>
      rw [Option.bind_some, if_neg]
      rw [matchingLines_newline hnewline hquery]
      exact Nat.lt_irrefl 0
  unfold contentRanking
  rw [List.filterMap_eq_nil_iff.mpr hnone]
  rfl

theorem searchFiles_unlimited (hcontent : HoldsContent search.files content)
    (hmode : search.mode = .files) (hlimit : search.maxFiles = none)
    (hnewline : ∀ c, '\n' ∈ search.lowercase.toLowercase c → c = '\n') :
    search.searchFiles schedule =
      (contentRanking search content).map (allPreviews search content) := by
  unfold FileSearch.searchFiles
  by_cases hquery : '\n' ∈ search.queryLower
  · rw [if_pos (.inr hquery), rankedContent_nil hnewline hquery]
    rfl
  · rw [if_neg (by rw [hlimit]; simpa using hquery), if_pos ⟨hmode, hlimit⟩]
    have hresults := funext fun candidate => unlimitedResult_eq hcontent candidate
    rw [hresults, ← List.map_filterMap, contentRanking]
    exact (List.map_insertionSort (r := RankedFile.NotAfter) RankedResult.NotAfter
      (allPreviews search content) _ fun _ _ _ _ => Iff.rfl).symm

/-- A limit of zero and a literal with a line end are no special cases. -/
theorem searchFiles_limited (hnewline : ∀ c, '\n' ∈ search.lowercase.toLowercase c → c = '\n')
    {limit : Nat} (hlimit : search.maxFiles = some limit)
    {result : RankedFile Path → FileSearchResult Path}
    (hresults : (if search.mode ≠ .files then
        (search.selectRankedFiles schedule).map fun file =>
          { filePath := file.relative
            totalScore := f32OfUsize file.score
            hitCount := file.matchCount
            moreHitsInFile := file.matchCount
            hitCountIsLowerBound := file.matchesAreLowerBound
            hits := [] }
      else search.readSelectedFiles schedule (search.selectRankedFiles schedule)) =
        ((contentRanking search content).take limit).map result) :
    search.searchFiles schedule = ((contentRanking search content).take limit).map result := by
  unfold FileSearch.searchFiles
  rw [hlimit]
  by_cases hempty : some limit = some 0 ∨ '\n' ∈ search.queryLower
  · rw [if_pos hempty]
    rcases hempty with hzero | hquery
    · rw [Option.some.inj hzero]
      rfl
    · rw [rankedContent_nil hnewline hquery, List.take_nil]
      rfl
  · rw [if_neg hempty, if_neg (by simp)]
    exact hresults

theorem Asks.searchFiles_files (h : Asks search queryText)
    (hcontent : HoldsContent search.files content)
    (hdistinct : (search.paths.map Prod.fst).Nodup)
    (hnewline : ∀ c, '\n' ∈ search.lowercase.toLowercase c → c = '\n')
    (hmode : search.mode = .files) {limit : Nat} (hlimit : search.maxFiles = some limit) :
    search.searchFiles schedule = ((contentRanking search content).take limit).map fun file =>
      firstPreviews (allPreviews search content file) := by
  have hselected := h.selectRankedFiles schedule (by rw [hmode]; decide) hcontent hdistinct
  rw [hlimit] at hselected
  refine searchFiles_limited schedule hnewline hlimit ?_
  rw [if_neg (not_not.mpr hmode), hselected]
  exact h.readSelectedFiles schedule hcontent fun file hfile => List.mem_of_mem_take hfile

theorem Asks.searchFiles_fileNames (h : Asks search queryText)
    (hcontent : HoldsContent search.files content)
    (hdistinct : (search.paths.map Prod.fst).Nodup)
    (hnewline : ∀ c, '\n' ∈ search.lowercase.toLowercase c → c = '\n')
    (hmode : search.mode = .fileNames) {limit : Nat} (hlimit : search.maxFiles = some limit) :
    search.searchFiles schedule = ((contentRanking search content).take limit).map fun file =>
      withoutPreviews (allPreviews search content file) := by
  have hselected := h.selectRankedFiles schedule (by rw [hmode]; decide) hcontent hdistinct
  rw [hlimit] at hselected
  refine searchFiles_limited schedule hnewline hlimit ?_
  rw [if_pos (by rw [hmode]; decide), hselected]
  refine List.map_congr_left fun file hfile => ?_
  have hfile := (List.perm_insertionSort _ _).mem_iff.mp (List.mem_of_mem_take hfile)
  obtain ⟨candidate, -, hcandidate⟩ := List.mem_filterMap.mp hfile
  obtain ⟨text, -, -, rfl⟩ := rankedContent_eq_some hcandidate
  rfl

end Search

theorem ranked_of_sorted {Path : Type} [LinearOrder Path] {files : List (FileSearchResult Path)}
    (hsorted : files.Pairwise RankedResult.NotAfter)
    (hdistinct : (files.map FileSearchResult.filePath).Nodup) : files.Pairwise RanksBefore := by
  have hpaths := List.pairwise_map.mp hdistinct
  exact (hsorted.and hpaths).imp fun h => ranksBefore_of_notAfter h.1 h.2

section Unlimited

variable {Path ε : Type} [LinearOrder Path] (search : FileSearch Path ε)
  (content : Path → Option Str)

theorem mem_contentRanking {file : RankedFile Path} :
    file ∈ contentRanking search content ↔ ∃ candidate ∈ search.paths,
      rankedContent search.lowercase search.queryLower content candidate = some file :=
  (List.perm_insertionSort _ _).mem_iff.trans List.mem_filterMap

theorem unlimited_ranked (hdistinct : (search.paths.map Prod.fst).Nodup) :
    ((contentRanking search content).map (allPreviews search content)).Pairwise RanksBefore := by
  apply ranked_of_sorted
  · exact List.pairwise_map.mpr (List.pairwise_insertionSort RankedFile.NotAfter _)
  · have hrelative : ∀ candidate file, rankedContent search.lowercase search.queryLower content
        candidate = some file → file.relative = candidate.1 := by
      intro candidate file hfile
      obtain ⟨text, -, -, rfl⟩ := rankedContent_eq_some hfile
      rfl
    have hsub := map_filterMap_sublist hrelative search.paths
    have hperm := List.perm_insertionSort RankedFile.NotAfter
      (search.paths.filterMap (rankedContent search.lowercase search.queryLower content))
    rw [List.map_map]
    exact (hperm.map RankedFile.relative).nodup_iff.mpr (hsub.nodup hdistinct)

theorem mem_unlimited (path : Path) (count : Nat) :
    (∃ file ∈ (contentRanking search content).map (allPreviews search content),
        file.filePath = path ∧ file.hitCount = count) ↔
      ∃ absolute text, (path, absolute) ∈ search.paths ∧ content absolute = some text ∧
        0 < count ∧ count = matchingLines search.lowercase search.queryLower text := by
  constructor
  · rintro ⟨result, hresult, rfl, rfl⟩
    obtain ⟨file, hfile, rfl⟩ := List.mem_map.mp hresult
    obtain ⟨candidate, hcandidate, hfile⟩ := (mem_contentRanking search content).mp hfile
    obtain ⟨text, htext, hpos, rfl⟩ := rankedContent_eq_some hfile
    exact ⟨candidate.2, text, hcandidate, htext, hpos, rfl⟩
  · rintro ⟨absolute, text, hcandidate, htext, hpos, rfl⟩
    have hranked : rankedContent search.lowercase search.queryLower content (path, absolute) =
        some ⟨path, absolute, matchingLines search.lowercase search.queryLower text, false⟩ := by
      unfold rankedContent
      rw [htext, Option.bind_some, if_pos hpos]
    have hfile := (mem_contentRanking search content).mpr ⟨_, hcandidate, hranked⟩
    exact ⟨_, List.mem_map_of_mem hfile, rfl, rfl⟩

/-- A search without a limit has a preview of each matching line. -/
theorem length_hits_unlimited {result : FileSearchResult Path}
    (h : result ∈ (contentRanking search content).map (allPreviews search content)) :
    result.hits.length = result.hitCount := by
  obtain ⟨file, hfile, rfl⟩ := List.mem_map.mp h
  obtain ⟨candidate, -, hfile⟩ := (mem_contentRanking search content).mp hfile
  obtain ⟨text, htext, -, rfl⟩ := rankedContent_eq_some hfile
  unfold allPreviews
  rw [htext]
  exact length_literalHitsInContent _ _ _ _ _

end Unlimited

/-- Over an unchanged file system, a search without a limit returns all files with a matching line,
    ranked by how many they have, and a search with a limit the first of them with the first
    previews. Where files change meanwhile, each result tells of one content of its file, and the
    results are in the same order. -/
theorem searchFiles_limited_ranked {Path ε : Type} [LinearOrder Path] (lowercase : Lowercase)
    (hnewline : ∀ c, '\n' ∈ lowercase.toLowercase c → c = '\n') (queryText : Str)
    (hquery : Str.trim queryText ≠ []) (context limit : Nat) (paths : List (Path × Path))
    (hdistinct : (paths.map Prod.fst).Nodup) :
    let queryLower := lowercase.foldLiteralCase (Str.trim queryText)
    let search := fun (files : LiveFiles Path ε) (maxFiles : Option Nat) (mode : FileSearchMode) =>
      FileSearch.mk lowercase files queryLower context maxFiles paths mode
    (∀ (content : Path → Option Str) (files files' : LiveFiles Path ε)
        (schedule schedule' : Schedule Path ε),
        HoldsContent files content → HoldsContent files' content →
      let unlimited := (search files none .files).searchFiles schedule
      let bounded := (search files' (some limit) .files).searchFiles schedule'
      unlimited.Pairwise RanksBefore ∧
      (∀ path count, (∃ file ∈ unlimited, file.filePath = path ∧ file.hitCount = count) ↔
        ∃ absolute text, (path, absolute) ∈ paths ∧ content absolute = some text ∧ 0 < count ∧
          count = matchingLines lowercase queryLower text) ∧
      bounded = (unlimited.take limit).map firstPreviews ∧
      (∀ file ∈ bounded, file.hits.length = min 3 file.hitCount ∧
        file.moreHitsInFile = file.hitCount - file.hits.length) ∧
      (search files' (some limit) .fileNames).searchFiles schedule' =
        (unlimited.take limit).map withoutPreviews) ∧
    ∀ (files : LiveFiles Path ε) (schedule : Schedule Path ε) (mode : FileSearchMode),
      let changing := search files (some limit) mode
      let results := changing.readSelectedFiles schedule (changing.selectRankedFiles schedule)
      results.Pairwise RanksBefore ∧ results.length ≤ limit ∧
        ∀ file ∈ results, ∃ candidate ∈ paths, candidate.1 = file.filePath ∧
          TellsOf changing candidate.2 file := by
  intro queryLower search
  have hasks : ∀ files maxFiles mode, Asks (search files maxFiles mode) queryText :=
    fun files maxFiles mode => ⟨rfl, hquery⟩
  constructor
  · intro content files files' schedule schedule' hcontent hcontent' unlimited bounded
    have hunlimited : unlimited = (contentRanking (search files none .files) content).map
        (allPreviews (search files none .files) content) :=
      searchFiles_unlimited schedule hcontent rfl rfl hnewline
    have hbounded : bounded = (unlimited.take limit).map firstPreviews := by
      rw [hunlimited, ← List.map_take, List.map_map]
      exact (hasks files' (some limit) .files).searchFiles_files schedule' hcontent' hdistinct
        hnewline rfl rfl
    have hnames := (hasks files' (some limit) .fileNames).searchFiles_fileNames schedule' hcontent'
      hdistinct hnewline rfl rfl
    refine ⟨?_, ?_, hbounded, ?_, ?_⟩
    · rw [hunlimited]
      exact unlimited_ranked _ content hdistinct
    · rw [hunlimited]
      exact mem_unlimited _ content
    · intro file hfile
      rw [hbounded] at hfile
      obtain ⟨result, hresult, rfl⟩ := List.mem_map.mp hfile
      have hresult := List.mem_of_mem_take hresult
      rw [hunlimited] at hresult
      refine ⟨?_, rfl⟩
      show (result.hits.take 3).length = min 3 result.hitCount
      rw [List.length_take, length_hits_unlimited _ content hresult]
    · rw [hunlimited, ← List.map_take, List.map_map]
      exact hnames
  · intro files schedule mode changing results
    have hresults : Reselected changing paths results :=
      (hasks files (some limit) mode).reselected schedule hdistinct
    obtain ⟨kept, hperm, hkept⟩ := hresults.paths
    refine ⟨ranked_of_sorted hresults.sorted ?_, hresults.short limit rfl, hresults.tells⟩
    exact hperm.nodup_iff.mp (hkept.nodup hdistinct)

theorem eq_of_toLower {c d : Char} (hd : d = '\r' ∨ d = '\n') (h : d = c.toLower) :
    c = d := by
  by_cases hascii : c.toNat ≤ 0x7f
  · exact Str.forall_ascii (p := fun c => ∀ d, d = '\r' ∨ d = '\n' → d = c.toLower → c = d)
      (fun n d hd => by rcases hd with rfl | rfl <;> revert n <;> decide +kernel) hascii d hd h
  · rw [h]
    unfold Char.toLower
    rw [dif_neg]
    exact fun hupper => hascii (Nat.le_trans hupper.2 (by decide))

/-- `char::to_lowercase` as far as ASCII goes. -/
def asciiFolding : Lowercase where
  toLowercase c := [c.toLower]
  ascii _ _ := rfl
  nonempty _ := List.cons_ne_nil _ _
  cr _ h := eq_of_toLower (.inl rfl) (List.mem_singleton.mp h)

/-- A file `1` with two matching lines, and a file `2` with one. -/
private def smallFiles (_pass : ReadPass) (path : Nat) : Option (List (LineRead Unit)) :=
  match path with
  | 1 => some [.bytes ⟨[0x78, 0x61, 0x0a], by decide⟩, .interrupted, .bytes ⟨[0x41], by decide⟩]
  | 2 => some [.bytes ⟨[0x61, 0x0a, 0x62], by decide⟩]
  | _ => none

private def smallSchedule : Schedule Nat Unit where
  share _ candidates := .join (.segment (candidates.take 1)) (.segment (candidates.drop 1))
  share_items _ candidates := List.take_append_drop 1 candidates
  rankedFiles := ⟨List.reverse, fun heap => List.reverse_perm heap⟩
  rankedResults := ⟨List.reverse, fun heap => List.reverse_perm heap⟩
  textReads text :=
    if h : Str.bytes text = [] then [] else [.bytes ⟨Str.bytes text, h⟩]
  textReads_all text := by
    by_cases h : Str.bytes text = []
    · rw [dif_pos h, h]
      rfl
    · rw [dif_neg h, readToEnd, readToEnd, Option.map_some, List.append_nil]

theorem searchFiles_limited_ranked_small :
    ((FileSearch.mk asciiFolding smallFiles ['a'] 0 (some 1) [(2, 2), (1, 1)] .files).searchFiles
      smallSchedule).map (fun file =>
        (file.filePath, file.hitCount, file.hits.map SearchHit.startLine)) = [(1, 2, [1, 2])] := by
  have hcontent : HoldsContent smallFiles fun path => readToString (smallFiles .select path) :=
    fun _ _ => rfl
  obtain ⟨hunchanged, -⟩ := searchFiles_limited_ranked (ε := Unit)
    asciiFolding
    (fun _ h => eq_of_toLower (.inr rfl) (List.mem_singleton.mp h)) " A".toList
    (by decide) 0 1 [(2, 2), (1, 1)] (by decide)
  obtain ⟨-, -, hbounded, -⟩ := hunchanged _ smallFiles smallFiles smallSchedule smallSchedule
    hcontent hcontent
  refine (congrArg _ hbounded).trans ?_
  decide +kernel

end Ivygrep.Native
