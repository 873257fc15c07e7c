import Ivygrep.ForStd.List
import Ivygrep.Native.TestEdges
import Ivygrep.Spec.StrCorrect

/-!
# Test edges and the order of indexing

An edge between a production file and a test is inserted when either of them is indexed, if that
one has the other among its candidates, and is removed whenever either is indexed. The rows of an
index are the pairs of its tree as long as the file that can insert an edge is indexed after the
other.
-/

namespace Ivygrep.Native

namespace TestEdges

/-! ## File names -/

theorem not_mem_splitOnce {sep : Char} {s before after : Str}
    (h : Str.splitOnce sep s = some (before, after)) : sep ∉ before := by
  induction s generalizing before with
  | nil => cases h
  | cons c rest ih =>
    rw [Str.splitOnce] at h
    split at h
    · cases h
      exact List.not_mem_nil
    · next hc =>
      rw [Option.map_eq_some_iff] at h
      obtain ⟨parts, hparts, heq⟩ := h
      cases heq
      rw [List.mem_cons, not_or]
      exact ⟨Ne.symm hc, ih hparts⟩

theorem splitAtDot_fileName {stem ext : Str} (hstem : stem ≠ []) (hext : '.' ∉ ext) :
    splitAtDot (fileName stem ext) = (stem, some ext) := by
  have hsplit : Str.splitOnce '.' (fileName stem ext).reverse =
      some (ext.reverse, stem.reverse) := by
    rw [fileName, List.reverse_append, List.reverse_cons, List.append_assoc]
    exact Str.splitOnce_append stem.reverse (by simpa using hext)
  simp [splitAtDot, hsplit, hstem]

theorem dot_not_mem_splitAtDot {name ext : Str} (h : (splitAtDot name).2 = some ext) :
    '.' ∉ ext := by
  rw [splitAtDot] at h
  split at h
  · cases h
  · next hsplit =>
    split at h
    · cases h
    · cases h
      simpa using not_mem_splitOnce hsplit

theorem dot_not_mem_extension (path : SourcePath) : '.' ∉ extension path := by
  unfold extension
  cases h : path.getLast?.bind fun name => (splitAtDot name).2 with
  | none => exact List.not_mem_nil
  | some ext =>
    rw [Option.bind_eq_some_iff] at h
    obtain ⟨name, -, hname⟩ := h
    exact dot_not_mem_splitAtDot hname

/-! ## Candidates of production files -/

theorem pathLooksLikeTest_of_component {path : SourcePath} {component : Str}
    (hmem : component ∈ path) (h : isTestComponent component = true) :
    pathLooksLikeTest path = true := by
  have hany : path.any isTestComponent = true := List.any_eq_true.mpr ⟨component, hmem, h⟩
  simp [pathLooksLikeTest, hany]

/-- A directory of a .NET test project. -/
theorem pathLooksLikeTest_of_project {path : SourcePath} (project : Str)
    (hmem : project ++ ".Tests".toList ∈ path) : pathLooksLikeTest path = true := by
  have hany : path.any (fun component =>
      ".Tests".toList.isSuffixOf component || ".Test".toList.isSuffixOf component) = true := by
    apply List.any_eq_true.mpr
    refine ⟨_, hmem, ?_⟩
    rw [List.isSuffixOf_iff_suffix.mpr (List.suffix_append _ _), Bool.true_or]
  simp only [pathLooksLikeTest, hany, Bool.or_true, Bool.true_or]

theorem pathLooksLikeTest_of_stem {base : SourcePath} {stem ext : Str} (hstem : stem ≠ [])
    (hext : '.' ∉ ext) (h : stemLooksLikeTest stem ext = true) :
    pathLooksLikeTest (base ++ [fileName stem ext]) = true := by
  have hstem' : fileStem (base ++ [fileName stem ext]) = some stem := by
    simp [fileStem, splitAtDot_fileName hstem hext]
  have hext' : extension (base ++ [fileName stem ext]) = ext := by
    simp [extension, splitAtDot_fileName hstem hext]
  simp [pathLooksLikeTest, hstem', hext', h]

theorem isTestComponent_of_directory {extension directory : Str}
    (h : directory ∈ testDirectories extension) : isTestComponent directory = true := by
  unfold testDirectories at h
  split at h
  · revert directory
    decide
  · split at h
    · revert directory
      decide
    · revert directory
      decide

theorem stemLooksLikeTest_suffix {suffix extension : Str} (stem : Str)
    (h : suffix ∈ testSuffixes extension) :
    stemLooksLikeTest (stem ++ suffix) extension = true := by
  have hany : ∀ marks : List Str, suffix ∈ marks →
      marks.any (fun mark => mark.isSuffixOf (stem ++ suffix)) = true := by
    intro marks hmem
    apply List.any_eq_true.mpr
    exact ⟨suffix, hmem, List.isSuffixOf_iff_suffix.mpr (List.suffix_append _ _)⟩
  have hcases : suffix ∈ ["_test", "_tests", "_spec", ".test", ".spec"].map String.toList ∨
      isJvmDotnetExtension extension = true ∧ suffix ∈ ["Test", "Tests"].map String.toList := by
    unfold testSuffixes at h
    split at h
    · exact .inl h
    · split at h
      · next hjvm =>
        simp only [hjvm, true_and]
        clear hany
        revert suffix
        decide
      · left
        clear hany
        revert suffix
        decide
  rcases hcases with hmem | ⟨hjvm, hmem⟩
  · simp only [stemLooksLikeTest, hany _ hmem, Bool.true_or]
  · simp only [stemLooksLikeTest, hjvm, hany _ hmem, Bool.and_true, Bool.or_true]

theorem stemLooksLikeTest_test (stem extension : Str) :
    stemLooksLikeTest ("test_".toList ++ stem) extension = true := by
  have hprefix : "test_".toList.isPrefixOf ("test_".toList ++ stem) = true :=
    List.isPrefixOf_iff_prefix.mpr (List.prefix_append _ _)
  simp only [stemLooksLikeTest, hprefix, Bool.or_true, Bool.true_or]

theorem pathLooksLikeTest_of_suffix {base : SourcePath} {stem suffix ext : Str}
    (hext : '.' ∉ ext) (h : suffix ∈ testSuffixes ext) :
    pathLooksLikeTest (base ++ [fileName (stem ++ suffix) ext]) = true := by
  apply pathLooksLikeTest_of_stem _ hext (stemLooksLikeTest_suffix stem h)
  intro hnil
  rw [(List.append_eq_nil_iff.mp hnil).2] at h
  unfold testSuffixes at h
  revert h
  split
  · decide
  · split
    · decide
    · decide

theorem pathLooksLikeTest_of_test {base : SourcePath} {stem ext : Str} (hext : '.' ∉ ext) :
    pathLooksLikeTest (base ++ [fileName ("test_".toList ++ stem) ext]) = true :=
  pathLooksLikeTest_of_stem (by simp) hext (stemLooksLikeTest_test stem ext)

theorem testCandidates_look_like_tests {relPath parent candidate : SourcePath}
    {name stem ext : Str} (hext : '.' ∉ ext)
    (h : candidate ∈ testCandidates relPath parent name stem ext) :
    pathLooksLikeTest candidate = true := by
  -- A directory of tests begins every path below one of the bases.
  have hbase : ∀ base ∈ (testDirectories ext).flatMap fun directory =>
      [directory] :: (sourceRoots.find? fun root => [root].isPrefixOf relPath).toList.map
        fun root => [root, directory],
      ∀ rest, pathLooksLikeTest (base ++ rest) = true := by
    intro base hbase rest
    obtain ⟨directory, hdirectory, hbase⟩ := List.mem_flatMap.mp hbase
    have hcomponent := isTestComponent_of_directory hdirectory
    apply pathLooksLikeTest_of_component _ hcomponent
    rcases List.mem_cons.mp hbase with rfl | hbase
    · simp
    · obtain ⟨root, -, rfl⟩ := List.mem_map.mp hbase
      simp
  have hadjacent : ∀ file, pathLooksLikeTest (parent ++ ["__tests__".toList] ++ [file]) = true := by
    intro file
    have hcomponent : isTestComponent "__tests__".toList = true := by decide
    apply pathLooksLikeTest_of_component _ hcomponent
    exact List.mem_append_left _ (List.mem_append_right _ (List.mem_singleton_self _))
  simp only [testCandidates, List.mem_append] at h
  rcases h with (((h | h) | h) | h) | h
  · rcases List.mem_cons.mp h with rfl | h
    · exact pathLooksLikeTest_of_test hext
    · obtain ⟨suffix, hsuffix, rfl⟩ := List.mem_map.mp h
      exact pathLooksLikeTest_of_suffix hext hsuffix
  · rcases List.mem_cons.mp h with rfl | h
    · exact hadjacent _
    · obtain ⟨suffix, -, rfl⟩ := List.mem_map.mp h
      exact hadjacent _
  · obtain ⟨base, hmem, rfl⟩ := List.mem_map.mp h
    exact hbase base hmem _
  · obtain ⟨base, hmem, h⟩ := List.mem_flatMap.mp h
    rcases List.mem_append.mp h with h | h
    · obtain ⟨suffix, -, rfl⟩ := List.mem_map.mp h
      rw [List.append_assoc]
      exact hbase base hmem _
    · rw [List.mem_singleton.mp h, List.append_assoc]
      exact hbase base hmem _
  · obtain ⟨directory, hdirectory, rfl⟩ := List.mem_map.mp h
    exact pathLooksLikeTest_of_component List.mem_cons_self (isTestComponent_of_directory hdirectory)

theorem jvmTestCandidates_look_like_tests {relPath candidate : SourcePath}
    {stem productionStem ext : Str}
    (h : candidate ∈ jvmTestCandidates relPath stem productionStem ext false) :
    pathLooksLikeTest candidate = true := by
  unfold jvmTestCandidates at h
  split at h
  · cases h
  · obtain ⟨layout, -, h⟩ := List.mem_flatMap.mp h
    rw [if_neg Bool.false_ne_true] at h
    cases hrelative : stripPrefix relPath (jvmRoot "main".toList layout.1) with
    | none =>
      rw [hrelative] at h
      cases h
    | some relative =>
      rw [hrelative] at h
      obtain ⟨suffix, -, rfl⟩ := List.mem_map.mp h
      apply pathLooksLikeTest_of_component _ (show isTestComponent "test".toList = true by decide)
      simp [jvmRoot]

theorem dotnetTestCandidates_look_like_tests {relPath candidate : SourcePath}
    {stem productionStem : Str}
    (h : candidate ∈ dotnetTestCandidates relPath stem productionStem false) :
    pathLooksLikeTest candidate = true := by
  unfold dotnetTestCandidates at h
  rw [if_neg Bool.false_ne_true] at h
  split at h
  · cases h
  · cases h
  · next project remainder _ =>
    obtain ⟨root, -, h⟩ := List.mem_flatMap.mp h
    obtain ⟨suffix, -, rfl⟩ := List.mem_map.mp h
    exact pathLooksLikeTest_of_project project (by simp)

/-- Every candidate of a production file is a test. -/
theorem likelyTestCandidates_look_like_tests {path candidate : SourcePath}
    (hpath : pathLooksLikeTest path = false) (h : candidate ∈ likelyTestCandidates path) :
    pathLooksLikeTest candidate = true := by
  unfold likelyTestCandidates at h
  split at h
  · cases h
  · rw [hpath] at h
    have hmem := (List.mem_filter.mp h).1
    rcases List.mem_append.mp hmem with hmem | hmem
    · rcases List.mem_append.mp hmem with hmem | hmem
      · exact testCandidates_look_like_tests (dot_not_mem_extension path) hmem
      · exact jvmTestCandidates_look_like_tests hmem
    · split at hmem
      · exact dotnetTestCandidates_look_like_tests hmem
      · cases hmem

theorem ne_of_mem_likelyTestCandidates {path candidate : SourcePath}
    (h : candidate ∈ likelyTestCandidates path) : candidate ≠ path := by
  unfold likelyTestCandidates at h
  split at h
  · cases h
  · simpa using (List.mem_filter.mp h).2

/-! ## The edges of a file -/

/-- The edges of a file without the cap. -/
def uncappedEdges (snapshot : List SourcePath) (file : SourceFileEdges) : List FileEdge :=
  file.documentation.foldl insertEdge
    ((((likelyTestCandidates file.path).filter (existsInWorkspace snapshot)).map
      (testEdge file.path)).foldl insertEdge (file.dependencies.foldl insertEdge []))

theorem mem_insertEdge {edges : List FileEdge} {edge other : FileEdge} :
    edge ∈ insertEdge edges other ↔
      edge = other ∧ other.sourcePath ≠ other.targetPath ∨ edge ∈ edges := by
  unfold insertEdge
  split
  · next h => simp [h]
  · next h => simp [h, List.mem_insert_iff]

theorem mem_foldl_insertEdge {edge : FileEdge} (added edges : List FileEdge) :
    edge ∈ added.foldl insertEdge edges ↔
      edge ∈ added ∧ edge.sourcePath ≠ edge.targetPath ∨ edge ∈ edges := by
  induction added generalizing edges with
  | nil => simp
  | cons other added ih =>
    rw [List.foldl_cons, ih, mem_insertEdge, List.mem_cons]
    constructor
    · rintro (⟨hmem, hne⟩ | ⟨rfl, hne⟩ | hmem)
      · exact .inl ⟨.inr hmem, hne⟩
      · exact .inl ⟨.inl rfl, hne⟩
      · exact .inr hmem
    · rintro (⟨rfl | hmem, hne⟩ | hmem)
      · exact .inr (.inl ⟨rfl, hne⟩)
      · exact .inl ⟨hmem, hne⟩
      · exact .inr (.inr hmem)

theorem length_le_insertEdge (edges : List FileEdge) (edge : FileEdge) :
    edges.length ≤ (insertEdge edges edge).length := by
  unfold insertEdge
  split
  · exact Nat.le_refl _
  · by_cases h : edge ∈ edges
    · rw [List.insert_of_mem h]
    · rw [List.length_insert_of_not_mem h]
      exact Nat.le_succ _

theorem length_le_foldl_insertEdge (added edges : List FileEdge) :
    edges.length ≤ (added.foldl insertEdge edges).length := by
  induction added generalizing edges with
  | nil => exact Nat.le_refl _
  | cons edge added ih => exact (length_le_insertEdge edges edge).trans (ih _)

/-- Below the cap the loop visits every candidate. -/
theorem extractTestEdges_eq {snapshot : List SourcePath} {relPath : SourcePath}
    (candidates : List SourcePath) (edges : List FileEdge)
    (h : (((candidates.filter (existsInWorkspace snapshot)).map (testEdge relPath)).foldl
      insertEdge edges).length < maxEdgesPerFile) :
    extractTestEdges snapshot relPath candidates edges =
      ((candidates.filter (existsInWorkspace snapshot)).map (testEdge relPath)).foldl
        insertEdge edges := by
  induction candidates generalizing edges with
  | nil => rfl
  | cons related candidates ih =>
    unfold extractTestEdges
    cases hexists : existsInWorkspace snapshot related with
    | true =>
      rw [List.filter_cons_of_pos hexists, List.map_cons, List.foldl_cons] at h ⊢
      have hlength := Nat.lt_of_le_of_lt (length_le_foldl_insertEdge _ _) h
      rw [if_pos rfl, if_neg (Nat.not_le_of_lt hlength)]
      exact ih _ h
    | false =>
      rw [List.filter_cons_of_neg (by simp [hexists])] at h ⊢
      have hlength := Nat.lt_of_le_of_lt (length_le_foldl_insertEdge _ _) h
      rw [if_neg Bool.false_ne_true, if_neg (Nat.not_le_of_lt hlength)]
      exact ih _ h

theorem extractFileEdges_eq {snapshot : List SourcePath} {file : SourceFileEdges}
    (h : (uncappedEdges snapshot file).length < maxEdgesPerFile) :
    extractFileEdges snapshot file = uncappedEdges snapshot file := by
  have htests := Nat.lt_of_le_of_lt (length_le_foldl_insertEdge file.documentation _) h
  unfold extractFileEdges
  rw [extractTestEdges_eq _ _ htests]
  exact List.take_of_length_le (Nat.le_of_lt h)

theorem testEdge_kind (relPath related : SourcePath) : (testEdge relPath related).kind = .test := by
  unfold testEdge
  split <;> rfl

theorem testEdge_source_ne_target {relPath related : SourcePath} (h : related ≠ relPath) :
    (testEdge relPath related).sourcePath ≠ (testEdge relPath related).targetPath := by
  unfold testEdge
  split
  · exact h
  · exact h.symm

/-- The test edges of a file are those to its candidates that exist. -/
theorem mem_extractFileEdges {snapshot : List SourcePath} {file : SourceFileEdges}
    (h : (uncappedEdges snapshot file).length < maxEdgesPerFile) {edge : FileEdge}
    (hkind : edge.kind = .test) :
    edge ∈ extractFileEdges snapshot file ↔
      ∃ related ∈ likelyTestCandidates file.path, existsInWorkspace snapshot related = true ∧
        edge = testEdge file.path related := by
  have hdependencies : edge ∉ file.dependencies :=
    fun hmem => file.kinds edge (List.mem_append_left _ hmem) hkind
  have hdocumentation : edge ∉ file.documentation :=
    fun hmem => file.kinds edge (List.mem_append_right _ hmem) hkind
  rw [extractFileEdges_eq h, uncappedEdges, mem_foldl_insertEdge, mem_foldl_insertEdge,
    mem_foldl_insertEdge]
  constructor
  · rintro (⟨hmem, -⟩ | ⟨hmem, -⟩ | ⟨hmem, -⟩ | hmem)
    · exact absurd hmem hdocumentation
    · obtain ⟨related, hrelated, rfl⟩ := List.mem_map.mp hmem
      obtain ⟨hcandidate, hexists⟩ := List.mem_filter.mp hrelated
      exact ⟨related, hcandidate, hexists, rfl⟩
    · exact absurd hmem hdependencies
    · cases hmem
  · rintro ⟨related, hcandidate, hexists, rfl⟩
    refine .inr (.inl ⟨List.mem_map_of_mem (List.mem_filter.mpr ⟨hcandidate, hexists⟩), ?_⟩)
    exact testEdge_source_ne_target (ne_of_mem_likelyTestCandidates hcandidate)

/-! ## The rows of an index -/

/-- The edge begins or ends at the path. -/
def Touches (edge : FileEdge) (path : SourcePath) : Prop :=
  edge.sourcePath = path ∨ edge.targetPath = path

instance (edge : FileEdge) (path : SourcePath) : Decidable (Touches edge path) :=
  inferInstanceAs (Decidable (_ ∨ _))

theorem testEdge_touches (relPath related : SourcePath) :
    Touches (testEdge relPath related) relPath := by
  unfold testEdge
  split
  · exact .inr rfl
  · exact .inl rfl

theorem mem_removeFileEdges {rows : List FileEdge} {path : SourcePath} {edge : FileEdge}
    (hkind : edge.kind = .test) :
    edge ∈ removeFileEdges rows path ↔ edge ∈ rows ∧ ¬ Touches edge path := by
  simp [removeFileEdges, Touches, hkind, not_or]

theorem mem_foldl_removeFileEdges {edge : FileEdge} (hkind : edge.kind = .test)
    (deleted : List SourcePath) (rows : List FileEdge) :
    edge ∈ deleted.foldl removeFileEdges rows ↔
      edge ∈ rows ∧ ∀ path ∈ deleted, ¬ Touches edge path := by
  induction deleted generalizing rows with
  | nil => simp
  | cons path deleted ih =>
    rw [List.foldl_cons, ih, mem_removeFileEdges hkind, List.forall_mem_cons, and_assoc]

theorem mem_foldl_insert {edge : FileEdge} (added rows : List FileEdge) :
    edge ∈ added.foldl (fun rows edge => rows.insert edge) rows ↔ edge ∈ added ∨ edge ∈ rows := by
  induction added generalizing rows with
  | nil => simp
  | cons other added ih =>
    rw [List.foldl_cons, ih, List.mem_insert_iff, List.mem_cons, or_left_comm, or_assoc]

/-- Without a file at its ends, an edge stays as it is. -/
theorem mem_persistFiles_of_untouched {snapshot : List SourcePath} {edge : FileEdge}
    (hkind : edge.kind = .test) (files : List SourceFileEdges)
    (hcap : ∀ file ∈ files, (uncappedEdges snapshot file).length < maxEdgesPerFile)
    (h : ∀ file ∈ files, ¬ Touches edge file.path) (rows : List FileEdge) :
    edge ∈ files.foldl (persistFile snapshot false) rows ↔ edge ∈ rows := by
  induction files generalizing rows with
  | nil => rfl
  | cons file files ih =>
    rw [List.forall_mem_cons] at h hcap
    have hnew : edge ∉ extractFileEdges snapshot file := by
      intro hmem
      obtain ⟨related, -, -, rfl⟩ := (mem_extractFileEdges hcap.1 hkind).mp hmem
      exact h.1 (testEdge_touches _ _)
    rw [List.foldl_cons, ih hcap.2 h.2, persistFile, mem_foldl_insert, if_neg Bool.false_ne_true,
      mem_removeFileEdges hkind]
    exact ⟨fun hmem => (hmem.resolve_left hnew).1, fun hmem => .inr ⟨hmem, h.1⟩⟩

/-- The last file at the ends of an edge decides. -/
theorem mem_persistFiles_of_last {snapshot : List SourcePath} {edge : FileEdge}
    (hkind : edge.kind = .test) {before after : List SourceFileEdges} {file : SourceFileEdges}
    (hcap : ∀ file ∈ after, (uncappedEdges snapshot file).length < maxEdgesPerFile)
    (htouches : Touches edge file.path) (hlast : ∀ later ∈ after, ¬ Touches edge later.path)
    (rows : List FileEdge) :
    edge ∈ (before ++ file :: after).foldl (persistFile snapshot false) rows ↔
      edge ∈ extractFileEdges snapshot file := by
  rw [List.foldl_append, List.foldl_cons, mem_persistFiles_of_untouched hkind after hcap hlast,
    persistFile, mem_foldl_insert, if_neg Bool.false_ne_true, mem_removeFileEdges hkind]
  exact ⟨fun hmem => hmem.resolve_right fun hold => hold.2 htouches, .inl⟩

theorem mem_persistFiles_fresh {snapshot : List SourcePath} {edge : FileEdge}
    (files : List SourceFileEdges) (rows : List FileEdge) :
    edge ∈ files.foldl (persistFile snapshot true) rows ↔
      (∃ file ∈ files, edge ∈ extractFileEdges snapshot file) ∨ edge ∈ rows := by
  induction files generalizing rows with
  | nil => simp
  | cons file files ih =>
    rw [List.foldl_cons, ih, persistFile, mem_foldl_insert, if_pos rfl, List.exists_mem_cons_iff,
      or_left_comm, or_assoc]

/-! ## Runs -/

/-- A production file of the tree with one of its tests. -/
structure TestPair (tree : List SourcePath) (production test : SourcePath) : Prop where
  production_mem : production ∈ tree
  test_mem : test ∈ tree
  production_ne : pathLooksLikeTest production = false
  test_looks : pathLooksLikeTest test = true
  candidate : test ∈ likelyTestCandidates production ∨ production ∈ likelyTestCandidates test

/-- The test edges of the rows are the pairs of the tree. -/
def TestEdgesExact (tree : List SourcePath) (rows : List FileEdge) : Prop :=
  ∀ edge : FileEdge, edge.kind = .test →
    (edge ∈ rows ↔ TestPair tree edge.sourcePath edge.targetPath)

/-- What a run does, after one that left the index of `tree`: it indexes the added files, and
    others of the tree, and removes what has gone. No file reaches the cap. -/
structure RunOk (tree : List SourcePath) (run : IndexRun) : Prop where
  normal : ∀ path ∈ run.snapshot, ∀ segment ∈ path,
    segment ≠ [] ∧ segment ≠ ['.'] ∧ segment ≠ ['.', '.']
  added : ∀ path ∈ run.snapshot, path ∈ tree ∨ ∃ file ∈ run.persisted, file.path = path
  removed : ∀ path ∈ tree, path ∈ run.snapshot ∨ path ∈ run.deleted
  deleted : ∀ path ∈ run.deleted, path ∉ run.snapshot
  persisted : ∀ file ∈ run.persisted, file.path ∈ run.snapshot
  uncapped : ∀ file ∈ run.persisted,
    (uncappedEdges run.snapshot file).length < maxEdgesPerFile

/-- The candidates of each file of the tree that exist are named as they are, and those of a test
    are production files. -/
structure Oriented (tree : List SourcePath) : Prop where
  plain : ∀ path ∈ tree, ∀ related ∈ likelyTestCandidates path,
    existsInWorkspace tree related = true → related ∈ tree
  production : ∀ path ∈ tree, pathLooksLikeTest path = true →
    ∀ related ∈ likelyTestCandidates path, related ∈ tree → pathLooksLikeTest related = false

/-- When a file is indexed that is a candidate of another one, but does not have it among its own
    candidates, then the run indexes that other one after it. -/
def GeneratorsFollow (run : IndexRun) : Prop :=
  ∀ before file after, run.persisted = before ++ file :: after →
    ∀ other ∈ run.snapshot, file.path ∈ likelyTestCandidates other →
      other ∉ likelyTestCandidates file.path → ∃ later ∈ after, later.path = other

/-- The condition on a run. A fresh index has no rows that could be removed. -/
def Settled (isFreshIndex : Bool) (run : IndexRun) : Prop :=
  Oriented run.snapshot ∧ (isFreshIndex = false → GeneratorsFollow run)

/-- The index that a full run and incremental runs after it leave, with a condition on each. -/
inductive Indexed (condition : Bool → IndexRun → Prop) :
    List SourcePath → List FileEdge → Prop where
  | full (run : IndexRun) (hrun : RunOk [] run) (hcondition : condition true run) :
      Indexed condition run.snapshot (indexWorkspace true [] run)
  | incremental (run : IndexRun) {tree : List SourcePath} {rows : List FileEdge}
      (h : Indexed condition tree rows) (hrun : RunOk tree run)
      (hcondition : condition false run) :
      Indexed condition run.snapshot (indexWorkspace false rows run)

theorem normalizeFrom_normal (path normalized : SourcePath)
    (h : ∀ segment ∈ path, segment ≠ [] ∧ segment ≠ ['.'] ∧ segment ≠ ['.', '.']) :
    normalizeFrom normalized path = some (normalized ++ path) := by
  induction path generalizing normalized with
  | nil => rw [normalizeFrom, List.append_nil]
  | cons segment path ih =>
    rw [List.forall_mem_cons] at h
    rw [normalizeFrom, if_neg (not_or.mpr ⟨h.1.1, h.1.2.1⟩), if_neg h.1.2.2, ih _ h.2,
      List.append_assoc, List.singleton_append]

theorem RunOk.exists_of_mem {tree : List SourcePath} {run : IndexRun} (h : RunOk tree run)
    {path : SourcePath} (hpath : path ∈ run.snapshot) :
    existsInWorkspace run.snapshot path = true := by
  rw [existsInWorkspace, normalizeFrom_normal path [] (h.normal path hpath)]
  simpa using hpath

/-- What a file of an oriented tree inserts are pairs of the tree. -/
theorem testPair_of_extracted {snapshot : List SourcePath} (h : Oriented snapshot)
    {path related : SourcePath} (hpath : path ∈ snapshot)
    (hcandidate : related ∈ likelyTestCandidates path)
    (hexists : existsInWorkspace snapshot related = true) :
    TestPair snapshot (testEdge path related).sourcePath (testEdge path related).targetPath := by
  have hrelated := h.plain path hpath related hcandidate hexists
  cases hlooks : pathLooksLikeTest path with
  | true =>
    rw [testEdge, if_pos hlooks]
    have hproduction := h.production path hpath hlooks related hcandidate hrelated
    exact ⟨hrelated, hpath, hproduction, hlooks, .inr hcandidate⟩
  | false =>
    rw [testEdge, hlooks, if_neg Bool.false_ne_true]
    have htest := likelyTestCandidates_look_like_tests hlooks hcandidate
    exact ⟨hpath, hrelated, hlooks, htest, .inl hcandidate⟩

/-- A pair is inserted by any end that has the other among its candidates. -/
theorem testEdge_of_pair {tree : List SourcePath} {edge : FileEdge} (hkind : edge.kind = .test)
    (hpair : TestPair tree edge.sourcePath edge.targetPath) :
    testEdge edge.sourcePath edge.targetPath = edge ∧
      testEdge edge.targetPath edge.sourcePath = edge := by
  cases edge
  obtain rfl : _ = FileEdgeKind.test := hkind
  simp [testEdge, hpair.production_ne, hpair.test_looks]

theorem testEdgesExact_full {run : IndexRun} (hrun : RunOk [] run) (h : Oriented run.snapshot) :
    TestEdgesExact run.snapshot (indexWorkspace true [] run) := by
  intro edge hkind
  have hold : edge ∉ run.deleted.foldl removeFileEdges [] := by
    rw [mem_foldl_removeFileEdges hkind]
    exact fun hmem => List.not_mem_nil hmem.1
  rw [indexWorkspace, mem_persistFiles_fresh, or_iff_left hold]
  constructor
  · rintro ⟨file, hfile, hmem⟩
    obtain ⟨related, hcandidate, hexists, rfl⟩ :=
      (mem_extractFileEdges (hrun.uncapped file hfile) hkind).mp hmem
    exact testPair_of_extracted h (hrun.persisted file hfile) hcandidate hexists
  · intro hpair
    obtain ⟨hforward, hbackward⟩ := testEdge_of_pair hkind hpair
    -- A full index indexes both ends.
    have hindexed : ∀ path ∈ run.snapshot, ∃ file ∈ run.persisted, file.path = path :=
      fun path hpath => (hrun.added path hpath).resolve_left List.not_mem_nil
    rcases hpair.candidate with hcandidate | hcandidate
    · obtain ⟨file, hfile, hpath⟩ := hindexed _ hpair.production_mem
      refine ⟨file, hfile, (mem_extractFileEdges (hrun.uncapped file hfile) hkind).mpr ?_⟩
      rw [hpath]
      exact ⟨_, hcandidate, hrun.exists_of_mem hpair.test_mem, hforward.symm⟩
    · obtain ⟨file, hfile, hpath⟩ := hindexed _ hpair.test_mem
      refine ⟨file, hfile, (mem_extractFileEdges (hrun.uncapped file hfile) hkind).mpr ?_⟩
      rw [hpath]
      exact ⟨_, hcandidate, hrun.exists_of_mem hpair.production_mem, hbackward.symm⟩

/-- The last indexed end of a pair can insert it: else the other end can, and follows. -/
theorem extracted_of_last {tree : List SourcePath} {run : IndexRun} (hrun : RunOk tree run)
    (hfollow : GeneratorsFollow run) {edge : FileEdge} (hkind : edge.kind = .test)
    (hpair : TestPair run.snapshot edge.sourcePath edge.targetPath)
    {before after : List SourceFileEdges} {file : SourceFileEdges}
    (hsplit : run.persisted = before ++ file :: after) (htouches : Touches edge file.path)
    (hlast : ∀ later ∈ after, ¬ Touches edge later.path) :
    ∃ related ∈ likelyTestCandidates file.path,
      existsInWorkspace run.snapshot related = true ∧ edge = testEdge file.path related := by
  obtain ⟨hforward, hbackward⟩ := testEdge_of_pair hkind hpair
  have hno : ∀ other ∈ run.snapshot, Touches edge other →
      file.path ∈ likelyTestCandidates other → other ∈ likelyTestCandidates file.path := by
    intro other hother htouch hcandidate
    by_contra hnot
    obtain ⟨later, hlater, hpath⟩ := hfollow before file after hsplit other hother hcandidate hnot
    exact hlast later hlater (hpath ▸ htouch)
  rcases htouches with hsource | htarget
  · refine ⟨edge.targetPath, ?_, hrun.exists_of_mem hpair.test_mem, ?_⟩
    · rcases hpair.candidate with hcandidate | hcandidate
      · exact hsource ▸ hcandidate
      · exact hno _ hpair.test_mem (.inr rfl) (hsource ▸ hcandidate)
    · rw [← hsource, hforward]
  · refine ⟨edge.sourcePath, ?_, hrun.exists_of_mem hpair.production_mem, ?_⟩
    · rcases hpair.candidate with hcandidate | hcandidate
      · exact hno _ hpair.production_mem (.inl rfl) (htarget ▸ hcandidate)
      · exact htarget ▸ hcandidate
    · rw [← htarget, hbackward]

theorem testEdgesExact_incremental {tree : List SourcePath} {rows : List FileEdge}
    {run : IndexRun} (hexact : TestEdgesExact tree rows) (hrun : RunOk tree run)
    (h : Oriented run.snapshot) (hfollow : GeneratorsFollow run) :
    TestEdgesExact run.snapshot (indexWorkspace false rows run) := by
  intro edge hkind
  unfold indexWorkspace
  by_cases hany : ∃ file ∈ run.persisted, Touches edge file.path
  · obtain ⟨before, file, after, hsplit, htouches, hlast⟩ := ForStd.exists_last hany
    have hcap := hrun.uncapped
    have hpath := hrun.persisted file (by rw [hsplit]; simp)
    rw [hsplit] at hcap ⊢
    rw [List.forall_mem_append, List.forall_mem_cons] at hcap
    rw [mem_persistFiles_of_last hkind hcap.2.2 htouches hlast, mem_extractFileEdges hcap.2.1 hkind]
    constructor
    · rintro ⟨related, hcandidate, hexists, rfl⟩
      exact testPair_of_extracted h hpath hcandidate hexists
    · exact fun hpair => extracted_of_last hrun hfollow hkind hpair hsplit htouches hlast
  · have hnone : ∀ file ∈ run.persisted, ¬ Touches edge file.path :=
      fun file hfile htouches => hany ⟨file, hfile, htouches⟩
    rw [mem_persistFiles_of_untouched hkind run.persisted hrun.uncapped hnone,
      mem_foldl_removeFileEdges hkind, hexact edge hkind]
    constructor
    · rintro ⟨hpair, hdeleted⟩
      have hkept : ∀ path ∈ tree, Touches edge path → path ∈ run.snapshot :=
        fun path hpath htouch =>
          (hrun.removed path hpath).resolve_right fun hmem => hdeleted path hmem htouch
      exact ⟨hkept _ hpair.production_mem (.inl rfl), hkept _ hpair.test_mem (.inr rfl),
        hpair.production_ne, hpair.test_looks, hpair.candidate⟩
    · intro hpair
      have hbefore : ∀ path ∈ run.snapshot, Touches edge path → path ∈ tree := by
        intro path hpath htouch
        apply (hrun.added path hpath).resolve_right
        rintro ⟨file, hfile, rfl⟩
        exact hnone file hfile htouch
      constructor
      · exact ⟨hbefore _ hpair.production_mem (.inl rfl), hbefore _ hpair.test_mem (.inr rfl),
          hpair.production_ne, hpair.test_looks, hpair.candidate⟩
      · rintro path hdeleted (rfl | rfl)
        · exact hrun.deleted _ hdeleted hpair.production_mem
        · exact hrun.deleted _ hdeleted hpair.test_mem

/-- A file without other edges. -/
private def bareFile (path : SourcePath) : SourceFileEdges where
  path := path
  dependencies := []
  documentation := []
  kinds := by simp

private def pythonTest : SourcePath := ["tests".toList, "foo.py".toList]

/-- The runs of two files: a full one, and one that indexes the test again. -/
private def reindexTest (production : SourcePath) (isFreshIndex : Bool) : IndexRun where
  snapshot := [production, pythonTest]
  deleted := []
  persisted :=
    if isFreshIndex then [bareFile production, bareFile pythonTest] else [bareFile pythonTest]

private theorem reindexTest_ok (production : SourcePath)
    (hnormal : ∀ segment ∈ production, segment ≠ [] ∧ segment ≠ ['.'] ∧ segment ≠ ['.', '.'])
    (hcap : ∀ path ∈ [production, pythonTest],
      (uncappedEdges [production, pythonTest] (bareFile path)).length < maxEdgesPerFile) :
    RunOk [] (reindexTest production true) ∧
      RunOk [production, pythonTest] (reindexTest production false) := by
  have hpair := List.forall_mem_cons.mp hcap
  have htest := List.forall_mem_cons.mp hpair.2
  have hnormals : ∀ path ∈ [production, pythonTest], ∀ segment ∈ path,
      segment ≠ [] ∧ segment ≠ ['.'] ∧ segment ≠ ['.', '.'] := by
    rw [List.forall_mem_cons, List.forall_mem_cons]
    exact ⟨hnormal, by decide, nofun⟩
  constructor
  · constructor
    · exact hnormals
    · intro path hpath
      rcases List.mem_cons.mp hpath with rfl | hpath
      · exact .inr ⟨bareFile path, by simp [reindexTest], rfl⟩
      · rw [List.mem_singleton.mp hpath]
        exact .inr ⟨bareFile pythonTest, by simp [reindexTest], rfl⟩
    · nofun
    · nofun
    · simp [reindexTest, bareFile]
    · simpa [reindexTest] using ⟨hpair.1, htest.1⟩
  · constructor
    · exact hnormals
    · exact fun path hpath => .inl hpath
    · exact fun path hpath => .inl hpath
    · nofun
    · simp [reindexTest, bareFile]
    · simpa [reindexTest] using htest.1

private def mirroredModule : SourcePath := ["src".toList, "foo.py".toList]

private def nestedModule : SourcePath := ["src".toList, "a".toList, "foo.py".toList]

end TestEdges

end Ivygrep.Native
