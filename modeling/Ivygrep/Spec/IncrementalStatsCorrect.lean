import Ivygrep.Native.IncrementalStats

/-!
# The cached statistics are the real counts

At every point of a run, the recorded changes lead from the counts at the last checkpoint to the
counts of the table as it is. What was touched first is what `ForStd.Touched` needs to know.
-/

namespace Ivygrep.Native

open ForStd

/-! ## The table -/

def fileSet (chunks : List ChunkRow) : Finset Str := (chunks.map ChunkRow.filePath).toFinset

def vectorKeySet (chunks : List ChunkRow) : Finset UInt64 :=
  (chunks.map ChunkRow.vectorKey).toFinset

namespace IndexDb

variable (db : IndexDb) {path : Str}

theorem countFiles_eq : db.countFiles = (fileSet db.chunks).card := by
  rw [fileSet, List.card_toFinset]
  rfl

theorem countVectorKeys_eq : db.countVectorKeys = (vectorKeySet db.chunks).card := by
  rw [vectorKeySet, List.card_toFinset]
  rfl

theorem hasFile_iff (path : Str) : db.hasFile path = true ↔ path ∈ fileSet db.chunks := by
  simp [hasFile, fileSet]

theorem hasVectorKey_iff (key : UInt64) :
    db.hasVectorKey key = true ↔ key ∈ vectorKeySet db.chunks := by
  simp [hasVectorKey, vectorKeySet]

theorem chunkVectorKeysForFile_isEmpty :
    (!(db.chunkVectorKeysForFile path).isEmpty) = true ↔ path ∈ fileSet db.chunks := by
  rw [← hasFile_iff, Bool.not_eq_true', ← Bool.not_eq_true, List.isEmpty_iff,
    chunkVectorKeysForFile, List.map_eq_nil_iff, List.filter_eq_nil_iff, hasFile, List.any_eq_true]
  simp

/-- Deleting the rows of a file takes no other file away. -/
theorem mem_fileSet_removeFileChunks {other : Str} :
    other ∈ fileSet (db.removeFileChunks path).2.chunks ↔
      other ∈ fileSet db.chunks ∧ other ≠ path := by
  simp only [fileSet, removeFileChunks, List.mem_toFinset, List.mem_map, List.mem_filter,
    bne_iff_ne]
  constructor
  · rintro ⟨row, ⟨hrow, hne⟩, rfl⟩
    exact ⟨⟨row, hrow, rfl⟩, hne⟩
  · rintro ⟨⟨row, hrow, rfl⟩, hne⟩
    exact ⟨row, ⟨hrow, hne⟩, rfl⟩

/-- It takes no other key away either. -/
theorem mem_vectorKeySet_removeFileChunks {key : UInt64}
    (hkey : key ∉ (db.removeFileChunks path).1) :
    key ∈ vectorKeySet (db.removeFileChunks path).2.chunks ↔ key ∈ vectorKeySet db.chunks := by
  simp only [vectorKeySet, removeFileChunks, List.mem_toFinset, List.mem_map, List.mem_filter,
    bne_iff_ne]
  constructor
  · rintro ⟨row, ⟨hrow, -⟩, rfl⟩
    exact ⟨row, hrow, rfl⟩
  · rintro ⟨row, hrow, rfl⟩
    refine ⟨row, ⟨hrow, fun hpath => hkey ?_⟩, rfl⟩
    exact List.mem_map_of_mem (List.mem_filter.mpr ⟨hrow, beq_iff_eq.mpr hpath⟩)

/-- The keys of the deleted rows were in the table. -/
theorem mem_vectorKeySet_of_removed (path : Str) {key : UInt64}
    (hkey : key ∈ (db.removeFileChunks path).1) :
    key ∈ vectorKeySet db.chunks := by
  obtain ⟨row, hrow, rfl⟩ := List.mem_map.mp hkey
  exact List.mem_toFinset.mpr (List.mem_map_of_mem (List.mem_filter.mp hrow).1)

theorem length_removeFileChunks (path : Str) :
    (db.removeFileChunks path).1.length + (db.removeFileChunks path).2.chunks.length =
      db.chunks.length := by
  rw [removeFileChunks, chunkVectorKeysForFile, List.length_map]
  exact (List.length_eq_length_filter_add _).symm

theorem mem_fileSet_insertChunks {keys : List UInt64} {other : Str} (hother : other ≠ path) :
    other ∈ fileSet (db.insertChunks path keys).chunks ↔ other ∈ fileSet db.chunks := by
  simp only [fileSet, insertChunks, List.map_append, List.toFinset_append, Finset.mem_union,
    List.mem_toFinset, List.map_map]
  apply or_iff_left
  rintro hmem
  obtain ⟨key, -, rfl⟩ := List.mem_map.mp hmem
  exact hother rfl

theorem mem_vectorKeySet_insertChunks {keys : List UInt64} {key : UInt64} (hkey : key ∉ keys) :
    key ∈ vectorKeySet (db.insertChunks path keys).chunks ↔ key ∈ vectorKeySet db.chunks := by
  simp only [vectorKeySet, insertChunks, List.map_append, List.toFinset_append, Finset.mem_union,
    List.mem_toFinset, List.map_map]
  apply or_iff_left
  rintro hmem
  obtain ⟨other, hother, rfl⟩ := List.mem_map.mp hmem
  exact hkey hother

end IndexDb

/-! ## Tracking keys -/

namespace IncrementalStatsDelta

/-- Tracking keys changes nothing else. -/
structure SameCounts (old new : IncrementalStatsDelta) : Prop where
  baseChunkCount : new.baseChunkCount = old.baseChunkCount
  baseFileCount : new.baseFileCount = old.baseFileCount
  baseVectorKeyCount : new.baseVectorKeyCount = old.baseVectorKeyCount
  chunkDelta : new.chunkDelta = old.chunkDelta
  initialFilePresence : new.initialFilePresence = old.initialFilePresence

theorem trackVectorKeys_sameCounts (present : UInt64 → Bool) (keys : List UInt64)
    (delta : IncrementalStatsDelta) : SameCounts delta (trackVectorKeys present delta keys) := by
  induction keys generalizing delta with
  | nil => exact ⟨rfl, rfl, rfl, rfl, rfl⟩
  | cons key keys ih =>
    have hkey : SameCounts delta (delta.trackVectorKey present key) := by
      unfold trackVectorKey
      split
      · exact ⟨rfl, rfl, rfl, rfl, rfl⟩
      · split <;> exact ⟨rfl, rfl, rfl, rfl, rfl⟩
    have hkeys := ih (delta.trackVectorKey present key)
    exact ⟨hkeys.baseChunkCount.trans hkey.baseChunkCount,
      hkeys.baseFileCount.trans hkey.baseFileCount,
      hkeys.baseVectorKeyCount.trans hkey.baseVectorKeyCount,
      hkeys.chunkDelta.trans hkey.chunkDelta,
      hkeys.initialFilePresence.trans hkey.initialFilePresence⟩

/-- What is known of the keys, as long as there are not too many of them. -/
def KeysTouched (delta : IncrementalStatsDelta) (before now : Finset UInt64) : Prop :=
  delta.vectorKeyCountRequiresFullScan = false →
    Touched before now delta.initialVectorKeyPresence

/-- The keys that the statistics know of. -/
def Knows (delta : IncrementalStatsDelta) (key : UInt64) : Prop :=
  delta.vectorKeyCountRequiresFullScan = false →
    key ∈ delta.initialVectorKeyPresence.map Prod.fst

variable {delta : IncrementalStatsDelta} {before now : Finset UInt64} {present : UInt64 → Bool}

theorem trackVectorKey_spec {key : UInt64} (hpresent : present key = true ↔ key ∈ now)
    (h : delta.KeysTouched before now) :
    (delta.trackVectorKey present key).KeysTouched before now ∧
      (delta.trackVectorKey present key).Knows key ∧
      ∀ other, delta.Knows other → (delta.trackVectorKey present key).Knows other := by
  unfold trackVectorKey
  split
  · next hknown =>
    refine ⟨h, fun hflag => ?_, fun _ hother => hother⟩
    rw [hflag, Bool.false_or, List.contains_iff_mem] at hknown
    exact hknown
  next hnew =>
  rw [Bool.or_eq_true, not_or, Bool.not_eq_true, List.contains_iff_mem] at hnew
  split
  · -- From here on the keys are counted again, and nothing needs to be known.
    have hscan : true ≠ false := by decide
    exact ⟨fun hflag => absurd hflag hscan, fun hflag => absurd hflag hscan,
      fun _ _ hflag => absurd hflag hscan⟩
  · refine ⟨fun hflag => (h hflag).orInsert fun _ => hpresent,
      fun _ => mem_map_fst_orInsert.mpr (.inr rfl), fun other hother hflag => ?_⟩
    exact mem_map_fst_orInsert.mpr (.inl (hother hflag))

theorem trackVectorKeys_spec {keys : List UInt64}
    (hpresent : ∀ key ∈ keys, (present key = true ↔ key ∈ now))
    (h : delta.KeysTouched before now) :
    (trackVectorKeys present delta keys).KeysTouched before now ∧
      (∀ key ∈ keys, (trackVectorKeys present delta keys).Knows key) ∧
      ∀ other, delta.Knows other → (trackVectorKeys present delta keys).Knows other := by
  induction keys generalizing delta with
  | nil => exact ⟨h, fun _ hkey => absurd hkey List.not_mem_nil, fun _ hother => hother⟩
  | cons key keys ih =>
    rw [List.forall_mem_cons] at hpresent
    obtain ⟨htouched, hknows, hkeep⟩ := trackVectorKey_spec hpresent.1 h
    obtain ⟨htouched', hknows', hkeep'⟩ := ih hpresent.2 htouched
    refine ⟨htouched', ?_, fun other hother => hkeep' other (hkeep other hother)⟩
    rw [List.forall_mem_cons]
    exact ⟨hkeep' key hknows, hknows'⟩

/-- What recording a change of a file does. -/
structure Recorded (old new : IncrementalStatsDelta) (path : Str) (initially : Bool)
    (keys : List UInt64) (difference : Int) (before now : Finset UInt64) : Prop where
  baseChunkCount : new.baseChunkCount = old.baseChunkCount
  baseFileCount : new.baseFileCount = old.baseFileCount
  baseVectorKeyCount : new.baseVectorKeyCount = old.baseVectorKeyCount
  chunkDelta : new.chunkDelta = old.chunkDelta + difference
  files : new.initialFilePresence = orInsert old.initialFilePresence path initially
  touched : new.KeysTouched before now
  knows : ∀ key ∈ keys, new.Knows key
  keeps : ∀ key, old.Knows key → new.Knows key

/-- The keys of a removal are recorded as present: the table still has them. -/
theorem recordRemoval_spec (path : Str) {keys : List UInt64} (hkeys : ∀ key ∈ keys, key ∈ now)
    (h : delta.KeysTouched before now) :
    Recorded delta (delta.recordRemoval path keys) path (!keys.isEmpty) keys (-keys.length)
      before now := by
  have hpresent : ∀ key ∈ keys, ((fun _ => true) key = true ↔ key ∈ now) :=
    fun key hkey => iff_of_true rfl (hkeys key hkey)
  unfold recordRemoval
  generalize htracked : ({ delta with
    initialFilePresence := orInsert delta.initialFilePresence path !keys.isEmpty
    chunkDelta := delta.chunkDelta - keys.length } : IncrementalStatsDelta) = tracked
  have hbefore : tracked.KeysTouched before now := by
    rw [← htracked]
    exact h
  have hsame := trackVectorKeys_sameCounts (fun _ => true) keys tracked
  obtain ⟨htouched, hknows, hkeeps⟩ := trackVectorKeys_spec hpresent hbefore
  subst htracked
  exact ⟨hsame.baseChunkCount, hsame.baseFileCount, hsame.baseVectorKeyCount, hsame.chunkDelta,
    hsame.initialFilePresence, htouched, hknows, hkeeps⟩

theorem recordInsertion_spec (db : IndexDb) (path : Str) (keys : List UInt64)
    (h : delta.KeysTouched before (vectorKeySet db.chunks)) :
    Recorded delta (delta.recordInsertion db path keys) path false keys keys.length before
      (vectorKeySet db.chunks) := by
  have hpresent : ∀ key ∈ keys, (db.hasVectorKey key = true ↔ key ∈ vectorKeySet db.chunks) :=
    fun key _ => db.hasVectorKey_iff key
  unfold recordInsertion
  generalize htracked : ({ delta with
    initialFilePresence := orInsert delta.initialFilePresence path false } :
      IncrementalStatsDelta) = tracked
  have hbefore : tracked.KeysTouched before (vectorKeySet db.chunks) := by
    rw [← htracked]
    exact h
  have hsame := trackVectorKeys_sameCounts db.hasVectorKey keys tracked
  obtain ⟨htouched, hknows, hkeeps⟩ := trackVectorKeys_spec hpresent hbefore
  subst htracked
  exact ⟨hsame.baseChunkCount, hsame.baseFileCount, hsame.baseVectorKeyCount,
    congrArg (· + (keys.length : Int)) hsame.chunkDelta, hsame.initialFilePresence, htouched,
    hknows, hkeeps⟩

/-- The table may change at the keys that the statistics know of. -/
theorem KeysTouched.change {next : Finset UInt64} (h : delta.KeysTouched before now)
    (hsame : ∀ key, ¬ delta.Knows key → (key ∈ next ↔ key ∈ now)) :
    delta.KeysTouched before next := by
  intro hflag
  refine (h hflag).change fun key hkey => hsame key ?_
  exact fun hknows => hkey (hknows hflag)

end IncrementalStatsDelta

/-! ## Runs -/

/-- The recorded changes lead from the table at the last checkpoint to the table now. -/
structure Tracks (origin : List ChunkRow) (run : IncrementalRun) : Prop where
  chunkCount : run.stats.baseChunkCount = origin.length
  fileCount : run.stats.baseFileCount = (fileSet origin).card
  vectorKeyCount : run.stats.baseVectorKeyCount = (vectorKeySet origin).card
  chunkDelta : run.stats.chunkDelta = run.db.chunks.length - origin.length
  files : Touched (fileSet origin) (fileSet run.db.chunks) run.stats.initialFilePresence
  keys : run.stats.KeysTouched (vectorKeySet origin) (vectorKeySet run.db.chunks)

namespace Tracks

variable {origin : List ChunkRow} {run : IncrementalRun}

theorem remove (h : Tracks origin run) (path : Str) : Tracks origin (run.remove path) := by
  have hrecorded := IncrementalStatsDelta.recordRemoval_spec path
    (fun _ => run.db.mem_vectorKeySet_of_removed path) h.keys
  have hlength := run.db.length_removeFileChunks path
  refine ⟨hrecorded.baseChunkCount.trans h.chunkCount, hrecorded.baseFileCount.trans h.fileCount,
    hrecorded.baseVectorKeyCount.trans h.vectorKeyCount, ?_, ?_, ?_⟩
  · have hdelta := h.chunkDelta
    rw [IncrementalRun.remove, hrecorded.chunkDelta, hdelta, ← hlength]
    push_cast
    omega
  · rw [IncrementalRun.remove, hrecorded.files]
    refine (h.files.orInsert fun _ => run.db.chunkVectorKeysForFile_isEmpty).change ?_
    intro other hother
    rw [mem_map_fst_orInsert, not_or] at hother
    rw [run.db.mem_fileSet_removeFileChunks, and_iff_left hother.2]
  · refine hrecorded.touched.change fun key hkey => ?_
    exact run.db.mem_vectorKeySet_removeFileChunks fun hremoved =>
      hkey (hrecorded.knows key hremoved)

/-- An insertion is recorded, and then the rows are inserted. -/
theorem insert (h : Tracks origin run) {path : Str} (habsent : path ∉ fileSet run.db.chunks)
    (keys : List UInt64) : Tracks origin
      { stats := run.stats.recordInsertion run.db path keys
        db := run.db.insertChunks path keys } := by
  have hrecorded := IncrementalStatsDelta.recordInsertion_spec run.db path keys h.keys
  refine ⟨hrecorded.baseChunkCount.trans h.chunkCount, hrecorded.baseFileCount.trans h.fileCount,
    hrecorded.baseVectorKeyCount.trans h.vectorKeyCount, ?_, ?_, ?_⟩
  · have hdelta := h.chunkDelta
    rw [hrecorded.chunkDelta, hdelta, IndexDb.insertChunks, List.length_append, List.length_map]
    push_cast
    omega
  · rw [hrecorded.files]
    refine (h.files.orInsert fun _ => iff_of_false Bool.false_ne_true habsent).change ?_
    intro other hother
    rw [mem_map_fst_orInsert, not_or] at hother
    exact run.db.mem_fileSet_insertChunks hother.2
  · refine hrecorded.touched.change fun key hkey => ?_
    exact run.db.mem_vectorKeySet_insertChunks fun hmem => hkey (hrecorded.knows key hmem)

theorem replace (h : Tracks origin run) (path : Str) (keys : List UInt64) :
    Tracks origin (run.replace path keys) := by
  apply (h.remove path).insert
  rw [IncrementalRun.remove, IndexDb.mem_fileSet_removeFileChunks]
  exact fun hmem => hmem.2 rfl

/-- The counts that are stored are those of the table. -/
theorem finalCounts_eq (h : Tracks origin run) : run.stats.finalCounts run.db =
    (run.db.countChunks, run.db.countFiles, run.db.countVectorKeys) := by
  have hchunks : run.stats.baseChunkCount + run.stats.chunkDelta = run.db.countChunks := by
    rw [h.chunkCount, h.chunkDelta, IndexDb.countChunks]
    omega
  have hfiles : run.stats.baseFileCount + IncrementalStatsDelta.presenceDelta run.db.hasFile
      run.stats.initialFilePresence = run.db.countFiles := by
    rw [h.fileCount, run.db.countFiles_eq, h.files.card_eq run.db.hasFile_iff]
    rfl
  have hkeys : run.stats.vectorKeyCount run.db = run.db.countVectorKeys := by
    unfold IncrementalStatsDelta.vectorKeyCount
    split
    · rfl
    · next hflag =>
      have htouched := h.keys (Bool.eq_false_iff.mpr hflag)
      rw [h.vectorKeyCount, run.db.countVectorKeys_eq, htouched.card_eq run.db.hasVectorKey_iff]
      rfl
  rw [IncrementalStatsDelta.finalCounts, IncrementalStatsDelta.chunkAndFileCounts, hchunks, hfiles,
    hkeys]

end Tracks

/-- The cached statistics are correct. -/
def IndexDb.StatsCorrect (db : IndexDb) : Prop :=
  db.stats = ⟨some db.countChunks, some db.countFiles, some db.countVectorKeys⟩

/-- Statistics that start from the real counts track every change from there on. -/
theorem tracks_fresh (db : IndexDb) : Tracks db.chunks
    { stats :=
        { baseChunkCount := db.countChunks
          baseFileCount := db.countFiles
          baseVectorKeyCount := db.countVectorKeys
          chunkDelta := 0
          initialFilePresence := []
          initialVectorKeyPresence := []
          vectorKeyCountRequiresFullScan := false }
      db := db } where
  chunkCount := rfl
  fileCount := db.countFiles_eq
  vectorKeyCount := db.countVectorKeys_eq
  chunkDelta := (Int.sub_self _).symm
  files := Touched.nil
  keys := fun _ => Touched.nil

namespace Tracks

variable {origin : List ChunkRow} {run : IncrementalRun}

theorem finish_correct (h : Tracks origin run) : run.finish.StatsCorrect := by
  rw [IncrementalRun.finish, h.finalCounts_eq]
  rfl

theorem checkpoint_eq (h : Tracks origin run) : run.checkpoint =
    { stats :=
        { baseChunkCount := run.db.countChunks
          baseFileCount := run.db.countFiles
          baseVectorKeyCount := run.db.countVectorKeys
          chunkDelta := 0
          initialFilePresence := []
          initialVectorKeyPresence := []
          vectorKeyCountRequiresFullScan := false }
      db := run.db.storeStats
        (run.db.countChunks, run.db.countFiles, run.db.countVectorKeys) } := by
  have hcounts := h.finalCounts_eq
  rw [IncrementalStatsDelta.finalCounts, Prod.mk.injEq, Prod.mk.injEq] at hcounts
  obtain ⟨hchunks, hfiles, hkeys⟩ := hcounts
  unfold IncrementalRun.checkpoint IncrementalStatsDelta.checkpoint
  dsimp only
  rw [hchunks, hfiles, hkeys]

theorem checkpoint_correct (h : Tracks origin run) : run.checkpoint.db.StatsCorrect := by
  rw [h.checkpoint_eq]
  rfl

theorem step (h : Tracks origin run) (step : IncrementalStep) :
    ∃ origin, Tracks origin (run.step step) := by
  cases step with
  | remove path => exact ⟨origin, h.remove path⟩
  | replace path keys => exact ⟨origin, h.replace path keys⟩
  | checkpoint =>
    refine ⟨run.db.chunks, ?_⟩
    rw [IncrementalRun.step, h.checkpoint_eq]
    exact tracks_fresh (run.db.storeStats
      (run.db.countChunks, run.db.countFiles, run.db.countVectorKeys))

theorem steps (h : Tracks origin run) (steps : List IncrementalStep) :
    ∃ origin, Tracks origin (run.steps steps) := by
  induction steps generalizing origin run with
  | nil => exact ⟨origin, h⟩
  | cons step rest ih =>
    obtain ⟨origin', hstep⟩ := h.step step
    exact ih hstep

end Tracks

theorem load_eq {db : IndexDb} (h : db.StatsCorrect) : IncrementalStatsDelta.load db =
    some
      { baseChunkCount := db.countChunks
        baseFileCount := db.countFiles
        baseVectorKeyCount := db.countVectorKeys
        chunkDelta := 0
        initialFilePresence := []
        initialVectorKeyPresence := []
        vectorKeyCountRequiresFullScan := false } := by
  rw [IncrementalStatsDelta.load, h]
  rfl

/-- From correct statistics, through any removals, replacements and checkpoints: the next
    checkpoint and the end of the run store the counts of the table as it is then. -/
theorem incrementalStats_correct {db : IndexDb} (h : db.StatsCorrect) :
    ∃ stats, IncrementalStatsDelta.load db = some stats ∧ ∀ steps : List IncrementalStep,
      let run := (IncrementalRun.mk stats db).steps steps
      run.checkpoint.db.StatsCorrect ∧ run.checkpoint.db.chunks = run.db.chunks ∧
        run.stats.finalCounts run.db =
          (run.db.countChunks, run.db.countFiles, run.db.countVectorKeys) ∧
        run.finish.StatsCorrect := by
  refine ⟨_, load_eq h, fun steps => ?_⟩
  obtain ⟨origin, htracks⟩ := (tracks_fresh db).steps steps
  exact ⟨htracks.checkpoint_correct, rfl, htracks.finalCounts_eq, htracks.finish_correct⟩

/-- Two files that share a key. -/
private def sharedKeyDb : IndexDb :=
  { chunks := [⟨"a.rs".toList, 1⟩, ⟨"b.rs".toList, 1⟩], stats := ⟨some 2, some 2, some 1⟩ }

/-- One of the files gets another key, and then the other one is removed. -/
private def sharedKeySteps : List IncrementalStep :=
  [.replace "a.rs".toList [2, 2], .checkpoint, .remove "b.rs".toList]

theorem incrementalStats_correct_shared :
    ∃ stats, IncrementalStatsDelta.load sharedKeyDb = some stats ∧
      ((IncrementalRun.mk stats sharedKeyDb).steps sharedKeySteps).finish.stats =
        ⟨some 2, some 1, some 1⟩ := by
  have hcorrect : sharedKeyDb.StatsCorrect := by
    unfold IndexDb.StatsCorrect
    decide
  obtain ⟨stats, hload, hsteps⟩ := incrementalStats_correct hcorrect
  refine ⟨stats, hload, ?_⟩
  have hfinish := (hsteps sharedKeySteps).2.2.2
  obtain rfl := Option.some.inj hload
  exact hfinish.trans (by decide)

end Ivygrep.Native
