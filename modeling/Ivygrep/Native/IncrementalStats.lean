import Ivygrep.ForStd.Touched
import Ivygrep.Native.Str

/-!
# Cached index statistics

`IncrementalStatsDelta` of `indexer.rs` and the part of `index_workspace_inner` that uses it: the
three cached counts of the `chunks` table are carried from one commit to the next without counting
the table again. Paths are given as `index_path_string` has them.
-/

namespace Ivygrep.Native

def maxTrackedIncrementalVectorKeys : Nat := 512

/-- A row of the `chunks` table, of which the statistics are. -/
structure ChunkRow where
  filePath : Str
  vectorKey : UInt64
  deriving DecidableEq

/-- The `_stats` table. A count that was never stored has no row. -/
structure StatsTable where
  chunkCount : Option Int
  fileCount : Option Int
  vectorKeyCount : Option Int
  deriving DecidableEq

structure IndexDb where
  chunks : List ChunkRow
  stats : StatsTable

namespace IndexDb

variable (db : IndexDb)

/-- `SELECT EXISTS(SELECT 1 FROM chunks WHERE file_path = ?1)`. -/
def hasFile (path : Str) : Bool := db.chunks.any fun row => row.filePath == path

/-- `SELECT EXISTS(SELECT 1 FROM chunks WHERE vector_key = ?1)`. -/
def hasVectorKey (key : UInt64) : Bool := db.chunks.any fun row => row.vectorKey == key

/-- `SELECT COUNT(*) FROM chunks`. -/
def countChunks : Int := db.chunks.length

/-- `SELECT COUNT(DISTINCT file_path) FROM chunks`. -/
def countFiles : Int := (db.chunks.map ChunkRow.filePath).dedup.length

/-- `SELECT COUNT(DISTINCT vector_key) FROM chunks`. -/
def countVectorKeys : Int := (db.chunks.map ChunkRow.vectorKey).dedup.length

/-- `chunk_vector_keys_for_file`. -/
def chunkVectorKeysForFile (path : Str) : List UInt64 :=
  (db.chunks.filter fun row => row.filePath == path).map ChunkRow.vectorKey

/-- `remove_file_chunks`, as far as the `chunks` table goes: the keys of the deleted rows. -/
def removeFileChunks (path : Str) : List UInt64 × IndexDb :=
  (db.chunkVectorKeysForFile path,
    { db with chunks := db.chunks.filter fun row => row.filePath != path })

/-- `insert_chunk` for each chunk of a file. -/
def insertChunks (path : Str) (keys : List UInt64) : IndexDb :=
  { db with chunks := db.chunks ++ keys.map fun key => ⟨path, key⟩ }

/-- `INSERT OR REPLACE INTO _stats`, for each of the three counts. -/
def storeStats (counts : Int × Int × Int) : IndexDb :=
  { db with stats := ⟨some counts.1, some counts.2.1, some counts.2.2⟩ }

end IndexDb

structure IncrementalStatsDelta where
  baseChunkCount : Int
  baseFileCount : Int
  baseVectorKeyCount : Int
  chunkDelta : Int
  initialFilePresence : List (Str × Bool)
  initialVectorKeyPresence : List (UInt64 × Bool)
  vectorKeyCountRequiresFullScan : Bool

namespace IncrementalStatsDelta

/-- `IncrementalStatsDelta::load`. -/
def load (db : IndexDb) : Option IncrementalStatsDelta := do
  let baseChunkCount ← db.stats.chunkCount
  let baseFileCount ← db.stats.fileCount
  let baseVectorKeyCount ← db.stats.vectorKeyCount
  some {
    baseChunkCount, baseFileCount, baseVectorKeyCount
    chunkDelta := 0
    initialFilePresence := []
    initialVectorKeyPresence := []
    vectorKeyCountRequiresFullScan := false }

variable (delta : IncrementalStatsDelta)

/-- The body of the loops over the keys: the first time a key is met, whether it is present is
    kept, until there are too many keys. -/
def trackVectorKey (present : UInt64 → Bool) (key : UInt64) : IncrementalStatsDelta :=
  if delta.vectorKeyCountRequiresFullScan ||
      (delta.initialVectorKeyPresence.map Prod.fst).contains key then delta
  else if maxTrackedIncrementalVectorKeys ≤ delta.initialVectorKeyPresence.length then
    { delta with initialVectorKeyPresence := [], vectorKeyCountRequiresFullScan := true }
  else { delta with
    initialVectorKeyPresence := ForStd.orInsert delta.initialVectorKeyPresence key (present key) }

def trackVectorKeys (present : UInt64 → Bool) (delta : IncrementalStatsDelta) :
    List UInt64 → IncrementalStatsDelta
  | [] => delta
  | key :: keys => trackVectorKeys present (delta.trackVectorKey present key) keys

/-- `IncrementalStatsDelta::record_removal`. -/
def recordRemoval (relPath : Str) (vectorKeys : List UInt64) : IncrementalStatsDelta :=
  trackVectorKeys (fun _ => true)
    { delta with
      initialFilePresence := ForStd.orInsert delta.initialFilePresence relPath !vectorKeys.isEmpty
      chunkDelta := delta.chunkDelta - vectorKeys.length }
    vectorKeys

/-- `IncrementalStatsDelta::record_insertion`. -/
def recordInsertion (db : IndexDb) (relPath : Str) (vectorKeys : List UInt64) :
    IncrementalStatsDelta :=
  let tracked := trackVectorKeys db.hasVectorKey
    { delta with
      initialFilePresence := ForStd.orInsert delta.initialFilePresence relPath false }
    vectorKeys
  { tracked with chunkDelta := tracked.chunkDelta + vectorKeys.length }

/-- `present as i64 - initial as i64`, summed over what was tracked. -/
def presenceDelta {α : Type} (present : α → Bool) (initial : List (α × Bool)) : Int :=
  (initial.map fun entry => ((present entry.1).toInt - entry.2.toInt)).sum

/-- `IncrementalStatsDelta::chunk_and_file_counts`. -/
def chunkAndFileCounts (db : IndexDb) : Int × Int :=
  (delta.baseChunkCount + delta.chunkDelta,
    delta.baseFileCount + presenceDelta db.hasFile delta.initialFilePresence)

/-- `IncrementalStatsDelta::vector_key_count`. -/
def vectorKeyCount (db : IndexDb) : Int :=
  if delta.vectorKeyCountRequiresFullScan then db.countVectorKeys
  else delta.baseVectorKeyCount + presenceDelta db.hasVectorKey delta.initialVectorKeyPresence

/-- `IncrementalStatsDelta::final_counts`. -/
def finalCounts (db : IndexDb) : Int × Int × Int :=
  let counts := delta.chunkAndFileCounts db
  (counts.1, counts.2, delta.vectorKeyCount db)

/-- `IncrementalStatsDelta::checkpoint`. -/
def checkpoint (db : IndexDb) : IncrementalStatsDelta × IndexDb :=
  let counts := delta.chunkAndFileCounts db
  let vectorKeyCount := delta.vectorKeyCount db
  ({ baseChunkCount := counts.1
     baseFileCount := counts.2
     baseVectorKeyCount := vectorKeyCount
     chunkDelta := 0
     initialFilePresence := []
     initialVectorKeyPresence := []
     vectorKeyCountRequiresFullScan := false },
    db.storeStats (counts.1, counts.2, vectorKeyCount))

end IncrementalStatsDelta

/-! ## A run -/

/-- What `index_workspace_inner` does between the beginning and the final counts. -/
inductive IncrementalStep where
  | remove (path : Str)
  | replace (path : Str) (keys : List UInt64)
  | checkpoint

/-- The table and the statistics of an incremental run. -/
structure IncrementalRun where
  stats : IncrementalStatsDelta
  db : IndexDb

namespace IncrementalRun

variable (run : IncrementalRun)

/-- A file that is gone. -/
def remove (path : Str) : IncrementalRun :=
  let removed := run.db.removeFileChunks path
  { stats := run.stats.recordRemoval path removed.1, db := removed.2 }

/-- A file with new chunks: the old rows are removed, and the insertion is recorded before the new
    rows are there. -/
def replace (path : Str) (keys : List UInt64) : IncrementalRun :=
  let removed := run.remove path
  { stats := removed.stats.recordInsertion removed.db path keys
    db := removed.db.insertChunks path keys }

def checkpoint : IncrementalRun :=
  let stored := run.stats.checkpoint run.db
  { stats := stored.1, db := stored.2 }

def step : IncrementalStep → IncrementalRun
  | .remove path => run.remove path
  | .replace path keys => run.replace path keys
  | .checkpoint => run.checkpoint

def steps (run : IncrementalRun) : List IncrementalStep → IncrementalRun
  | [] => run
  | step :: rest => steps (run.step step) rest

/-- The end of the run, before the last commit. -/
def finish : IndexDb := run.db.storeStats (run.stats.finalCounts run.db)

end IncrementalRun

end Ivygrep.Native
