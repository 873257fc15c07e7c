import Ivygrep.ForStd.FileTree
import Ivygrep.ForStd.Outcome
import Ivygrep.Native.Str

/-!
# Staged promotion

`indexer/staging.rs`: an index generation is built in a staging directory, and
`promote` / `promote_overlay` move the live artifacts to a backup directory and the
staged ones to their live paths, or roll back.

The file system is a tree. Which operation fails is an oracle, and a `Disk` keeps every
tree it has been, so that a crash point is a member of that history.
-/

namespace Ivygrep.Native

open ForStd (attempt)

/-- An absolute path as its components. -/
abbrev Path := List Str

abbrev FileTree := ForStd.FileTree Str (List UInt8)

/-! ## The file system -/

/-- One step of the file system. -/
inductive FsOp where
  | createFile (path : Path)
  | writeFile (path : Path)
  | createDir (path : Path)
  | rename (src dst : Path)
  | removeFile (path : Path)
  | unlink (path : Path)
  | removeDir (path : Path)
  deriving DecidableEq, Repr

/-- The errors of this module. The texts that `anyhow` makes of them carry the same
    paths and causes. -/
inductive StagingError where
  | io (op : FsOp)
  /-- "staged overlay artifact is missing" -/
  | artifactMissing (path : Path)
  /-- "staged {store} index is missing" -/
  | storeMissing (store : Str)
  /-- "failed to preserve live index {}" -/
  | preserve (live : Path) (error : StagingError)
  /-- "failed to promote staged index {} -> {}" -/
  | promote (staged live : Path) (error : StagingError)
  /-- "failed to restore live index {} from {}" -/
  | restore (live backup : Path) (error : StagingError)
  /-- "failed to remove partial index {}" -/
  | removePartial (path : Path) (error : StagingError)
  /-- "failed to preserve live index {}: {error}; rollback failed: {rollback_error};
      backups retained at {}" -/
  | preserveRollback (live : Path) (error rollback : StagingError) (backupDir : Path)
  /-- "failed to promote staged index {} -> {}: {error}; rollback failed:
      {rollback_error}; backups retained at {}" -/
  | promoteRollback (staged live : Path) (error rollback : StagingError) (backupDir : Path)
  deriving DecidableEq, Repr

/-- Which steps fail, and the order in which `remove_dir_all` empties a directory: the
    entries as a name in the directory and the path below it. -/
structure Faults where
  fails : FsOp → Bool
  removalOrder : Path → List (Str × Path)

/-- The tree now, and every tree before it, the latest first. -/
structure Disk where
  now : FileTree
  past : List FileTree

/-- Every tree that a crash could have left on the disk so far. -/
def Disk.states (disk : Disk) : List FileTree := disk.now :: disk.past

def Disk.step (disk : Disk) (tree : FileTree) : Disk := ⟨tree, disk.states⟩

abbrev Fs := EStateM StagingError Disk

variable (faults : Faults)

/-- A step that changes the tree as a whole, or fails and changes nothing. -/
def perform (op : FsOp) (change : FileTree → Option FileTree) : Fs Unit := fun disk =>
  if faults.fails op then .error (.io op) disk
  else
    match change disk.now with
    | none => .error (.io op) disk
    | some tree => .ok () (disk.step tree)

/-- `Path::exists`. -/
def pathExists (path : Path) : Fs Bool := fun disk => .ok (disk.now.get path).isSome disk

/-- `Path::is_file`. -/
def isFile (path : Path) : Fs Bool := fun disk => .ok (disk.now.isFile path) disk

/-- `Path::is_dir`. -/
def isDir (path : Path) : Fs Bool := fun disk => .ok (disk.now.isDir path) disk

/-- `fs::write`: a crash can leave the file empty. -/
def writeFile (path : Path) (content : List UInt8) : Fs Unit := do
  perform faults (.createFile path) (·.write path [])
  perform faults (.writeFile path) (·.write path content)

/-- `fs::create_dir`. -/
def createDir (path : Path) : Fs Unit :=
  perform faults (.createDir path) (·.createDir path)

/-- `fs::rename`. -/
def rename (src dst : Path) : Fs Unit :=
  perform faults (.rename src dst) (·.rename src dst)

/-- `fs::remove_file`. -/
def removeFile (path : Path) : Fs Unit :=
  perform faults (.removeFile path) fun tree =>
    if tree.isFile path then some (tree.set path none) else none

/-- The entries of a directory that `fs::remove_dir_all` removes before the directory. -/
def unlinkAll (dir : Path) : List (Str × Path) → Fs Unit
  | [] => pure ()
  | entry :: rest => do
    let path := dir ++ entry.1 :: entry.2
    perform faults (.unlink path) fun tree => some ((tree.unlink path).getD tree)
    unlinkAll dir rest

/-- `fs::remove_dir_all`. A failure leaves what it has not yet removed. -/
def removeDirAll (dir : Path) : Fs Unit := do
  unlinkAll faults dir (faults.removalOrder dir)
  perform faults (.removeDir dir) fun tree =>
    if tree.isDir dir then some (tree.set dir none) else none

/-- `anyhow::Context`: an error gets wrapped. -/
def withContext {α : Type} (wrap : StagingError → StagingError) (x : Fs α) : Fs α := do
  match ← attempt x with
  | .ok a => pure a
  | .error error => throw (wrap error)

/-- `let _ = …;`. -/
def ignore (x : Fs Unit) : Fs Unit := do
  let _ ← attempt x

/-! ## The paths of a workspace -/

/-- `Path::with_extension`: the extension of the file name goes from its last dot on,
    unless that dot is the first character or there is none. -/
def withExtension (path : Path) (extension : Str) : Path :=
  path.dropLast ++ path.getLast?.toList.map fun name =>
    let stem := (name.reverse.dropWhile (· ≠ '.')).tail.reverse
    (if stem.isEmpty then name else stem) ++ '.' :: extension

/-- `sqlite_sidecar_path`: the suffix is pushed on the path as a string. -/
def sqliteSidecarPath (path : Path) (suffix : Str) : Path :=
  path.dropLast ++ path.getLast?.toList.map fun name => name ++ suffix

structure Workspace where
  indexDir : Path
  deriving DecidableEq, Repr

namespace Workspace

variable (workspace : Workspace)

def join (name : String) : Path := workspace.indexDir ++ [name.toList]

def metadataPath : Path := workspace.join "workspace.json"
def sqlitePath : Path := workspace.join "metadata.sqlite3"
def tantivyDir : Path := workspace.join "tantivy"
def vectorPath : Path := workspace.join "vectors.usearch"
def vectorNeuralPath : Path := workspace.join "vectors_neural.usearch"
def neuralProfilePath : Path := workspace.join "neural_profile"
def neuralModelPath : Path := workspace.join "neural_model.json"
def neuralBackendPath : Path := workspace.join "neural_backend"
def indexFormatVersionPath : Path := workspace.join "index_format_version"
def overlaySqlitePath : Path := workspace.join "overlay.sqlite3"
def overlayTantivyDir : Path := workspace.join "overlay_tantivy"
def overlayVectorPath : Path := workspace.join "overlay_vectors.usearch"
def baseRefPath : Path := workspace.join "base_ref.json"
def indexIncarnationPath : Path := workspace.join "index_incarnation"
def neuralTombstonesPath : Path := workspace.join ".neural_tombstones"
def neuralTombstonesProcessingPath : Path := workspace.join ".neural_tombstones.processing"
def hashTombstonesPath : Path := workspace.join ".hash_tombstones"
def hashTombstonesProcessingPath : Path := workspace.join ".hash_tombstones.processing"
def hashEnhancedGenerationPath : Path := workspace.join ".hash_enhanced_generation"
def neuralEnhancedGenerationPath : Path := workspace.join ".neural_enhanced_generation"
def merkleSnapshotPath : Path := workspace.join "merkle_snapshot.json"

end Workspace

def mainStoreArtifacts (workspace : Workspace) : List Path :=
  let sqlitePath := workspace.sqlitePath
  [ workspace.indexIncarnationPath,
    sqlitePath,
    sqliteSidecarPath sqlitePath "-wal".toList,
    sqliteSidecarPath sqlitePath "-shm".toList,
    workspace.tantivyDir,
    workspace.vectorPath,
    withExtension workspace.vectorPath "usearch.bak".toList,
    withExtension workspace.vectorPath "usearch.tmp".toList,
    workspace.vectorNeuralPath,
    withExtension workspace.vectorNeuralPath "usearch.bak".toList,
    withExtension workspace.vectorNeuralPath "usearch.tmp".toList,
    workspace.neuralModelPath,
    workspace.neuralProfilePath,
    workspace.neuralBackendPath,
    workspace.hashTombstonesPath,
    workspace.hashTombstonesProcessingPath,
    workspace.hashEnhancedGenerationPath,
    workspace.neuralTombstonesPath,
    workspace.neuralTombstonesProcessingPath,
    workspace.neuralEnhancedGenerationPath ]

def overlayStoreArtifacts (workspace : Workspace) : List Path :=
  let sqlite := workspace.overlaySqlitePath
  let vectors := workspace.overlayVectorPath
  let neural := workspace.vectorNeuralPath
  [ workspace.metadataPath,
    workspace.indexIncarnationPath,
    sqlite,
    sqliteSidecarPath sqlite "-wal".toList,
    sqliteSidecarPath sqlite "-shm".toList,
    workspace.overlayTantivyDir,
    vectors,
    withExtension vectors "usearch.bak".toList,
    withExtension vectors "usearch.tmp".toList,
    neural,
    withExtension neural "usearch.bak".toList,
    withExtension neural "usearch.tmp".toList,
    workspace.neuralModelPath,
    workspace.neuralProfilePath,
    workspace.neuralBackendPath,
    workspace.hashTombstonesPath,
    workspace.hashTombstonesProcessingPath,
    workspace.neuralTombstonesPath,
    workspace.neuralTombstonesProcessingPath,
    workspace.hashEnhancedGenerationPath,
    workspace.neuralEnhancedGenerationPath,
    workspace.baseRefPath,
    workspace.merkleSnapshotPath,
    withExtension workspace.merkleSnapshotPath "verified".toList,
    workspace.indexFormatVersionPath ]

/-! ## Staging -/

def stagingDirPrefix : Str := ".fresh-index-staging-".toList

def backupDirPrefix : Str := ".fresh-index-backup-".toList

def retainedBackupMarker : Str := "retained".toList

/-- `to_string` of an unsigned integer. -/
def decimal (n : Nat) : Str := Nat.toDigits 10 n

structure FreshIndexStaging where
  dir : Path
  sqlitePath : Path
  tantivyDir : Path
  vectorPath : Path
  deriving DecidableEq, Repr

namespace FreshIndexStaging

/-- The staging paths of a process at a time in nanoseconds. -/
def create (workspace : Workspace) (pid unique : Nat) : FreshIndexStaging :=
  let dir := workspace.indexDir ++ [stagingDirPrefix ++ decimal pid ++ '-' :: decimal unique]
  { dir := dir
    sqlitePath := dir ++ ["metadata.sqlite3".toList]
    tantivyDir := dir ++ ["tantivy".toList]
    vectorPath := dir ++ ["vectors.usearch".toList] }

/-- `FreshIndexStaging::workspace`. -/
def workspace (staging : FreshIndexStaging) : Workspace := ⟨staging.dir⟩

def createOverlay (workspace : Workspace) (pid unique : Nat) : FreshIndexStaging :=
  let staging := create workspace pid unique
  let stagedWorkspace := staging.workspace
  { staging with
    sqlitePath := stagedWorkspace.overlaySqlitePath
    tantivyDir := stagedWorkspace.overlayTantivyDir
    vectorPath := stagedWorkspace.overlayVectorPath }

end FreshIndexStaging

/-- `anyhow::ensure!`. -/
def ensure (condition : Bool) (error : StagingError) : Fs Unit :=
  if condition then pure () else throw error

/-- `remove_path_if_exists`. -/
def removePathIfExists (path : Path) : Fs Unit := do
  if ← isDir path then removeDirAll faults path
  else if ← pathExists path then removeFile faults path

/-- The loop of `restore_main_store_backups`, over the backups in reverse. -/
def restoreBackups : List (Path × Path) → Fs Unit
  | [] => pure ()
  | backup :: rest => do
    withContext (.restore backup.1 backup.2) (rename faults backup.2 backup.1)
    restoreBackups rest

def restoreMainStoreBackups (backups : List (Path × Path)) : Fs Unit :=
  restoreBackups faults backups.reverse

/-- The loop of `rollback_main_store`, over the promoted paths in reverse. -/
def removePromoted : List Path → Fs Unit
  | [] => pure ()
  | path :: rest => do
    withContext (.removePartial path) (removePathIfExists faults path)
    removePromoted rest

def rollbackMainStore (promoted : List Path) (backups : List (Path × Path)) : Fs Unit := do
  removePromoted faults promoted.reverse
  restoreMainStoreBackups faults backups

/-- How `promote_artifacts` ends after a failure: the result of the rollback decides
    whether the backups stay. -/
def abandon {α : Type} (backupDir : Path) (rollback : Fs Unit) (error : StagingError)
    (retained : StagingError → StagingError) : Fs α := do
  match ← attempt rollback with
  | .error rollbackError =>
    ignore (writeFile faults (backupDir ++ [retainedBackupMarker]) [])
    throw (retained rollbackError)
  | .ok () =>
    ignore (removeDirAll faults backupDir)
    throw error

/-- The first loop of `promote_artifacts`: every live artifact that exists moves to the
    backup directory, under its index. It returns the pairs of live and backup path. -/
def preserveArtifacts (backupDir : Path) :
    List (Path × Nat) → List (Path × Path) → Fs (List (Path × Path))
  | [], backups => pure backups
  | (livePath, index) :: rest, backups => do
    if !(← pathExists livePath) then
      preserveArtifacts backupDir rest backups
    else
      let backupPath := backupDir ++ [decimal index]
      match ← attempt (rename faults livePath backupPath) with
      | .error error =>
        abandon faults backupDir (restoreMainStoreBackups faults backups)
          (.preserve livePath error) (.preserveRollback livePath error · backupDir)
      | .ok () => preserveArtifacts backupDir rest (backups ++ [(livePath, backupPath)])

/-- The second loop of `promote_artifacts`: every staged path moves to its live path. -/
def promoteStaged (backupDir : Path) (backups : List (Path × Path)) :
    List (Path × Path) → List Path → Fs Unit
  | [], _ => pure ()
  | (stagedPath, livePath) :: rest, promoted => do
    match ← attempt (rename faults stagedPath livePath) with
    | .error error =>
      abandon faults backupDir (rollbackMainStore faults promoted backups)
        (.promote stagedPath livePath error)
        (.promoteRollback stagedPath livePath error · backupDir)
    | .ok () => promoteStaged backupDir backups rest (promoted ++ [livePath])

/-- `Drop for FreshIndexStaging`: a staging that was not promoted is removed. -/
def dropUnlessPromoted (staging : FreshIndexStaging) (x : Fs Unit) : Fs Unit := do
  match ← attempt x with
  | .ok () => pure ()
  | .error error =>
    ignore (removeDirAll faults staging.dir)
    throw error

namespace FreshIndexStaging

variable (staging : FreshIndexStaging) (workspace : Workspace) (incarnation backupId : Str)

/-- Where `promote_artifacts` writes the new identity. -/
def stagedIncarnation : Path := staging.dir ++ ["index_incarnation".toList]

def backupDir : Path := workspace.indexDir ++ [backupDirPrefix ++ backupId]

/-- `promote_artifacts`, up to the `Drop` of the staging. The two UUIDs that it draws
    are arguments. -/
def promoteArtifacts (artifacts : List Path) (promotions : List (Path × Path)) : Fs Unit := do
  ensure (← isFile staging.sqlitePath) (.storeMissing "SQLite".toList)
  ensure (← isDir staging.tantivyDir) (.storeMissing "Tantivy".toList)
  ensure (← isFile staging.vectorPath) (.storeMissing "vector".toList)
  writeFile faults (stagedIncarnation staging) (Str.bytes incarnation)
  let promotions := (stagedIncarnation staging, workspace.indexIncarnationPath) :: promotions
  createDir faults (backupDir workspace backupId)
  let backups ← preserveArtifacts faults (backupDir workspace backupId) artifacts.zipIdx []
  promoteStaged faults (backupDir workspace backupId) backups promotions []
  ignore (removeDirAll faults (backupDir workspace backupId))
  ignore (removeDirAll faults staging.dir)

/-- The moves of `promote`, without the identity. -/
def mainPromotions : List (Path × Path) :=
  [ (staging.sqlitePath, workspace.sqlitePath),
    (staging.tantivyDir, workspace.tantivyDir),
    (staging.vectorPath, workspace.vectorPath) ]

def promote : Fs Unit :=
  dropUnlessPromoted faults staging
    (promoteArtifacts faults staging workspace incarnation backupId
      (mainStoreArtifacts workspace) (mainPromotions staging workspace))

/-- The moves of `promote_overlay`, without the identity. `verified` says whether the
    staged snapshot has its verification marker. -/
def overlayPromotions (verified : Bool) : List (Path × Path) :=
  let staged := staging.workspace
  [ (staging.sqlitePath, workspace.overlaySqlitePath),
    (staging.tantivyDir, workspace.overlayTantivyDir),
    (staging.vectorPath, workspace.overlayVectorPath),
    (staged.baseRefPath, workspace.baseRefPath),
    (staged.merkleSnapshotPath, workspace.merkleSnapshotPath),
    (staged.indexFormatVersionPath, workspace.indexFormatVersionPath) ] ++
  (if verified then
    [(withExtension staged.merkleSnapshotPath "verified".toList,
      withExtension workspace.merkleSnapshotPath "verified".toList)]
  else []) ++
  -- completion is published last
  [(staged.metadataPath, workspace.metadataPath)]

/-- The check of `promote_overlay` that every staged path exists. -/
def ensureStaged : List (Path × Path) → Fs Unit
  | [] => pure ()
  | promotion :: rest => do
    ensure (← pathExists promotion.1) (.artifactMissing promotion.1)
    ensureStaged rest

def promoteOverlay : Fs Unit :=
  dropUnlessPromoted faults staging do
    let verified ← isFile (withExtension staging.workspace.merkleSnapshotPath "verified".toList)
    let promotions := overlayPromotions staging workspace verified
    ensureStaged promotions
    promoteArtifacts faults staging workspace incarnation backupId
      (overlayStoreArtifacts workspace) promotions

end FreshIndexStaging

end Ivygrep.Native
