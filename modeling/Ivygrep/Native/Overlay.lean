import Ivygrep.Native.Merkle
import Ivygrep.Native.TextSniff

/-!
# Worktree overlays

The overlay of a worktree over its base index, from `indexer.rs`: the diff that creates
it, the incremental update, and the store that both write. A path is served from the
base unless it has overlay chunks or a tombstone.
-/

namespace Ivygrep.Native

/-! ## Indexable content -/

/-- The loop of `normalized_indexable_content`: `\r\n` becomes `\n`. -/
def crlfToLf : List UInt8 → List UInt8
  | [] => []
  | byte :: rest =>
    if byte = 0x0d ∧ rest.head? = some 0x0a then crlfToLf rest
    else byte :: crlfToLf rest

/-- `normalized_indexable_content`. -/
def normalizedIndexableContent (bytes : List UInt8) : List UInt8 :=
  if isIndexableFile bytes then crlfToLf bytes else bytes

/-- `files_have_same_contents`, of two files that may be missing. -/
def filesHaveSameContents : Option (List UInt8) → Option (List UInt8) → Bool
  | some left, some right =>
    left == right || normalizedIndexableContent left == normalizedIndexableContent right
  | _, _ => false

/-! ## Snapshots of two checkouts -/

/-- `str::strip_suffix`. -/
def Str.stripSuffix (s pattern : Str) : Option Str :=
  if Str.endsWith s pattern then some (s.take (s.length - pattern.length)) else none

/-- A checkout as a run finds it: the tree, what the walker lists in it, which of the keys
    the walk under ignore rules lists, and the file that opening a key finds. Opening
    follows symlinks; at a file of the tree it finds that file. -/
structure Checkout where
  tree : Tree
  walker : Walker
  unignored : Str → Bool
  opened : Str → Option SourceFile
  opened_file : ∀ (path : RelPath) key file, path.toStr = some key →
    tree.entryAt path = some (.file file) → opened key = some file

namespace MerkleSnapshot

/-- `VANISHED_FILE_HASH`. -/
def vanishedFileHash : Str := "vanished".toList

/-- What the content hash of a file is made from. -/
def contentHashInput (key : Str) (file : SourceFile) : List UInt8 :=
  Str.bytes key ++ normalizedIndexableContent file.content

variable (xxh3 : Xxh3)

/-- `MerkleSnapshot::build` of a checkout, with its ignore flags. -/
def buildCheckout (checkout : Checkout) : Except SnapshotError MerkleSnapshot :=
  buildInner xxh3 (fun _ file => metadataFileHash xxh3 file.metadata) checkout.walker
    checkout.unignored checkout.tree

/-- `MerkleSnapshot::build_content_based`. -/
def buildContentBased (checkout : Checkout) : Except SnapshotError MerkleSnapshot :=
  buildInner xxh3 (fun key file => hexDigest xxh3 (contentHashInput key file)) checkout.walker
    checkout.unignored checkout.tree

/-- `path_matches_metadata_snapshot`, of the file that the path leads to. -/
def pathMatchesMetadataSnapshot (file : Option SourceFile) (snapshotHash : Str) : Bool :=
  match (Str.stripSuffix snapshotHash "-0".toList).or
      (Str.stripSuffix snapshotHash "-1".toList) with
  | none => false
  | some expectedHash =>
    match file with
    | none => false
    | some file =>
      decide (file.metadata.len ≤ maxIndexableFileBytes) &&
        metadataFileHash xxh3 file.metadata == expectedHash

/-- The loop of `mark_vanished`. -/
def markVanishedFiles (files : BTreeMap Str Str) : List Str → BTreeMap Str Str
  | [] => files
  | key :: rest =>
    match files[key]? with
    | none => markVanishedFiles files rest
    | some hash =>
      markVanishedFiles (files.insert key
        (flaggedHash vanishedFileHash (Str.endsWith hash "-1".toList))) rest

/-- `mark_vanished`. -/
def markVanished (snapshot : MerkleSnapshot) (keys : List Str) : MerkleSnapshot :=
  let files := markVanishedFiles snapshot.files keys
  { rootHash := Native.rootHash xxh3 files, files }

end MerkleSnapshot

/-! ## Stores -/

/-- The chunk rows of one path, as the content and the ignore flag they were made from. -/
structure Row where
  content : List UInt8
  isIgnored : Bool
  deriving DecidableEq, Repr

/-- The base index, which no overlay run changes. Its rows are of recorded paths. -/
structure BaseIndex where
  snapshot : MerkleSnapshot
  rows : BTreeMap Str Row
  recorded : ∀ key ∈ rows, key ∈ snapshot.files

/-- The overlay store: its chunk rows and the `tombstones` table. -/
structure OverlayStore where
  chunks : BTreeMap Str Row
  tombstones : BTreeMap Str Unit

/-- An overlay with its saved snapshot. -/
structure Overlay where
  store : OverlayStore
  snapshot : MerkleSnapshot

/-- The rows of a path that the overlay and the base serve together. -/
def effectiveRow (base : BaseIndex) (store : OverlayStore) (key : Str) : Option Row :=
  match store.chunks[key]? with
  | some row => some row
  | none => if key ∈ store.tombstones then none else base.rows[key]?

/-- `chunk_backed_paths` with an overlay, as a predicate on the path. -/
def isChunkBacked (base : BaseIndex) (store : OverlayStore) (key : Str) : Bool :=
  (base.rows.contains key && !store.tombstones.contains key) || store.chunks.contains key

/-! ## Diffs -/

/-- `path_exists_in_base`. -/
def pathExistsInBase (base : BaseIndex) (key : Str) : Bool := base.snapshot.files.contains key

section

variable (xxh3 : Xxh3)

/-- The worktree entry `(key, content)` can be served by the base. -/
def isInherited (openedBase : Str → Option SourceFile) (indexedBase liveBase : MerkleSnapshot)
    (key content : Str) : Bool :=
  match indexedBase.files[key]? with
  | none => false
  | some indexed =>
    Str.endsWith indexed "-1".toList == Str.endsWith content "-1".toList &&
      MerkleSnapshot.pathMatchesMetadataSnapshot xxh3 (openedBase key) indexed &&
      liveBase.files[key]? == some content

/-- `initial_overlay_diff`. -/
def initialOverlayDiff (openedBase : Str → Option SourceFile)
    (indexedBase liveBase worktree : MerkleSnapshot) : MerkleDiff where
  addedOrModified := (worktree.files.toList.filter fun entry =>
    !isInherited xxh3 openedBase indexedBase liveBase entry.1 entry.2).map fun entry =>
      (entry.1, Str.endsWith entry.2 "-1".toList)
  deleted := (indexedBase.files.toList.map Prod.fst).filter fun key =>
    !worktree.files.contains key

/-- A changed path that the base can serve again. -/
def returnsToBase (base : BaseIndex) (mainRoot worktree : Checkout) (key : Str)
    (isIgnored : Bool) : Bool :=
  match base.snapshot.files[key]? with
  | none => false
  | some hash =>
    MerkleSnapshot.pathMatchesMetadataSnapshot xxh3 (mainRoot.opened key) hash &&
      Str.endsWith hash "-1".toList == isIgnored &&
      filesHaveSameContents ((worktree.opened key).map SourceFile.content)
        ((mainRoot.opened key).map SourceFile.content)

/-- The part of the incremental update that keeps the diff relative to the base: the diff
    and the paths to clear. -/
def relativeToBase (base : BaseIndex) (mainRoot : Option Checkout) (worktree : Checkout)
    (diff : MerkleDiff) : MerkleDiff × List Str :=
  match mainRoot with
  | none => (diff, [])
  | some mainRoot =>
    let returns := fun (entry : Str × Bool) =>
      returnsToBase xxh3 base mainRoot worktree entry.1 entry.2
    ({ addedOrModified := diff.addedOrModified.filter fun entry => !returns entry
       deleted := diff.deleted.filter (pathExistsInBase base) },
      (diff.addedOrModified.filter returns).map Prod.fst ++
        diff.deleted.filter fun key => !pathExistsInBase base key)

/-- The last loop of `add_included_file_dependents` and of `add_file_edge_dependents`:
    owners that are files of the current snapshot join the changed files. -/
def pushOwners (current : MerkleSnapshot) (worktree : Checkout) (skipped : List Str)
    (diff : MerkleDiff) (owners : List Str) : MerkleDiff :=
  { diff with
    addedOrModified := diff.addedOrModified ++ owners.filterMap fun owner =>
      if skipped.contains owner then none
      else current.files[owner]?.bind fun hash =>
        if (worktree.opened owner).isSome then some (owner, Str.endsWith hash "-1".toList)
        else none }

/-- The paths that a run changes, as far as the diff says. -/
def changedPaths (diff : MerkleDiff) : List Str :=
  diff.addedOrModified.map Prod.fst ++ diff.deleted

/-- The owners that the dependency tables give for a diff: for included files and for
    file edges. What the tables hold is left open. -/
structure Owners where
  included : List Str
  edges : List Str

/-- `add_included_file_dependents` and then `add_file_edge_dependents`. -/
def addDependents (owners : Owners) (current : MerkleSnapshot) (worktree : Checkout)
    (clear : List Str) (diff : MerkleDiff) : MerkleDiff :=
  let diff := pushOwners current worktree (changedPaths diff ++ clear) diff owners.included
  pushOwners current worktree (changedPaths diff) diff owners.edges

/-! ## Writing the store -/

/-- The rows that the indexer makes of a file. `chunked` tells the texts that the chunker
    cuts at least one chunk from. -/
def indexFile (chunked : Str → List UInt8 → Bool) (key : Str) (content : List UInt8)
    (isIgnored : Bool) : Option Row :=
  if isIndexableFile content && chunked key content then some ⟨content, isIgnored⟩ else none

/-- The loop over the paths to clear. -/
def clearPaths (store : OverlayStore) : List Str → OverlayStore
  | [] => store
  | key :: rest =>
    clearPaths ⟨store.chunks.erase key, store.tombstones.erase key⟩ rest

/-- The loop over the deleted paths. -/
def deletePaths (base : BaseIndex) (store : OverlayStore) : List Str → OverlayStore
  | [] => store
  | key :: rest =>
    deletePaths base
      ⟨store.chunks.erase key,
        if pathExistsInBase base key then store.tombstones.insert key ()
        else store.tombstones.erase key⟩ rest

/-- The loop that hides the base rows of the changed paths. -/
def hidePaths (base : BaseIndex) (store : OverlayStore) : List (Str × Bool) → OverlayStore
  | [] => store
  | entry :: rest =>
    hidePaths base
      (if pathExistsInBase base entry.1 then
        { store with tombstones := store.tombstones.insert entry.1 () }
      else store) rest

/-- The chunk rows of a path become these rows. -/
def replaceRow (chunks : BTreeMap Str Row) (key : Str) (row : Option Row) :
    BTreeMap Str Row :=
  match row with
  | some row => chunks.insert key row
  | none => chunks.erase key

/-- The loop over the indexed files, with the paths that vanished before they were read. -/
def ingestFiles (chunked : Str → List UInt8 → Bool) (read : Str → Option SourceFile)
    (chunks : BTreeMap Str Row) (vanished : List Str) :
    List (Str × Bool) → BTreeMap Str Row × List Str
  | [] => (chunks, vanished)
  | (key, isIgnored) :: rest =>
    match read key with
    | none => ingestFiles chunked read (chunks.erase key) (vanished ++ [key]) rest
    | some file =>
      ingestFiles chunked read
        (replaceRow chunks key (indexFile chunked key file.content isIgnored)) vanished rest

/-- The part of `index_workspace_inner` that writes the overlay, and the snapshot that it
    saves. -/
def persistOverlay (chunked : Str → List UInt8 → Bool) (base : BaseIndex)
    (read : Str → Option SourceFile) (store : OverlayStore) (clear : List Str)
    (diff : MerkleDiff) (pending : MerkleSnapshot) : Overlay :=
  let store := hidePaths base (deletePaths base (clearPaths store clear) diff.deleted)
    diff.addedOrModified
  let ingested := ingestFiles chunked read store.chunks [] diff.addedOrModified
  { store := { store with chunks := ingested.1 }
    snapshot :=
      if ingested.2.isEmpty then pending else pending.markVanished xxh3 ingested.2 }

/-! ## Runs -/

inductive OverlayError where
  | snapshot (error : SnapshotError)
  /-- "worktree changed while capturing overlay snapshots" -/
  | worktreeChanged
  deriving DecidableEq, Repr

def liftSnapshot {α : Type} (result : Except SnapshotError α) : Except OverlayError α :=
  match result with
  | .ok a => .ok a
  | .error error => .error (.snapshot error)

/-- `validate_overlay_snapshot`. -/
def validateOverlaySnapshot (worktree : Checkout) (metadata content : MerkleSnapshot) : Bool :=
  metadata.files.size == content.files.size &&
    content.files.toList.all fun entry =>
      match metadata.files[entry.1]? with
      | none => false
      | some stamp =>
        Str.endsWith stamp "-1".toList == Str.endsWith entry.2 "-1".toList &&
          MerkleSnapshot.pathMatchesMetadataSnapshot xxh3 (worktree.opened entry.1) stamp

/-- What reading finds, when some files vanish after the scan. -/
def readAfterScan (worktree : Checkout) (vanished : Str → Bool) (key : Str) :
    Option SourceFile :=
  if vanished key then none else worktree.opened key

/-- The run that creates an overlay. -/
def createOverlay (chunked : Str → List UInt8 → Bool) (base : BaseIndex)
    (mainRoot worktree : Checkout) (owners : Owners) (vanished : Str → Bool) :
    Except OverlayError Overlay := do
  let old ← liftSnapshot (MerkleSnapshot.buildContentBased xxh3 mainRoot)
  let mtimeSnapshot ← liftSnapshot (MerkleSnapshot.buildCheckout xxh3 worktree)
  let new ← liftSnapshot (MerkleSnapshot.buildContentBased xxh3 worktree)
  if validateOverlaySnapshot xxh3 worktree mtimeSnapshot new then
    let diff := initialOverlayDiff xxh3 mainRoot.opened base.snapshot old new
    let diff := addDependents owners mtimeSnapshot worktree [] diff
    .ok (persistOverlay xxh3 chunked base (readAfterScan worktree vanished) ⟨∅, ∅⟩ [] diff
      mtimeSnapshot)
  else .error .worktreeChanged

/-- An incremental run over a queryable overlay. -/
def updateOverlay (chunked : Str → List UInt8 → Bool) (base : BaseIndex)
    (mainRoot : Option Checkout) (worktree : Checkout) (owners : Owners)
    (vanished : Str → Bool) (overlay : Overlay) : Except OverlayError Overlay := do
  let new ← liftSnapshot (MerkleSnapshot.buildCheckout xxh3 worktree)
  let (diff, clear) := relativeToBase xxh3 base mainRoot worktree (overlay.snapshot.diff new)
  if diff.addedOrModified.isEmpty && diff.deleted.isEmpty && clear.isEmpty then .ok overlay
  else
    let diff := addDependents owners new worktree clear diff
    .ok (persistOverlay xxh3 chunked base (readAfterScan worktree vanished) overlay.store clear
      diff new)

end

end Ivygrep.Native
