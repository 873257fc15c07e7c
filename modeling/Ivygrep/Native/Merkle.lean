import Ivygrep.Native.Str

/-!
# Workspace snapshots

`MerkleSnapshot` of `merkle.rs`: the full build over a walk of the workspace, the
diff of two snapshots, and the targeted refresh of a known set of paths. The hash
function `xxh3_128` and the ignore rules of the walker are parameters.
-/

namespace Ivygrep.Native

/-- `BTreeMap`. -/
abbrev BTreeMap (α : Type) [Ord α] (β : Type) := Std.ExtTreeMap α β compare

/-- `str::ends_with` for a string pattern. -/
def Str.endsWith (s pattern : Str) : Bool := pattern.isSuffixOf s

/-! ## Hashes -/

/-- `xxhash_rust::xxh3::xxh3_128`. -/
abbrev Xxh3 := List UInt8 → BitVec 128

/-- `to_le_bytes` of an integer of `width` bytes. -/
def leBytes (width n : Nat) : List UInt8 :=
  (List.range width).map fun i => UInt8.ofNat (n / 256 ^ i % 256)

/-- `hex::encode`. -/
def hexEncode (bytes : List UInt8) : Str :=
  bytes.flatMap fun byte => [Nat.digitChar (byte.toNat / 16), Nat.digitChar (byte.toNat % 16)]

def hexDigest (xxh3 : Xxh3) (data : List UInt8) : Str :=
  hexEncode (leBytes 16 (xxh3 data).toNat)

/-- The `fs::Metadata` of a regular file: size, modification time since the epoch if
    there is one, and the change time. -/
structure Metadata where
  len : Nat
  modifiedNanos : Option Nat
  ctime : Int
  ctimeNsec : Int
  deriving DecidableEq, Repr

/-- `metadata_file_hash`. -/
def metadataFileHash (xxh3 : Xxh3) (metadata : Metadata) : Str :=
  hexDigest xxh3 (leBytes 8 metadata.len ++
    (match metadata.modifiedNanos with
      | some nanos => leBytes 16 nanos
      | none => []) ++
    leBytes 8 (metadata.ctime % 2 ^ 64).toNat ++ leBytes 8 (metadata.ctimeNsec % 2 ^ 64).toNat)

/-- The bytes that `root_hash` feeds to the hasher. -/
def rootHashInput (files : BTreeMap Str Str) : List UInt8 :=
  files.toList.flatMap fun (path, hash) => Str.bytes path ++ Str.bytes hash

/-- `root_hash`. -/
def rootHash (xxh3 : Xxh3) (files : BTreeMap Str Str) : Str :=
  hexDigest xxh3 (rootHashInput files)

/-! ## The workspace tree -/

/-- One component of a path that is valid UTF-8. -/
structure Utf8Name where
  text : Str
  nonempty : text ≠ []
  noSeparator : '/' ∉ text
  deriving DecidableEq, Repr

/-- One component of a path: an `OsStr`. -/
inductive FileName where
  | utf8 (name : Utf8Name)
  | other (bytes : List UInt8)
  deriving DecidableEq, Repr

/-- A path relative to the workspace root, as its components. -/
abbrev RelPath := List FileName

/-- `Path::to_str`, which is also `index_path_string` of a UTF-8 path. -/
def RelPath.toStr (path : RelPath) : Option Str :=
  (path.mapM fun (component : FileName) =>
    match component with
    | .utf8 name => some name.text
    | .other _ => none).map (Str.join ['/'])

structure SourceFile where
  metadata : Metadata
  content : List UInt8
  deriving DecidableEq, Repr

/-- What a path below the root is. Symlinks are not followed. -/
inductive Entry where
  | file (file : SourceFile)
  | dir
  | symlink
  | special
  deriving DecidableEq, Repr

inductive SnapshotError where
  | rootUnreadable
  | rootNotDirectory
  | metadataUnreadable (path : RelPath)
  deriving DecidableEq, Repr

/-- A workspace directory. `isDir` is what `fs::metadata` says of the root, and
    `unreadable` the paths whose metadata cannot be read although they may exist. -/
structure Tree where
  isDir : Option Bool
  entries : List (RelPath × Entry)
  unreadable : RelPath → Bool
  nodup : (entries.map Prod.fst).Nodup
  /-- Each entry lies in the root or in a directory. -/
  parent : ∀ entry ∈ entries, ∃ dir name, entry.1 = dir ++ [name] ∧
    (dir = [] ∨ (dir, Entry.dir) ∈ entries)

/-- The entry at a path. -/
def Tree.entryAt (tree : Tree) (path : RelPath) : Option Entry := tree.entries.lookup path

/-- `validate_workspace_root`. -/
def validateWorkspaceRoot (tree : Tree) : Except SnapshotError Unit :=
  match tree.isDir with
  | none => .error .rootUnreadable
  | some false => .error .rootNotDirectory
  | some true => .ok ()

/-! ## Snapshots -/

structure MerkleSnapshot where
  rootHash : Str
  files : BTreeMap Str Str
  deriving DecidableEq

structure MerkleDiff where
  addedOrModified : List (Str × Bool)
  deleted : List Str
  deriving DecidableEq, Repr

def maxIndexableFileBytes : Nat := 16 * 1024 * 1024

/-- The entries that `source_walker` lets through: ignore rules, owned storage and nested
    checkouts, for a path that is a directory or not. -/
abbrev Walker := RelPath → Bool → Bool

/-- The walk reaches the path: it and every directory above it are let through. -/
def isListed (walker : Walker) (isDir : Bool) (path : RelPath) : Bool :=
  (path.inits.filter fun dir => dir != [] && dir != path).all (walker · true) &&
    walker path isDir

/-- The walk reads the metadata of this entry. -/
def isWalked (walker : Walker) : RelPath × Entry → Bool
  | (path, .dir) => isListed walker true path
  | (path, .file _) => isListed walker false path && path.toStr.isSome
  | _ => false

/-- The key and the file of an entry that a snapshot records. -/
def snapshotFile (walker : Walker) : RelPath × Entry → Option (Str × SourceFile)
  | (path, .file file) =>
    if isListed walker false path && file.metadata.len ≤ maxIndexableFileBytes then
      path.toStr.map fun key => (key, file)
    else none
  | _ => none

/-- The ignore suffix of a file hash. -/
def flaggedHash (hash : Str) (isIgnored : Bool) : Str :=
  hash ++ (if isIgnored then "-1" else "-0").toList

namespace MerkleSnapshot

/-- `MerkleSnapshot::build_inner`. `walker` is the walk with or without ignore rules, and
    `unignored` tells the keys that the walk with ignore rules lists. -/
def buildInner (xxh3 : Xxh3) (fileHash : Str → SourceFile → Str) (walker : Walker)
    (unignored : Str → Bool) (tree : Tree) : Except SnapshotError MerkleSnapshot := do
  validateWorkspaceRoot tree
  match tree.entries.find? fun entry => isWalked walker entry && tree.unreadable entry.1 with
  | some entry => .error (.metadataUnreadable entry.1)
  | none =>
    let pairs := (tree.entries.filterMap (snapshotFile walker)).map fun (key, file) =>
      (key, flaggedHash (fileHash key file) (!unignored key))
    let files := Std.ExtTreeMap.ofList pairs compare
    .ok { rootHash := Native.rootHash xxh3 files, files }

/-- `MerkleSnapshot::build(root, false)`: a metadata build under the ignore rules. -/
def build (xxh3 : Xxh3) (walker : Walker) (tree : Tree) : Except SnapshotError MerkleSnapshot :=
  buildInner xxh3 (fun _ file => metadataFileHash xxh3 file.metadata) walker (fun _ => true) tree

/-- The merge loop of `diff` over the two sorted file lists. -/
def diffLists : List (Str × Str) → List (Str × Str) → MerkleDiff
  | [], new => ⟨new.map fun (path, hash) => (path, Str.endsWith hash "-1".toList), []⟩
  | old, [] => ⟨[], old.map Prod.fst⟩
  | (oldPath, oldHash) :: old, (newPath, newHash) :: new =>
    match compare oldPath newPath with
    | .lt =>
      let rest := diffLists old ((newPath, newHash) :: new)
      { rest with deleted := oldPath :: rest.deleted }
    | .eq =>
      let rest := diffLists old new
      if oldHash ≠ newHash then
        { rest with
          addedOrModified :=
            (newPath, Str.endsWith newHash "-1".toList) :: rest.addedOrModified }
      else rest
    | .gt =>
      let rest := diffLists ((oldPath, oldHash) :: old) new
      { rest with
        addedOrModified := (newPath, Str.endsWith newHash "-1".toList) :: rest.addedOrModified }
termination_by old new => old.length + new.length

/-- `MerkleSnapshot::diff`. -/
def diff (older newer : MerkleSnapshot) : MerkleDiff :=
  if older.rootHash = newer.rootHash then ⟨[], []⟩
  else diffLists older.files.toList newer.files.toList

/-! ## Targeted refresh -/

/-- The loop over the components of one path. The outer `none` is the fallback to a full
    scan, the inner one a missing path. -/
def statComponents (tree : Tree) (path : RelPath) (metadata : Option Entry) :
    RelPath → Except SnapshotError (Option (Option Entry))
  | [] => .ok (some metadata)
  | component :: components =>
    let path := path ++ [component]
    if tree.unreadable path then .error (.metadataUnreadable path)
    else
      match tree.entryAt path with
      | none => .ok (some none)
      | some .symlink => .ok none
      | some current =>
        if components ≠ [] ∧ current ≠ .dir then .ok none
        else statComponents tree path (some current) components

/-- The new hash of a path, `none` for a path that no snapshot records. The outer `none`
    is the fallback for a directory. -/
def nextHash (xxh3 : Xxh3) (files : BTreeMap Str Str) (key : Str) :
    Option Entry → Option (Option Str)
  | some (.file file) =>
    if file.metadata.len ≤ maxIndexableFileBytes then
      let isIgnored := files[key]?.any (Str.endsWith · "-1".toList)
      some (some (flaggedHash (metadataFileHash xxh3 file.metadata) isIgnored))
    else some none
  | some .dir => none
  | _ => some none

/-- The snapshot has a key in the directory of this name. -/
def hasKeyBelow (files : BTreeMap Str Str) (key : Str) : Bool :=
  let dirPrefix := key ++ ['/']
  (files.toList.find? fun (existing, _) => (compare dirPrefix existing).isLE).any
    fun (existing, _) => Str.startsWith existing dirPrefix

abbrev Updates := BTreeMap Str (Option Str)

/-- One changed path: adds its update; `none` is the fallback to a full scan. -/
def refreshPath (xxh3 : Xxh3) (files : BTreeMap Str Str) (tree : Tree) (updates : Updates)
    (relPath : RelPath) : Except SnapshotError (Option Updates) :=
  match relPath.toStr with
  | none => .ok (some updates)
  | some key =>
    let name := relPath.getLast?.bind fun name => RelPath.toStr [name]
    if relPath = [] ∨ name = some ".gitignore".toList ∨ name = some ".ignore".toList then
      .ok none
    else
      (statComponents tree [] none relPath).map fun metadata =>
        (metadata.bind (nextHash xxh3 files key)).bind fun hash =>
          match hash with
          | some hash =>
            -- New files must pass through the full ignore-aware walker.
            if key ∈ files then some (updates.insert key (some hash)) else none
          | none => if hasKeyBelow files key then none else some (updates.insert key none)

/-- The loop over the changed paths. -/
def refreshUpdates (xxh3 : Xxh3) (files : BTreeMap Str Str) (tree : Tree) (updates : Updates) :
    List RelPath → Except SnapshotError (Option Updates)
  | [] => .ok (some updates)
  | relPath :: relPaths => do
    match ← refreshPath xxh3 files tree updates relPath with
    | none => .ok none
    | some updates => refreshUpdates xxh3 files tree updates relPaths

/-- One update: changes the files and records the change. -/
def applyUpdate (state : BTreeMap Str Str × MerkleDiff) (update : Str × Option Str) :
    BTreeMap Str Str × MerkleDiff :=
  let (files, diff) := state
  match update with
  | (key, some hash) =>
    if files[key]? ≠ some hash then
      (files.insert key hash,
        { diff with addedOrModified :=
            diff.addedOrModified ++ [(key, Str.endsWith hash "-1".toList)] })
    else state
  | (key, none) =>
    if key ∈ files then (files.erase key, { diff with deleted := diff.deleted ++ [key] })
    else state

/-- `MerkleSnapshot::refresh_paths_in_place`: the result and the snapshot afterwards. -/
def refreshPathsInPlace (xxh3 : Xxh3) (snapshot : MerkleSnapshot) (tree : Tree)
    (relPaths : List RelPath) (skipGitignore : Bool) :
    Except SnapshotError (Option MerkleDiff) × MerkleSnapshot :=
  if skipGitignore then (.ok none, snapshot)
  else
    match validateWorkspaceRoot tree with
    | .error error => (.error error, snapshot)
    | .ok () =>
      match refreshUpdates xxh3 snapshot.files tree ∅ relPaths with
      | .error error => (.error error, snapshot)
      | .ok none => (.ok none, snapshot)
      | .ok (some updates) =>
        let (files, diff) := updates.toList.foldl applyUpdate (snapshot.files, ⟨[], []⟩)
        (.ok (some diff),
          { rootHash :=
              if diff.addedOrModified ≠ [] ∨ diff.deleted ≠ [] then Native.rootHash xxh3 files
              else snapshot.rootHash
            files })

end MerkleSnapshot

end Ivygrep.Native
