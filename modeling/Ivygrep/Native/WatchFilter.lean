import Ivygrep.Native.SourceWalker
import Ivygrep.Native.WatchQueue

/-!
# The watch event filter

`WatchEventFilter` of `daemon.rs`: what an event of the file watcher asks the index update
to look at. The filter keeps one list of ignore rules, from the repository's exclude file
and the root `.gitignore`, and what it read of the nested checkouts.
-/

namespace Ivygrep.Native

inductive ModifyKind where
  | any
  | data
  | metadata
  | name
  | other
  deriving DecidableEq, Repr

/-- `notify::EventKind`. -/
inductive EventKind where
  | any
  | access
  | create
  | modify (kind : ModifyKind)
  | remove
  | other
  deriving DecidableEq, Repr

structure NotifyEvent where
  kind : EventKind
  paths : List PathBuf

/-- What `index_has_files_below` asks of the workspace: `filePaths` is `none` when the
    database cannot be read. -/
structure IndexedFiles where
  hasOverlay : Bool
  hasBaseRef : Bool
  lockShared : Bool
  filePaths : Option (List Str)

structure WatchEventFilter where
  root : List Str
  appHome : Option PathBuf
  skipGitignore : Bool
  gitExcludePath : Option (List Str)
  rootGitignore : Option (List IgnoreRule)
  nestedCheckouts : NestedCheckouts
  checkoutMarkers : Finset (List Str)

structure CheckoutMarkerChange where
  appearedOverIndexedFiles : Bool
  disappeared : List (List Str)
  deriving DecidableEq

def maxTrackedCheckoutMarkers : Nat := 4096

/-! ## Paths -/

/-- `canonicalize_existing_prefix`, on the reversed components. -/
def canonicalizeFromLast (fs : FileSystem) (isAbsolute : Bool) (cursor missing : List Str) :
    Option (List Str) :=
  match fs.canonicalize ⟨isAbsolute, cursor.reverse⟩ with
  | some normalized => some (normalized ++ missing)
  | none =>
    match cursor with
    | [] => none
    | name :: parent =>
      if name = "..".toList then none
      else canonicalizeFromLast fs isAbsolute parent (name :: missing)

@[inherit_doc canonicalizeFromLast]
def canonicalizeExistingPrefix (fs : FileSystem) (path : PathBuf) : Option (List Str) :=
  canonicalizeFromLast fs path.isAbsolute path.components.reverse []

def watchPathsMatch (fs : FileSystem) (left right : PathBuf) : Bool :=
  left = right ||
    (canonicalizeExistingPrefix fs left).any fun normalized =>
      canonicalizeExistingPrefix fs right = some normalized

def isAlwaysIgnoredWatchPath (rel : List Str) : Bool :=
  rel.any fun part => part = ".git".toList || part = ".ivygrep".toList

def buildRootGitignore (fs : FileSystem) (root : List Str) (gitExcludePath : Option (List Str)) :
    Option (List IgnoreRule) :=
  some (gitExcludePath.elim [] fs.rulesIn ++ fs.rulesIn (root ++ [".gitignore".toList]))

namespace IndexedFiles

/-- The byte order in which SQLite compares the text. -/
def bytesBefore (left right : Str) : Bool := (Str.bytes left).lex (Str.bytes right)

/-- The condition of the query, with `first = "dir/"` and `past = "dir0"`. -/
def isBelow (relDir : List Str) (filePath : Str) : Bool :=
  let first := Str.join ['/'] relDir ++ ['/']
  let past := Str.join ['/'] relDir ++ ['0']
  !bytesBefore filePath first && bytesBefore filePath past

/-- `index_has_files_below`: what keeps the lookup from answering counts as yes. -/
def hasFilesBelow (index : IndexedFiles) (relDir : List Str) : Bool :=
  if index.hasOverlay || index.hasBaseRef then true
  else if !index.lockShared then true
  else index.filePaths.elim true fun filePaths => filePaths.any (isBelow relDir)

end IndexedFiles

namespace WatchEventFilter

variable (filter : WatchEventFilter) (fs : FileSystem)

/-- `refresh`, where `skipGitignore` is the flag in the metadata, if it can be read. -/
def refresh (skipGitignore : Option Bool) : WatchEventFilter :=
  let skip := skipGitignore.getD false
  let gitExcludePath := fs.gitExcludePath filter.root
  { filter with
    nestedCheckouts := .new fs filter.root
    skipGitignore := skip
    gitExcludePath := gitExcludePath
    rootGitignore := if skip then none else buildRootGitignore fs filter.root gitExcludePath }

def new (root : List Str) (appHome : Option PathBuf) (skipGitignore : Option Bool) :
    WatchEventFilter :=
  refresh ⟨root, appHome, false, none, none, .default, ∅⟩ fs skipGitignore

/-- The normalized path, and what it is below the root. -/
def normalizeWatchPath (path : PathBuf) : Option (List Str × List Str) :=
  let absolute := joinPath filter.root path
  if filter.root.isPrefixOf absolute then some (absolute, absolute.drop filter.root.length)
  else
    (canonicalizeExistingPrefix fs ⟨true, absolute⟩).bind fun normalized =>
      if filter.root.isPrefixOf normalized then
        some (normalized, normalized.drop filter.root.length)
      else none

def isIgnoreConfigurationPath (path : PathBuf) : Bool :=
  (filter.gitExcludePath.any fun exclude =>
      watchPathsMatch fs path ⟨true, exclude⟩ ||
        (parentOf exclude).any fun parent => watchPathsMatch fs path ⟨true, parent⟩) ||
    (filter.normalizeWatchPath fs path).any fun found =>
      (fileNameOf found.2).any (fun name => name = ".gitignore".toList || name = ".ignore".toList) ||
        -- The root `.gitmodules` decides which nested checkouts stay.
        found.2 = [".gitmodules".toList]

/-- Whether the root rules ignore `rel` or a directory above it. -/
def ignoredByRoot (rel : List Str) (isDir : Bool) : Bool :=
  !filter.skipGitignore && filter.rootGitignore.any fun rules =>
    matchedPathOrAnyParents rules rel isDir = .ignore

def pathShouldReindex (path : PathBuf) : Bool :=
  match filter.normalizeWatchPath fs path with
  | none => false
  | some found =>
    if found.2.isEmpty || isAlwaysIgnoredWatchPath found.2 ||
        isIvygrepOwnedPath fs filter.appHome filter.root found.1 ||
        filter.nestedCheckouts.contains fs filter.root found.2 then false
    else !filter.ignoredByRoot found.2 (fs.isDir found.1)

def pathsToReindex (event : NotifyEvent) : List (List Str) :=
  (event.paths.filter (filter.pathShouldReindex fs)).filterMap fun path =>
    (filter.normalizeWatchPath fs path).map Prod.snd

/-! ## Checkout markers -/

/-- A `.git` entry with the directory below the root that it is in, unless the entry says
    nothing about this index. -/
def markerOf (path : PathBuf) : Option (List Str × List Str) :=
  if fileNameOf path.components ≠ some ".git".toList then none
  else
    (filter.normalizeWatchPath fs path).bind fun found =>
      (parentOf found.1).bind fun dir => (parentOf found.2).bind fun relDir =>
        if relDir.isEmpty || isAlwaysIgnoredWatchPath relDir ||
            isIvygrepOwnedPath fs filter.appHome filter.root dir ||
            ((parentOf dir).isSome &&
              filter.nestedCheckouts.contains fs filter.root relDir.dropLast) ||
            filter.ignoredByRoot relDir true then none
        else some (found.1, relDir)

/-- Only an entry that appears counts. -/
def appears (kind : EventKind) : Bool :=
  match kind with
  | .create | .modify .name | .any => true
  | _ => false

/-- One round of the loop over the paths, from the tracked markers and the change so far. -/
def checkMarker (index : IndexedFiles) (kind : EventKind)
    (state : Finset (List Str) × CheckoutMarkerChange) (path : PathBuf) :
    Finset (List Str) × CheckoutMarkerChange :=
  match filter.markerOf fs path with
  | none => state
  | some (marker, relDir) =>
    if fs.symlinkMetadata marker = none then
      (state.1.erase relDir,
        { state.2 with disappeared := state.2.disappeared ++ [relDir] })
    else
      let markers := if state.1.card ≥ maxTrackedCheckoutMarkers then ∅ else state.1
      (insert relDir markers,
        if relDir ∉ markers ∧ appears kind ∧ index.hasFilesBelow relDir then
          { state.2 with appearedOverIndexedFiles := true }
        else state.2)

def checkoutMarkerChange (index : IndexedFiles) (event : NotifyEvent) :
    Finset (List Str) × CheckoutMarkerChange :=
  event.paths.foldl (filter.checkMarker fs index event.kind) (filter.checkoutMarkers, ⟨false, []⟩)

/-! ## Events -/

/-- The ignore files of nested checkouts and of the owned storage configure those. -/
def reconfigures (path : PathBuf) : Bool :=
  !((filter.normalizeWatchPath fs path).any fun found =>
      isIvygrepOwnedPath fs filter.appHome filter.root found.1 ||
        filter.nestedCheckouts.contains fs filter.root found.2) &&
    filter.isIgnoreConfigurationPath fs path

def changeForEvent (skipGitignore : Option Bool) (index : IndexedFiles) (event : NotifyEvent) :
    WatchEventFilter × WatchChange (List Str) :=
  if event.kind = .access then (filter, .none)
  else if event.paths.any (filter.reconfigures fs) then
    (filter.refresh fs skipGitignore, .fullReconciliation)
  else
    let markers := filter.checkoutMarkerChange fs index event
    let tracking := { filter with checkoutMarkers := markers.1 }
    if markers.2.appearedOverIndexedFiles then (tracking, .fullReconciliation)
    else
      let paths := (tracking.pathsToReindex fs event ++ markers.2.disappeared).toFinset
      (tracking, if paths = ∅ then .none else .paths paths)

end WatchEventFilter

end Ivygrep.Native
