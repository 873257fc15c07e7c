import Ivygrep.Native.Str

/-!
# The source walker

`source_walker` of `walker.rs` with `NestedCheckouts` of `workspace.rs`: which entries below
a root a walk yields. The `ignore` crate stands here by what it documents: in one list of
rules the last match decides, a deeper file goes before a shallower one, and every `.ignore`
file goes before every `.gitignore` file.
-/

namespace Ivygrep.Native

/-! ## Paths and files -/

/-- A `Path`: whether it starts at the root of the file system, and its components. -/
structure PathBuf where
  isAbsolute : Bool
  components : List Str
  deriving DecidableEq, Repr

/-- `PathBuf::from`: only a leading `.` of a relative path is a component. -/
def PathBuf.parse (text : Str) : PathBuf :=
  let isNamed := fun part : Str => !part.isEmpty && part ≠ ['.']
  match text.splitOn '/' with
  | [] => ⟨false, []⟩
  | first :: rest =>
    if first.isEmpty && !text.isEmpty then ⟨true, rest.filter isNamed⟩
    else ⟨false, (if first.isEmpty then [] else [first]) ++ rest.filter isNamed⟩

/-- `Path::join` on an absolute path. -/
def joinPath (dir : List Str) (path : PathBuf) : List Str :=
  if path.isAbsolute then path.components
  else dir ++ path.components.filter fun part => part ≠ ['.']

/-- `Path::parent`. -/
def parentOf (path : List Str) : Option (List Str) :=
  if path.isEmpty then none else some path.dropLast

/-- `Path::file_name`. -/
def fileNameOf (path : List Str) : Option Str :=
  path.getLast?.filter fun name => name ≠ "..".toList

inductive FileKind where
  | file
  | directory
  | symlink
  | other
  deriving DecidableEq, Repr

/-- A rule of an ignore file: a glob, relative to the directory of the list it is in. -/
structure IgnoreRule where
  isWhitelist : Bool
  appliesTo : List Str → Bool → Bool

/-- What the file system answers, and what `git rev-parse --git-common-dir` prints. -/
structure FileSystem where
  symlinkMetadata : List Str → Option FileKind
  metadata : List Str → Option FileKind
  readToString : List Str → Option Str
  canonicalize : PathBuf → Option (List Str)
  ignoreRules : List Str → List IgnoreRule
  gitCommonDirOutput : List Str → Option PathBuf
  /-- Nothing is below a file. -/
  symlinkMetadata_below : ∀ (path : List Str) (kind : FileKind) (name : Str),
    symlinkMetadata path = some kind → kind ≠ .directory → kind ≠ .symlink →
      symlinkMetadata (path ++ [name]) = none
  /-- Only a symlink is followed. -/
  metadata_eq : ∀ (path : List Str) (kind : FileKind),
    symlinkMetadata path = some kind → kind ≠ .symlink → metadata path = some kind

namespace FileSystem

variable (fs : FileSystem)

def isFile (path : List Str) : Bool := fs.metadata path = some .file

def isDir (path : List Str) : Bool := fs.metadata path = some .directory

def pathExists (path : List Str) : Bool := (fs.metadata path).isSome

/-! ## Nested checkouts -/

def isGitDir (path : List Str) : Bool :=
  fs.isFile (path ++ ["HEAD".toList]) &&
    (fs.isFile (path ++ ["commondir".toList]) ||
      (fs.isDir (path ++ ["objects".toList]) && fs.isDir (path ++ ["refs".toList])))

def gitDirFromMarker (dir marker : List Str) : Option (List Str) :=
  (fs.readToString marker).bind fun contents =>
    (Str.stripPrefix (Str.trim contents) "gitdir:".toList).map fun raw =>
      joinPath dir (PathBuf.parse (Str.trim raw))

def isGitWorkspaceRoot (path : List Str) : Bool :=
  let marker := path ++ [".git".toList]
  if fs.isDir marker then fs.isGitDir marker
  else if !fs.isFile marker then false
  else (fs.gitDirFromMarker path marker).any fs.isGitDir

def gitCommonDir (root : List Str) : Option (List Str) :=
  let gitDir := root ++ [".git".toList]
  if fs.isDir gitDir && !fs.isFile (gitDir ++ ["commondir".toList]) && fs.isGitDir gitDir then
    some ((fs.canonicalize ⟨true, gitDir⟩).getD gitDir)
  else
    (fs.gitCommonDirOutput root).map fun path =>
      let resolved := joinPath root path
      (fs.canonicalize ⟨true, resolved⟩).getD resolved

/-- The `path = ...` entries of the root `.gitmodules`. -/
def gitmodulesPaths (root : List Str) : List PathBuf :=
  (Str.lines ((fs.readToString (root ++ [".gitmodules".toList])).getD [])).filterMap fun line =>
    (Str.stripPrefix (Str.trim line) "path".toList).bind fun rest =>
      (Str.stripPrefix (Str.trimStart rest) "=".toList).map fun path =>
        PathBuf.parse (Str.trim path)

def comparableGitPath (path : List Str) : List Str := (fs.canonicalize ⟨true, path⟩).getD path

end FileSystem

/-- `submodulePaths` is `none` when the workspace root is not a Git checkout. -/
structure NestedCheckouts where
  submodulePaths : Option (List PathBuf)
  moduleDirs : List (List Str)
  deriving DecidableEq

namespace NestedCheckouts

def default : NestedCheckouts := ⟨none, []⟩

def new (fs : FileSystem) (root : List Str) : NestedCheckouts :=
  if !fs.isGitWorkspaceRoot root then default
  else
    let marker := root ++ [".git".toList]
    let ownGitDir := if fs.isDir marker then some marker else fs.gitDirFromMarker root marker
    let gitDirs := ownGitDir.toList ++ (fs.gitCommonDir root).toList
    ⟨some (fs.gitmodulesPaths root),
      (gitDirs.map fun gitDir => fs.comparableGitPath (gitDir ++ ["modules".toList])).destutter
        (· ≠ ·)⟩

variable (checkouts : NestedCheckouts) (fs : FileSystem) (root : List Str)

/-- Whether the directory `rel` below the root is the root of a separate checkout. -/
def isSeparateCheckout (rel : List Str) : Bool :=
  match checkouts.submodulePaths with
  | none => false
  | some submodulePaths =>
    let dir := root ++ rel
    let marker := dir ++ [".git".toList]
    let listedSubmodule := submodulePaths.contains ⟨false, rel⟩
    match fs.symlinkMetadata marker with
    | some .directory => fs.isGitDir marker && !listedSubmodule
    | some .file =>
      match (fs.gitDirFromMarker dir marker).filter fs.isGitDir with
      | none => false
      | some gitDir =>
        -- A linked worktree shares its repository through `commondir`.
        if fs.isFile (gitDir ++ ["commondir".toList]) then true
        else !listedSubmodule && !checkouts.moduleDirs.any fun modules =>
          modules.isPrefixOf (fs.comparableGitPath gitDir)
    | _ => false

/-- Whether `rel` below the root lies inside a separate nested checkout. -/
def contains (rel : List Str) : Bool :=
  checkouts.submodulePaths.isSome &&
    rel.inits.any fun dir => !dir.isEmpty && checkouts.isSeparateCheckout fs root dir

end NestedCheckouts

/-! ## Owned storage -/

/-- `owned_storage_root`, where `appHome` is the value of `app_home`. -/
def ownedStorageRoot (fs : FileSystem) (appHome : Option PathBuf) (root : List Str) :
    Option (List Str) :=
  (appHome.bind fs.canonicalize).bind fun canonicalHome =>
    (fs.canonicalize ⟨true, root⟩).bind fun canonicalRoot =>
      if canonicalRoot.isPrefixOf canonicalHome then
        let relativeHome := canonicalHome.drop canonicalRoot.length
        some (root ++ if relativeHome.isEmpty then ["indexes".toList] else relativeHome)
      else none

/-- The files that a daemon keeps in the app home itself. -/
def daemonFiles : List Str :=
  ["daemon.lock".toList, "daemon.log".toList, "daemon.log.1".toList, "daemon.pid".toList,
    "daemon.port".toList, "daemon.sock".toList]

def isOwnedStoragePath (root path : List Str) (ownedRoot : Option (List Str)) : Bool :=
  match ownedRoot with
  | none => false
  | some ownedRoot =>
    ownedRoot.isPrefixOf path ||
      (ownedRoot = root ++ ["indexes".toList] && parentOf path = some root &&
        (fileNameOf path).any daemonFiles.contains)

def isIvygrepOwnedPath (fs : FileSystem) (appHome : Option PathBuf) (root path : List Str) :
    Bool :=
  isOwnedStoragePath root path (ownedStorageRoot fs appHome root)

/-! ## Ignore rules -/

/-- `ignore::Match`. -/
inductive IgnoreMatch where
  | none
  | ignore
  | whitelist
  deriving DecidableEq, Repr

def IgnoreMatch.or (first second : IgnoreMatch) : IgnoreMatch :=
  match first with
  | .none => second
  | _ => first

/-- `Gitignore::matched`: the last rule that applies decides. -/
def gitignoreMatched (rules : List IgnoreRule) (path : List Str) (isDir : Bool) : IgnoreMatch :=
  match rules.reverse.find? fun rule => rule.appliesTo path isDir with
  | none => .none
  | some rule => if rule.isWhitelist then .whitelist else .ignore

/-- `Gitignore::matched_path_or_any_parents`, on the reversed path. -/
def matchedFromLast (rules : List IgnoreRule) (reversed : List Str) (isDir : Bool) : IgnoreMatch :=
  match reversed with
  | [] => gitignoreMatched rules [] isDir
  | name :: parent =>
    (gitignoreMatched rules (name :: parent).reverse isDir).or (matchedFromLast rules parent true)

@[inherit_doc matchedFromLast]
def matchedPathOrAnyParents (rules : List IgnoreRule) (path : List Str) (isDir : Bool) :
    IgnoreMatch :=
  matchedFromLast rules path.reverse isDir

/-- The ignore files of a tree, by directory below the root, and the repository's
    `info/exclude`. -/
structure IgnorePolicy where
  exclude : List IgnoreRule
  gitignore : List Str → List IgnoreRule
  ignoreFile : List Str → List IgnoreRule

/-- The rules of a file, if it exists. -/
def FileSystem.rulesIn (fs : FileSystem) (path : List Str) : List IgnoreRule :=
  if fs.pathExists path then fs.ignoreRules path else []

/-- The exclude file of the repository of a checkout. -/
def FileSystem.gitExcludePath (fs : FileSystem) (root : List Str) : Option (List Str) :=
  (fs.gitCommonDir root).map fun commonDir => commonDir ++ ["info".toList, "exclude".toList]

def FileSystem.ignorePolicy (fs : FileSystem) (root : List Str) : IgnorePolicy where
  exclude := (fs.gitExcludePath root).elim [] fs.rulesIn
  gitignore dir := fs.rulesIn (root ++ dir ++ [".gitignore".toList])
  ignoreFile dir := fs.rulesIn (root ++ dir ++ [".ignore".toList])

namespace IgnorePolicy

variable (policy : IgnorePolicy)

/-- What the files of one name say: the deepest directory above the path that says anything
    decides. -/
def deepestMatch (rulesOf : List Str → List IgnoreRule) (path : List Str) (isDir : Bool) :
    IgnoreMatch :=
  path.dropLast.inits.foldl
    (fun found dir => (gitignoreMatched (rulesOf dir) (path.drop dir.length) isDir).or found) .none

/-- What the walker makes of an entry. -/
def matched (path : List Str) (isDir : Bool) : IgnoreMatch :=
  ((deepestMatch policy.ignoreFile path isDir).or (deepestMatch policy.gitignore path isDir)).or
    (gitignoreMatched policy.exclude path isDir)

end IgnorePolicy

/-! ## The walk -/

/-- The `filter_entry` of the walker, for an entry below the root. -/
def filterEntry (fs : FileSystem) (appHome : Option PathBuf) (root rel : List Str)
    (kind : FileKind) : Bool :=
  fileNameOf rel ≠ some ".git".toList &&
    !isIvygrepOwnedPath fs appHome root (root ++ rel) &&
    !(kind = .directory && (NestedCheckouts.new fs root).isSeparateCheckout fs root rel)

/-- Whether the walk yields the entry `rel`, once it is in the directory that holds it. -/
def yieldsEntry (fs : FileSystem) (appHome : Option PathBuf) (root : List Str)
    (skipGitignore : Bool) (rel : List Str) (kind : FileKind) : Bool :=
  filterEntry fs appHome root rel kind &&
    (skipGitignore || (fs.ignorePolicy root).matched rel (kind = .directory) ≠ .ignore)

/-- Whether the walk that has reached the directory `dir` comes to `rest` below it. It does
    not follow symlinks. -/
def walkReaches (fs : FileSystem) (appHome : Option PathBuf) (root : List Str)
    (skipGitignore : Bool) (dir rest : List Str) : Bool :=
  match rest with
  | [] => true
  | name :: rest =>
    let rel := dir ++ [name]
    match fs.symlinkMetadata (root ++ rel) with
    | none => false
    | some kind =>
      yieldsEntry fs appHome root skipGitignore rel kind &&
        (rest.isEmpty || kind = .directory) &&
        walkReaches fs appHome root skipGitignore rel rest

/-- Whether `source_walker(root, skip_gitignore)` lists an entry `rel` below the root. -/
def sourceWalkerLists (fs : FileSystem) (appHome : Option PathBuf) (root : List Str)
    (skipGitignore : Bool) (rel : List Str) : Bool :=
  !rel.isEmpty && walkReaches fs appHome root skipGitignore [] rel

end Ivygrep.Native
