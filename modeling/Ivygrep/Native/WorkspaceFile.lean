import Ivygrep.ForStd.UnixFs

/-!
# Contained reads beneath a workspace root

`workspace_file.rs` on Unix: a file beneath a workspace root is opened name by name from the root of
the file system, so that no symlink is followed. A `RootHandle` keeps the directory of its root after
its first read. The file system does not change here, and an open file is its node in the tree.
-/

namespace Ivygrep.Native.WorkspaceFile

open ForStd.UnixFs

variable {α : Type}

/-- A `Path` is a string of bytes. -/
abbrev Path := List UInt8

/-- The parts of a path that `Path::components` yields. -/
inductive Component where
  | rootDir
  | curDir
  | parentDir
  | normal (name : Name)
  deriving DecidableEq, Repr

/-- Empty parts and `.` are left out, apart from a `.` that a path begins with. -/
def Component.ofPart : PathPart → Option Component
  | .here => none
  | .parent => some .parentDir
  | .name name => some (.normal name)

/-- `Path::is_absolute`. -/
def isAbsolute (path : Path) : Bool := startsAtRoot path

/-- `Path::components`. -/
def components (path : Path) : List Component :=
  let named := (segments path).filterMap Component.ofPart
  if isAbsolute path then .rootDir :: named
  else if (path.splitOn separator).head? = some [0x2e] then .curDir :: named
  else named

/-- `Path::strip_prefix`, as the components that are left. -/
def stripPrefix (path root : Path) : Option (List Component) :=
  if components root <+: components path then some ((components path).drop (components root).length)
  else none

/-- An `io::Error`: one of the system, or one that the source makes. -/
inductive IoError where
  | errno (errno : Errno)
  /-- `unsafe_path`, of kind `PermissionDenied`. -/
  | unsafePath
  /-- A name with a NUL in it, of kind `InvalidInput`. -/
  | nulInPath
  deriving DecidableEq, Repr

/-- `is_err_and(|error| error.kind() == io::ErrorKind::NotFound)`. -/
def isNotFound : Except IoError (Node α) → Bool
  | .error error => error = .errno .enoent
  | .ok _ => false

/-! ## Opening name by name -/

/-- `open_at`. -/
def openAt (directory : Node α) (name : Name) (asDirectory : Bool) : Except IoError (Node α) :=
  if (0 : UInt8) ∈ name then .error .nulInPath
  else (directory.openAt name asDirectory).mapError .errno

/-- The loop of `open_components` over the components of the root. -/
def openRootComponents (directory : Node α) : List Component → Except IoError (Node α)
  | [] => .ok directory
  | .rootDir :: rest => openRootComponents directory rest
  | .normal name :: rest => do openRootComponents (← openAt directory name true) rest
  | _ :: _ => .error .unsafePath

/-- `open_beneath`. -/
def openBeneath (directory : Node α) (names : List Name) : Except IoError (Node α) :=
  match names.getLast? with
  | none => .error .unsafePath
  | some fileName => do
    let parent ← names.dropLast.foldlM (fun parent name => openAt parent name true) directory
    openAt parent fileName false

/-- `open_components`. -/
def openComponents (fs : Node α) (root : Path) (names : List Name) : Except IoError (Node α) := do
  let directory ← openRootComponents (← (fs.openAs true).mapError .errno) (components root)
  if names = [] then .ok directory else openBeneath directory names

/-- `open_root`. -/
def openRoot (fs : Node α) (root : Path) : Except IoError (Node α) :=
  if !isAbsolute root then .error .unsafePath
  else do
    match ← openComponents fs root [] with
    | .dir entries => .ok (.dir entries)
    | _ => .error .unsafePath

def allNormal : List Component → Option (List Name)
  | [] => some []
  | .normal name :: rest => (allNormal rest).map (name :: ·)
  | _ :: _ => none

/-- `relative_components`. -/
def relativeComponents (root path : Path) : Except IoError (List Name) :=
  match if isAbsolute path then stripPrefix path root else some (components path) with
  | none => .error .unsafePath
  | some relative =>
    match allNormal relative with
    | none | some [] => .error .unsafePath
    | some (name :: names) => .ok (name :: names)

/-- `regular_file`. -/
def regularFile : Node α → Except IoError (Node α)
  | .file content => .ok (.file content)
  | _ => .error .unsafePath

/-- `open`. -/
def openFile (fs : Node α) (root path : Path) : Except IoError (Node α) :=
  if !isAbsolute root then .error .unsafePath
  else do
    let names ← relativeComponents root path
    regularFile (← openComponents fs root names)

/-! ## A handle of a root -/

/-- `RootHandle`. The directory is set by the first read; it is `some none` if the root did not
    validate then. -/
structure RootHandle (α : Type) where
  root : Path
  directory : Option (Option (Node α))

/-- `RootHandle::new`. -/
def RootHandle.new (root : Path) : RootHandle α := ⟨root, none⟩

namespace RootHandle

variable (handle : RootHandle α)

/-- `get_or_init` of the directory. -/
def validated (fs : Node α) : Option (Node α) :=
  match handle.directory with
  | some directory => directory
  | none => (openRoot fs handle.root).toOption

/-- The handle after a read. -/
def opened (fs : Node α) : RootHandle α := { handle with directory := some (handle.validated fs) }

/-- `RootHandle::open`. -/
def openFile (fs : Node α) (path : Path) : Except IoError (Node α) × RootHandle α :=
  match handle.validated fs with
  | some directory =>
    (do
      let names ← relativeComponents handle.root path
      regularFile (← openBeneath directory names), handle.opened fs)
  | none => (WorkspaceFile.openFile fs handle.root path, handle.opened fs)

/-- The path that `path_is_present` asks for. -/
def presencePath (path : Path) : Path :=
  if isAbsolute path then path
  else if handle.root.getLast? = some separator then handle.root ++ path
  else handle.root ++ separator :: path

/-- `path_is_present`. -/
def pathIsPresent (fs : Node α) (maxLinks : Nat) (path : Path) : Bool :=
  access fs maxLinks (handle.presencePath path)

/-- The shortcut of `is_missing_with_buffer`, before the handle has a directory. A relative path is
    empty exactly where it has no components. -/
def isPresent (fs : Node α) (maxLinks : Nat) (path : Path) : Bool :=
  if handle.directory.isNone && isAbsolute handle.root then
    match if isAbsolute path then stripPrefix path handle.root else some (components path) with
    | none => false
    | some relative =>
      !relative.isEmpty && (allNormal relative).isSome && handle.pathIsPresent fs maxLinks path
  else false

/-- `is_missing`. -/
def isMissing (fs : Node α) (maxLinks : Nat) (path : Path) : Bool × RootHandle α :=
  if handle.isPresent fs maxLinks path then (false, handle)
  else
    let (result, handle) := handle.openFile fs path
    (isNotFound result, handle)

end RootHandle

/-! ## Many reads with one handle -/

/-- A read of `RootHandle::open` or of `RootHandle::is_missing`. -/
inductive Read where
  | openFile (path : Path)
  | isMissing (path : Path)

/-- One read, its answer and the handle after it. -/
def RootHandle.read (handle : RootHandle α) (fs : Node α) (maxLinks : Nat) :
    Read → (Except IoError (Node α) ⊕ Bool) × RootHandle α
  | .openFile path => ((handle.openFile fs path).map .inl id)
  | .isMissing path => ((handle.isMissing fs maxLinks path).map .inr id)

/-- The answers of one read after another. -/
def RootHandle.reads (fs : Node α) (maxLinks : Nat) (handle : RootHandle α) :
    List Read → List (Except IoError (Node α) ⊕ Bool)
  | [] => []
  | read :: rest =>
    let (answer, handle) := handle.read fs maxLinks read
    answer :: handle.reads fs maxLinks rest

end Ivygrep.Native.WorkspaceFile
