import Mathlib
import Ivygrep.Native.ContextBundle
import Ivygrep.Native.Merkle
import Ivygrep.Native.SourceWalker

/-!
# Changes that Git reports

`merge_name_status`, `merge_porcelain_status` and `merge_change` of `context_input.rs`: the output
of `git diff --name-status -z` and of `git status --porcelain=v1 -z` as one change for each path.
-/

namespace Ivygrep.Native

/-- The order of `ContextChangeSource`. -/
def ContextChangeSource.rank : ContextChangeSource → Nat
  | .since => 0
  | .staged => 1
  | .worktree => 2
  | .untracked => 3

/-- The change of each file. Paths are those below the workspace. -/
abbrev ContextChanges := BTreeMap (List Str) ContextChange

/-! ## Paths -/

/-- The loop of `normalize_relative`. -/
def normalizeComponents (normalized : List Str) : List Str → Option (List Str)
  | [] => some normalized
  | component :: rest =>
    if component = "..".toList then
      if normalized.isEmpty then none else normalizeComponents normalized.dropLast rest
    else if component = ".".toList then normalizeComponents normalized rest
    else normalizeComponents (normalized ++ [component]) rest

def normalizeRelative (path : PathBuf) : Option (List Str) :=
  if path.isAbsolute then none
  else (normalizeComponents [] path.components).bind fun normalized =>
    if normalized.isEmpty then none
    else some (PathBuf.parse (Str.join ['/'] normalized)).components

/-- `Path::strip_prefix`, where the prefix need not be UTF-8. -/
def stripPathPrefix : RelPath → List Str → Option (List Str)
  | [], path => some path
  | .utf8 name :: rest, component :: path =>
    if name.text = component then stripPathPrefix rest path else none
  | _ :: _, _ => none

def workspaceRelativePath (raw : List UInt8) (workspacePrefix : RelPath) : Option (List Str) :=
  (Str.fromUtf8 raw).bind fun text =>
    (normalizeRelative (PathBuf.parse text)).bind fun repoPath =>
      (stripPathPrefix workspacePrefix repoPath).bind fun path => normalizeRelative ⟨false, path⟩

/-! ## Changes -/

/-- What `merge_change` makes of the status of a change. -/
def mergeStatus (current status : ContextChangeStatus) : ContextChangeStatus :=
  if (current = .added ∨ current = .renamed) ∧ status = .modified then current else status

/-- `contains`, `push` and `sort`. -/
def addSource (sources : List ContextChangeSource) (source : ContextChangeSource) :
    List ContextChangeSource :=
  if source ∈ sources then sources
  else (sources ++ [source]).mergeSort fun left right => left.rank ≤ right.rank

def mergeChange (changes : ContextChanges) (path : List Str) (oldPath : Option (List Str))
    (status : ContextChangeStatus) (source : ContextChangeSource) : ContextChanges :=
  let change := changes[path]?.getD ⟨path, none, status, []⟩
  changes.insert path
    { filePath := change.filePath
      oldPath := change.oldPath.or oldPath
      status := mergeStatus change.status status
      sources := addSource change.sources source }

/-- The status that both formats write as one letter. -/
def letterStatus (code : UInt8) : ContextChangeStatus :=
  if code = 0x41 then .added
  else if code = 0x4D then .modified
  else if code = 0x44 then .deleted
  else if code = 0x52 then .renamed
  else if code = 0x43 then .copied
  else if code = 0x54 then .typeChanged
  else if code = 0x55 then .unmerged
  else .unknown

/-- `R` and `C`. -/
def isRenameOrCopy (code : UInt8) : Bool := code = 0x52 || code = 0x43

/-- The fields between the NUL bytes, without empty ones. -/
def statusFields (bytes : List UInt8) : List (List UInt8) :=
  (bytes.splitOn 0).filter fun field => !field.isEmpty

/-! ## `git diff --name-status -z` -/

/-- The first byte of a status, `?` if there is none. -/
def statusCode (field : List UInt8) : UInt8 :=
  (Str.bytes (Str.fromUtf8Lossy field)).head?.getD 0x3F

section NameStatus

variable (source : ContextChangeSource) (workspacePrefix : RelPath)

/-- The end of one round of the loop, where `code` is the first byte of the status. -/
def mergeNamed (changes : ContextChanges) (code : UInt8) (oldPath : Option (List Str))
    (field : List UInt8) : ContextChanges :=
  match workspaceRelativePath field workspacePrefix with
  | none => changes
  | some path => mergeChange changes path oldPath (letterStatus code) source

/-- The loop of `merge_name_status`. -/
def mergeNameStatusFrom (changes : ContextChanges) : List (List UInt8) → ContextChanges
  | [] => changes
  | [_] => changes
  | status :: second :: rest =>
    if isRenameOrCopy (statusCode status) then
      match rest with
      | [] => changes
      | third :: rest =>
        mergeNameStatusFrom (mergeNamed source workspacePrefix changes (statusCode status)
          (workspaceRelativePath second workspacePrefix) third) rest
    else
      mergeNameStatusFrom
        (mergeNamed source workspacePrefix changes (statusCode status) none second) rest

end NameStatus

def mergeNameStatus (changes : ContextChanges) (bytes : List UInt8) (source : ContextChangeSource)
    (workspacePrefix : RelPath) : ContextChanges :=
  mergeNameStatusFrom source workspacePrefix changes (statusFields bytes)

/-! ## `git status --porcelain=v1 -z` -/

/-- The pairs of letters of an unmerged path. -/
def isUnmergedPair (indexStatus worktreeStatus : UInt8) : Bool :=
  (indexStatus, worktreeStatus) ∈ [((0x44 : UInt8), (0x44 : UInt8)), (0x41, 0x55), (0x55, 0x44),
    (0x55, 0x41), (0x44, 0x55), (0x41, 0x41), (0x55, 0x55)]

/-- A blank, `?` and `!` report no change on their side. -/
def reportsNoChange (code : UInt8) : Bool := code = 0x20 || code = 0x3F || code = 0x21

/-- One round of the last loop of `merge_porcelain_status`. -/
def mergeSide (path : List Str) (oldPath : Option (List Str)) (changes : ContextChanges)
    (side : UInt8 × ContextChangeSource) : ContextChanges :=
  if reportsNoChange side.1 then changes
  else mergeChange changes path oldPath (letterStatus side.1) side.2

/-- What an entry with an accepted path changes. -/
def mergePorcelainEntry (changes : ContextChanges) (indexStatus worktreeStatus : UInt8)
    (path : List Str) (oldPath : Option (List Str)) : ContextChanges :=
  if indexStatus = 0x3F ∧ worktreeStatus = 0x3F then
    mergeChange changes path none .added .untracked
  else if isUnmergedPair indexStatus worktreeStatus then
    [ContextChangeSource.staged, .worktree].foldl
      (fun changes source => mergeChange changes path oldPath .unmerged source) changes
  else
    [(indexStatus, ContextChangeSource.staged), (worktreeStatus, .worktree)].foldl
      (mergeSide path oldPath) changes

/-- The loop of `merge_porcelain_status`. -/
def mergePorcelainFrom (workspacePrefix : RelPath) (changes : ContextChanges) :
    List (List UInt8) → ContextChanges
  | [] => changes
  | entry :: rest =>
    match entry with
    | indexStatus :: worktreeStatus :: blank :: first :: name =>
      if blank ≠ 0x20 then mergePorcelainFrom workspacePrefix changes rest
      else
        let merged := fun (oldPath : Option (List Str)) =>
          match workspaceRelativePath (first :: name) workspacePrefix with
          | none => changes
          | some path => mergePorcelainEntry changes indexStatus worktreeStatus path oldPath
        if isRenameOrCopy indexStatus || isRenameOrCopy worktreeStatus then
          match rest with
          | [] => mergePorcelainFrom workspacePrefix (merged none) []
          | old :: rest =>
            mergePorcelainFrom workspacePrefix (merged (workspaceRelativePath old workspacePrefix))
              rest
        else mergePorcelainFrom workspacePrefix (merged none) rest
    -- An entry of fewer than four bytes is skipped.
    | _ => mergePorcelainFrom workspacePrefix changes rest

def mergePorcelainStatus (changes : ContextChanges) (bytes : List UInt8)
    (workspacePrefix : RelPath) : ContextChanges :=
  mergePorcelainFrom workspacePrefix changes (statusFields bytes)

/-! ## What Git writes -/

/-- A field as Git writes it: not empty, and without NUL. -/
def IsField (field : List UInt8) : Prop := field ≠ [] ∧ 0 ∉ field

instance (field : List UInt8) : Decidable (IsField field) :=
  inferInstanceAs (Decidable (field ≠ [] ∧ 0 ∉ field))

/-- An entry of `--name-status`: a status such as `M` or `R100`, and a path. There is an old path
    exactly for a rename and for a copy. -/
structure NameStatusEntry where
  status : Str
  path : List UInt8
  oldPath : Option (List UInt8)
  status_field : IsField (Str.bytes status)
  path_field : IsField path
  old_field : ∀ old ∈ oldPath, IsField old
  old_isSome : oldPath.isSome = isRenameOrCopy (statusCode (Str.bytes status))

/-- An entry of `--porcelain=v1`: a pair of letters and a path, with an old path exactly for a
    rename and for a copy. -/
structure PorcelainEntry where
  indexStatus : UInt8
  worktreeStatus : UInt8
  path : List UInt8
  oldPath : Option (List UInt8)
  index_ne : indexStatus ≠ 0
  worktree_ne : worktreeStatus ≠ 0
  path_field : IsField path
  old_field : ∀ old ∈ oldPath, IsField old
  old_isSome : oldPath.isSome = (isRenameOrCopy indexStatus || isRenameOrCopy worktreeStatus)

/-- Every field ends with a NUL. -/
def encodeFields (fields : List (List UInt8)) : List UInt8 :=
  fields.flatMap fun field => field ++ [0]

/-- The old path comes before the new one. -/
def NameStatusEntry.fields (entry : NameStatusEntry) : List (List UInt8) :=
  Str.bytes entry.status :: (entry.oldPath.toList ++ [entry.path])

/-- The old path comes after the new one. -/
def PorcelainEntry.fields (entry : PorcelainEntry) : List (List UInt8) :=
  (entry.indexStatus :: entry.worktreeStatus :: 0x20 :: entry.path) :: entry.oldPath.toList

def encodeNameStatus (entries : List NameStatusEntry) : List UInt8 :=
  encodeFields (entries.flatMap NameStatusEntry.fields)

def encodePorcelain (entries : List PorcelainEntry) : List UInt8 :=
  encodeFields (entries.flatMap PorcelainEntry.fields)

end Ivygrep.Native
