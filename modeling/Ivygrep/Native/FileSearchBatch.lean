import Ivygrep.ForStd.Ranking
import Ivygrep.Native.Str

/-!
# Merging the file results of several workspaces

`FileSearchBatch` of `search_service.rs`. A path is a value of any linearly ordered type with
a `join`; scores are the bits of their `f32`, and the batch never reads them.
-/

namespace Ivygrep.Native

open ForStd

structure SearchHit (Path : Type) where
  filePath : Path
  startLine : Nat
  endLine : Nat
  preview : Str
  reason : Str
  score : UInt32
  sources : List Str
  neuralRequested : Bool
  neuralExecuted : Bool
deriving DecidableEq

structure FileSearchResult (Path : Type) where
  filePath : Path
  totalScore : UInt32
  hitCount : Nat
  moreHitsInFile : Nat
  hitCountIsLowerBound : Bool
  hits : List (SearchHit Path)
deriving DecidableEq

structure FileSearchOutcome (Path : Type) where
  files : List (FileSearchResult Path)
  warnings : List Str
deriving DecidableEq

structure FileSearchBatch (Path : Type) where
  files : List (FileSearchResult Path)
  warnings : List Str
  successfulWorkspaces : Nat
  limit : Option Nat

/-- `Path::join` and `Path::display`. -/
structure PathOps (Path : Type) where
  join : Path → Path → Path
  display : Path → Str

section

variable {Path : Type} [LinearOrder Path]

/-- The comparison of `files.sort_by` in `record`. -/
def compareFiles (left right : FileSearchResult Path) : Ordering :=
  (compare right.hitCount left.hitCount).then (compare left.filePath right.filePath)

/-- `sort_by` is stable: entries that compare equal keep their order. -/
def sortFiles (files : List (FileSearchResult Path)) : List (FileSearchResult Path) :=
  files.insertionSort fun left right => compareFiles left right ≠ .gt

/-- `files.retain(|file| seen.insert(file.file_path.clone()))`. -/
def retainUnseen (seen : List Path) : List (FileSearchResult Path) → List (FileSearchResult Path)
  | [] => []
  | file :: files =>
    if seen.contains file.filePath then retainUnseen seen files
    else file :: retainUnseen (file.filePath :: seen) files

/-- `Vec::truncate`, when there is a limit. -/
def truncate (limit : Option Nat) (files : List (FileSearchResult Path)) :
    List (FileSearchResult Path) :=
  match limit with
  | none => files
  | some limit => files.take limit

/-- The paths of a result, and of its hits, below the root of their workspace. -/
def FileSearchResult.absolute (ops : PathOps Path) (workspaceRoot : Path)
    (file : FileSearchResult Path) : FileSearchResult Path :=
  { file with
    filePath := ops.join workspaceRoot file.filePath
    hits := file.hits.map fun hit => { hit with filePath := ops.join workspaceRoot hit.filePath } }

end

namespace FileSearchBatch

variable {Path : Type} [LinearOrder Path]

def new (warnings : List Str) (limit : Option Nat) : FileSearchBatch Path :=
  ⟨[], warnings, 0, limit⟩

/-- The error of a failed workspace is given by its text. -/
def record (ops : PathOps Path) (batch : FileSearchBatch Path) (workspaceRoot : Path)
    (absolutePaths : Bool) (result : Except Str (List (FileSearchResult Path))) :
    FileSearchBatch Path :=
  match result with
  | .ok files =>
    let files := if absolutePaths then files.map (·.absolute ops workspaceRoot) else files
    let sorted := sortFiles (batch.files ++ files)
    let kept := if absolutePaths then retainUnseen [] sorted else sorted
    { batch with
      successfulWorkspaces := batch.successfulWorkspaces + 1
      files := truncate batch.limit kept }
  | .error err =>
    { batch with
      warnings := batch.warnings ++
        ["search failed for ".toList ++ ops.display workspaceRoot ++ ": ".toList ++ err] }

def finishPartial (batch : FileSearchBatch Path) : FileSearchOutcome Path :=
  ⟨batch.files, batch.warnings⟩

def finish (batch : FileSearchBatch Path) : Except Str (FileSearchOutcome Path) :=
  if batch.successfulWorkspaces = 0 ∧ batch.warnings ≠ [] then
    .error ("search failed: ".toList ++ List.intercalate "; ".toList batch.warnings)
  else .ok batch.finishPartial

end FileSearchBatch

end Ivygrep.Native
