import Ivygrep.ForStd.Interleaved
import Ivygrep.Native.Jobs
import Ivygrep.Native.Usize

/-!
# Garbage collection of indexes

A pass of `index_gc.rs` as a program of atomic observations and changes of the file system, with
other processes active between any two of them. An index directory stands for its workspace: the
root in its metadata is a function of the directory. Reads, writes and removals do not fail,
except that a lock file can vanish before it is opened.
-/

namespace Ivygrep.Native

open ForStd

inductive LockName where
  | index
  | enhancement
deriving DecidableEq

/-- `pass` when the pass holds the lock, `other` when anybody else does. -/
inductive LockState where
  | absent
  | free
  | other
  | pass
deriving DecidableEq

structure BaseRef (Path : Type) where
  baseIndexDir : Path
  baseWorkspaceRoot : Path
deriving DecidableEq

/-- What a pass can observe. `worktrees` is the answer of `git worktree list` in a root. -/
structure GcWorld (Path : Type) where
  entries : List Path
  rootIsGone : Path → Bool
  marker : Path → Option Nat
  baseRef : Path → Option (BaseRef Path)
  worktrees : Path → Option (List Path)
  comparablePath : Path → Path
  jobIsActive : Path → JobKind → Bool
  lock : Path → LockName → LockState

/-- The actions of a pass, with what they observed. -/
inductive GcEvent (Path : Type) where
  | listed (entries : List Path)
  | baseRoot (indexDir : Path) (gone : Bool)
  | baseRead (indexDir : Path) (ref : Option (BaseRef Path))
  | rootChecked (indexDir : Path) (nowUnix : Nat) (gone : Bool)
  | lockProbed (indexDir : Path) (name : LockName) (present : Bool)
  | rootRechecked (indexDir : Path) (gone : Bool)
  | removed (indexDir : Path) (nowUnix effectiveGrace : Nat)
  | other
deriving DecidableEq

structure GcReport (Path : Type) where
  collected : List Path
  waiting : List (Path × Nat)
  inUse : List Path

inductive Removal where
  | removed
  | inUse
  | rootReturned
  | failed
deriving DecidableEq

/-- `DELETED_WORKTREE_GRACE`, in seconds. -/
def deletedWorktreeGrace : Nat := 10 * 60

abbrev Gc (Path α : Type) := Program (GcWorld Path) (GcEvent Path) α

namespace Gc

variable {Path : Type} [DecidableEq Path]

/-- An observation without a change. -/
def observe {α : Type} (event : α → GcEvent Path) (read : GcWorld Path → α) : Gc Path α :=
  Program.atomic event fun world => (read world, world)

def change (event : GcEvent Path) (write : GcWorld Path → GcWorld Path) : Gc Path Unit :=
  Program.atomic (fun _ => event) fun world => ((), write world)

/-- `Function.update` for one path. -/
def setAt {α : Type} (f : Path → α) (path : Path) (value : α) : Path → α :=
  fun other => if other = path then value else f other

def setLock (world : GcWorld Path) (indexDir : Path) (name : LockName) (state : LockState) :
    GcWorld Path :=
  { world with lock := setAt world.lock indexDir fun other =>
      if other = name then state else world.lock indexDir other }

/-- The git listings asked for so far, by base root. -/
abbrev Registered (Path : Type) := List (Path × Option (List Path))

/-- The listing of a base root, asked for once. -/
def registeredWorktrees (registered : Registered Path) (baseRoot : Path) :
    Gc Path (Option (List Path) × Registered Path) :=
  match registered.lookup baseRoot with
  | some listing => pure (listing, registered)
  | none => do
    let listing ← observe (fun _ => .other) fun world => world.worktrees baseRoot
    pure (listing, (baseRoot, listing) :: registered)

def worktreeIsUnregistered (rootOf : Path → Path) (indexDir : Path)
    (registered : Registered Path) : Gc Path (Bool × Registered Path) := do
  let ref ← observe (fun _ => .other) fun world => world.baseRef indexDir
  match ref with
  | none => pure (false, registered)
  | some ref => do
    let root ← observe (fun _ => .other) fun world => world.comparablePath (rootOf indexDir)
    let found ← registeredWorktrees registered ref.baseWorkspaceRoot
    match found.1 with
    | none => pure (false, found.2)
    | some worktrees => pure (!worktrees.contains root, found.2)

/-- Base indexes that an overlay with a live root still reads. -/
def liveBases (rootOf : Path → Path) : List Path → Gc Path (List Path)
  | [] => pure []
  | indexDir :: entries => do
    let gone ← observe (.baseRoot indexDir) fun world => world.rootIsGone (rootOf indexDir)
    if gone then liveBases rootOf entries
    else do
      let ref ← observe (.baseRead indexDir) fun world => world.baseRef indexDir
      let bases ← liveBases rootOf entries
      match ref with
      | none => pure bases
      | some ref => pure (ref.baseIndexDir :: bases)

/-! ## `remove_unused_index` -/

/-- Tries one lock. A file that is not there when it is probed is skipped; one that is gone when
    it is opened is an error. -/
def takeLock (indexDir : Path) (name : LockName) : Gc Path (Option Removal) := do
  let present ← observe (.lockProbed indexDir name) fun world =>
    decide (world.lock indexDir name ≠ .absent)
  if present then
    Program.atomic (fun _ => .other) fun world =>
      match world.lock indexDir name with
      | .absent => (some .failed, world)
      | .free => (none, setLock world indexDir name .pass)
      | .other | .pass => (some .inUse, world)
  else pure none

/-- The handles close: the locks of the pass are free again. -/
def unlock (indexDir : Path) : Gc Path Unit :=
  change .other fun world =>
    { world with lock := setAt world.lock indexDir fun name =>
        if world.lock indexDir name = .pass then .free else world.lock indexDir name }

/-- Everything in the directory but the lock files. -/
def removeStores (indexDir : Path) (nowUnix effectiveGrace : Nat) : Gc Path Unit :=
  change (.removed indexDir nowUnix effectiveGrace) fun world =>
    { world with
      entries := world.entries.filter (· ≠ indexDir)
      marker := setAt world.marker indexDir none
      baseRef := setAt world.baseRef indexDir none }

def removeDir (indexDir : Path) : Gc Path Unit :=
  change .other fun world =>
    { world with
      entries := world.entries.filter (· ≠ indexDir)
      marker := setAt world.marker indexDir none
      baseRef := setAt world.baseRef indexDir none
      lock := setAt world.lock indexDir fun _ => .absent }

/-- With the locks held: the last check, and the removal. The clock and the grace period are only
    for the event. -/
def removeLocked (indexDir : Path) (nowUnix effectiveGrace : Nat) (stillGone : Gc Path Bool) :
    Gc Path Removal := do
  let gone ← stillGone
  if gone then do
    change .other id
    removeStores indexDir nowUnix effectiveGrace
    unlock indexDir
    removeDir indexDir
    pure .removed
  else do
    unlock indexDir
    pure .rootReturned

/-- The actions on the index holder change nothing that a pass observes. -/
def removeUnusedIndex (indexDir : Path) (nowUnix effectiveGrace : Nat)
    (stillGone : Gc Path Bool) : Gc Path Removal := do
  change .other id
  let indexing ← observe (fun _ => .other) fun world => world.jobIsActive indexDir .indexing
  if indexing then pure .inUse
  else do
    let enhancing ← observe (fun _ => .other) fun world => world.jobIsActive indexDir .enhancement
    if enhancing then pure .inUse
    else do
      let index ← takeLock indexDir .index
      match index with
      | some removal => pure removal
      | none => do
        let enhancement ← takeLock indexDir .enhancement
        match enhancement with
        | some removal => do
          unlock indexDir
          pure removal
        | none => removeLocked indexDir nowUnix effectiveGrace stillGone

/-! ## The pass -/

/-- What the loop of a pass carries. -/
structure PassState (Path : Type) where
  registered : Registered Path
  report : GcReport Path

/-- `read_missing_since`, and a new marker when there is none. -/
def missingSince (indexDir : Path) (nowUnix : Nat) : Gc Path Nat := do
  let marker ← observe (fun _ => .other) fun world => world.marker indexDir
  match marker with
  | some since => pure (min since nowUnix)
  | none => do
    change .other fun world => { world with marker := setAt world.marker indexDir (some nowUnix) }
    pure nowUnix

/-- The check under the locks. -/
def stillGone (rootOf : Path → Path) (indexDir : Path) (dueAsUnregistered : Bool) :
    Gc Path Bool := do
  let gone ← observe (.rootRechecked indexDir) fun world => world.rootIsGone (rootOf indexDir)
  if gone then
    if dueAsUnregistered then do
      let unregistered ← worktreeIsUnregistered rootOf indexDir []
      pure unregistered.1
    else pure true
  else pure false

/-- One index that is due, unless a live overlay reads it. -/
def collectDue (rootOf : Path → Path) (nowUnix grace : Nat) (bases : List Path) (indexDir : Path)
    (since effectiveGrace : Nat) (state : PassState Path) : Gc Path (Option (PassState Path)) :=
  if bases.contains indexDir then
    pure (some { state with
      report := { state.report with inUse := state.report.inUse ++ [indexDir] } })
  else do
    let dueAsUnregistered := decide (nowUnix < saturatingAdd since grace)
    let removal ← removeUnusedIndex indexDir nowUnix effectiveGrace
      (stillGone rootOf indexDir dueAsUnregistered)
    match removal with
    | .removed => pure (some { state with
        report := { state.report with collected := state.report.collected ++ [indexDir] } })
    | .inUse => pure (some { state with
        report := { state.report with inUse := state.report.inUse ++ [indexDir] } })
    | .rootReturned => pure (some state)
    | .failed => pure none

/-- One entry of the loop; `none` when an error ends the pass. -/
def collectEntry (rootOf : Path → Path) (nowUnix grace : Nat) (bases : List Path)
    (state : PassState Path) (indexDir : Path) : Gc Path (Option (PassState Path)) := do
  let gone ← observe (.rootChecked indexDir nowUnix) fun world => world.rootIsGone (rootOf indexDir)
  if gone then do
    let since ← missingSince indexDir nowUnix
    let unregistered ← worktreeIsUnregistered rootOf indexDir state.registered
    let state := { state with registered := unregistered.2 }
    let effectiveGrace := if unregistered.1 then min grace deletedWorktreeGrace else grace
    let collectAfter := saturatingAdd since effectiveGrace
    if nowUnix < collectAfter then
      pure (some { state with
        report := { state.report with
          waiting := state.report.waiting ++ [(rootOf indexDir, collectAfter)] } })
    else collectDue rootOf nowUnix grace bases indexDir since effectiveGrace state
  else do
    change .other fun world => { world with marker := setAt world.marker indexDir none }
    pure (some state)

def collectEntries (rootOf : Path → Path) (nowUnix grace : Nat) (bases : List Path) :
    List Path → PassState Path → Gc Path (Option (GcReport Path))
  | [], state => pure (some state.report)
  | indexDir :: entries, state => do
    let next ← collectEntry rootOf nowUnix grace bases state indexDir
    match next with
    | none => pure none
    | some state => collectEntries rootOf nowUnix grace bases entries state

def collectOrphanedIndexesAt (rootOf : Path → Path) (nowUnix grace : Nat) :
    Gc Path (Option (GcReport Path)) := do
  let entries ← observe .listed fun world => world.entries
  let bases ← liveBases rootOf entries
  collectEntries rootOf nowUnix grace bases entries ⟨[], ⟨[], [], []⟩⟩

/-- Passes one after the other, each with its clock and its grace period. -/
def collectPasses (rootOf : Path → Path) : List (Nat × Nat) → Gc Path Unit
  | [] => pure ()
  | (nowUnix, grace) :: passes => do
    let _ ← collectOrphanedIndexesAt rootOf nowUnix grace
    collectPasses rootOf passes

/-- What other processes may do between two actions: anything but write a marker or touch a lock
    of the pass. -/
def Others (before after : GcWorld Path) : Prop :=
  (∀ indexDir, after.marker indexDir = before.marker indexDir ∨ after.marker indexDir = none) ∧
    ∀ indexDir name, after.lock indexDir name = .pass ↔ before.lock indexDir name = .pass

end Gc

end Ivygrep.Native
