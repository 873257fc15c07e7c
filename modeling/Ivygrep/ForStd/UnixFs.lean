import Mathlib.Data.List.Basic

/-!
# Path resolution in a Unix file system

A file system is a tree of directories, regular files, symlinks and special files. `openAt` opens
one name of a directory and no symlink; `resolve` walks a whole path and follows symlinks.

## Key results

- `openAt_eq_ok`: what `openAt` opens is the entry, and no symlink
- `openAt_ne_enoent`: only a name that is not there is not found
- `walk_name`: a walk that ends well finds each name that it comes to
-/

namespace ForStd.UnixFs

abbrev Name := List UInt8

/-- A `special` file is a pipe, a socket or a device, which may be opened or not. -/
inductive Node (α : Type) where
  | dir (entries : List (Name × Node α))
  | file (content : α)
  | symlink (target : List UInt8)
  | special (opens : Bool)

inductive Errno where
  | enoent
  | enotdir
  | eloop
  | enxio
  deriving DecidableEq, Repr

variable {α : Type}

namespace Node

/-- The entry of a directory. -/
def entry : Node α → Name → Option (Node α)
  | .dir entries, name => entries.lookup name
  | _, _ => none

/-- The file that a list of names leads to, without following a symlink. -/
def lookup (node : Node α) : List Name → Option (Node α)
  | [] => some node
  | name :: names => (node.entry name).bind (·.lookup names)

theorem lookup_append (node : Node α) (names more : List Name) :
    node.lookup (names ++ more) = (node.lookup names).bind (·.lookup more) := by
  induction names generalizing node with
  | nil => rfl
  | cons name names ih =>
    rw [List.cons_append, lookup, lookup]
    cases node.entry name with
    | none => rfl
    | some next => exact ih next

theorem lookup_concat (node : Node α) (names : List Name) (name : Name) :
    node.lookup (names ++ [name]) = (node.lookup names).bind (·.entry name) := by
  rw [lookup_append]
  cases node.lookup names with
  | none => rfl
  | some next =>
    show (next.entry name).bind (·.lookup []) = next.entry name
    cases next.entry name <;> rfl

/-- What `openat` with `O_NOFOLLOW` makes of an entry, with `O_DIRECTORY` or to read the file. -/
def openAs : Node α → Bool → Except Errno (Node α)
  | .dir entries, _ => .ok (.dir entries)
  | .file _, true => .error .enotdir
  | .file content, false => .ok (.file content)
  | .symlink _, true => .error .enotdir
  | .symlink _, false => .error .eloop
  | .special _, true => .error .enotdir
  | .special true, false => .ok (.special true)
  | .special false, false => .error .enxio

/-- `openat` of a name in a directory. -/
def openAt (directory : Node α) (name : Name) (asDirectory : Bool) : Except Errno (Node α) :=
  match directory with
  | .dir entries =>
    match entries.lookup name with
    | none => .error .enoent
    | some entry => entry.openAs asDirectory
  | _ => .error .enotdir

/-- What is opened is the entry, which is no symlink, and a directory if it is opened as one. -/
theorem openAs_eq_ok {entry node : Node α} {asDirectory : Bool}
    (h : entry.openAs asDirectory = .ok node) :
    entry = node ∧ (∀ target, node ≠ .symlink target) ∧
      (asDirectory = true → ∃ entries, node = .dir entries) := by
  cases entry with
  | dir entries =>
    obtain rfl := Except.ok.inj h
    exact ⟨rfl, by simp, fun _ => ⟨entries, rfl⟩⟩
  | file content =>
    cases asDirectory with
    | true => cases h
    | false =>
      obtain rfl := Except.ok.inj h
      exact ⟨rfl, by simp, by simp⟩
  | symlink target => cases asDirectory <;> cases h
  | special opens =>
    cases asDirectory with
    | true => cases h
    | false =>
      cases opens with
      | false => cases h
      | true =>
        obtain rfl := Except.ok.inj h
        exact ⟨rfl, by simp, by simp⟩

theorem openAs_ne_enoent (entry : Node α) (asDirectory : Bool) :
    entry.openAs asDirectory ≠ .error .enoent := by
  cases entry with
  | dir entries => simp [openAs]
  | file content => cases asDirectory <;> simp [openAs]
  | symlink target => cases asDirectory <;> simp [openAs]
  | special opens => cases asDirectory <;> cases opens <;> simp [openAs]

theorem openAt_eq_ok {directory node : Node α} {name : Name} {asDirectory : Bool}
    (h : directory.openAt name asDirectory = .ok node) :
    directory.entry name = some node ∧ (∀ target, node ≠ .symlink target) ∧
      (asDirectory = true → ∃ entries, node = .dir entries) := by
  cases directory with
  | dir entries =>
    rw [openAt] at h
    rw [entry]
    cases hentry : entries.lookup name with
    | none =>
      rw [hentry] at h
      cases h
    | some entry =>
      rw [hentry] at h
      obtain ⟨rfl, hopened⟩ := openAs_eq_ok h
      exact ⟨rfl, hopened⟩
  | file content => cases h
  | symlink target => cases h
  | special opens => cases h

/-- Only a name that is not there is not found. -/
theorem openAt_ne_enoent {directory : Node α} {name : Name} (h : directory.entry name ≠ none)
    (asDirectory : Bool) : directory.openAt name asDirectory ≠ .error .enoent := by
  cases directory with
  | dir entries =>
    rw [entry] at h
    rw [openAt]
    cases hentry : entries.lookup name with
    | none => exact absurd hentry h
    | some entry => exact openAs_ne_enoent entry asDirectory
  | file content => simp [openAt]
  | symlink target => simp [openAt]
  | special opens => simp [openAt]

end Node

/-! ## Paths -/

def separator : UInt8 := 0x2f

/-- One part of a path between separators: an empty part means what `.` means. -/
inductive PathPart where
  | here
  | parent
  | name (name : Name)
  deriving DecidableEq, Repr

def PathPart.parse (part : List UInt8) : PathPart :=
  if part = [] ∨ part = [0x2e] then .here
  else if part = [0x2e, 0x2e] then .parent
  else .name part

def segments (path : List UInt8) : List PathPart := (path.splitOn separator).map PathPart.parse

def startsAtRoot (path : List UInt8) : Bool := path.head? = some separator

theorem segments_append (left right : List UInt8) :
    segments (left ++ separator :: right) = segments left ++ segments right := by
  rw [segments, List.splitOn_append_cons_self, List.map_append]
  rfl

theorem segments_nil : segments [] = [.here] := rfl

/-! ## Walks that follow symlinks -/

/-- Walks from a directory, which is given by the names that lead to it from the root. The walk of a
    symlink's target is `follow`. -/
def walk (root : Node α) (follow : List Name → List PathPart → Option (List Name)) :
    List Name → List PathPart → Option (List Name)
  | place, [] => some place
  | place, segment :: rest =>
    match root.lookup place with
    | some (.dir entries) =>
      match segment with
      | .here => walk root follow place rest
      | .parent => walk root follow place.dropLast rest
      | .name name =>
        match entries.lookup name with
        | none => none
        | some (.symlink target) =>
          if target = [] then none
          else follow (if startsAtRoot target then [] else place) (segments target ++ rest)
        | some _ => walk root follow (place ++ [name]) rest
    | _ => none

/-- Walks with a bounded number of symlinks. -/
def resolve (root : Node α) : Nat → List Name → List PathPart → Option (List Name)
  | 0 => walk root fun _ _ => none
  | links + 1 => walk root (resolve root links)

/-- `access` with `F_OK` for an absolute path: a C string has no NUL inside. -/
def access (root : Node α) (maxLinks : Nat) (path : List UInt8) : Bool :=
  (0 : UInt8) ∉ path ∧ (resolve root maxLinks [] (segments path)).isSome

theorem exists_walk_of_resolve {root : Node α} {links : Nat} {place : List Name}
    {rest : List PathPart} (h : (resolve root links place rest).isSome) :
    ∃ follow, (walk root follow place rest).isSome := by
  cases links with
  | zero => exact ⟨_, h⟩
  | succ links => exact ⟨_, h⟩

section Walk

variable {root node : Node α} {follow : List Name → List PathPart → Option (List Name)}
  {place : List Name} {name : Name} {rest : List PathPart}

/-- `here` goes on from a directory. -/
theorem walk_here (h : (walk root follow place (.here :: rest)).isSome) :
    (walk root follow place rest).isSome := by
  rw [walk] at h
  split at h
  · exact h
  · cases h

/-- A walk finds the entry of a name, and goes on in it if that is a directory. -/
theorem walk_name (hplace : root.lookup place = some node)
    (h : (walk root follow place (.name name :: rest)).isSome) :
    node.entry name ≠ none ∧ ∀ entries, node.entry name = some (.dir entries) →
      (walk root follow (place ++ [name]) rest).isSome := by
  rw [walk, hplace] at h
  cases node with
  | dir entries =>
    dsimp only at h
    rw [Node.entry]
    cases hentry : entries.lookup name with
    | none =>
      rw [hentry] at h
      cases h
    | some entry =>
      refine ⟨Option.some_ne_none entry, fun entries' hdir => ?_⟩
      rw [hentry, Option.some.inj hdir] at h
      exact h
  | file content => cases h
  | symlink target => cases h
  | special opens => cases h

end Walk

end ForStd.UnixFs
