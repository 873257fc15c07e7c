import Mathlib

/-!
# File trees

A file system as one tree: `get` and `set` at a path, the laws that relate them at
paths that are apart, and the operations of a POSIX file system (write, mkdir, rename,
unlink) as partial functions on trees. Names and contents are arbitrary.
-/

namespace ForStd

/-- A file with its content, or a directory. -/
inductive FileTree (α β : Type) where
  | file (content : β)
  | dir (entries : List (α × FileTree α β))

namespace FileTree

variable {α β : Type} [DecidableEq α]

/-! ## Lookup and update -/

/-- The entries of a directory with `value` under a name, or with nothing there. -/
def setEntry (entries : List (α × FileTree α β)) (name : α) (value : Option (FileTree α β)) :
    List (α × FileTree α β) :=
  (value.toList.map fun child => (name, child)) ++ entries.filter (·.1 ≠ name)

theorem lookup_setEntry_of_ne {name other : α} (h : other ≠ name)
    (entries : List (α × FileTree α β)) (value : Option (FileTree α β)) :
    (setEntry entries name value).lookup other = entries.lookup other := by
  have hnew : (value.toList.map fun child => (name, child)).lookup other = none := by
    cases value <;> simp [List.lookup_cons, beq_eq_false_iff_ne.mpr h]
  unfold setEntry
  rw [List.lookup_append, hnew, Option.none_or]
  induction entries with
  | nil => rfl
  | cons entry entries ih =>
    obtain ⟨key, child⟩ := entry
    rw [List.filter_cons, List.lookup_cons]
    by_cases hkey : key = name
    · subst hkey
      rw [beq_eq_false_iff_ne.mpr h, if_neg (by simp)]
      exact ih
    · simp only [ne_eq, hkey, not_false_eq_true, decide_true, if_true, List.lookup_cons, ih]

theorem lookup_setEntry_self (name : α) (entries : List (α × FileTree α β))
    (value : Option (FileTree α β)) : (setEntry entries name value).lookup name = value := by
  have hold : (entries.filter (·.1 ≠ name)).lookup name = none := by
    rw [List.lookup_eq_none_iff]
    intro entry hentry
    have hne : entry.1 ≠ name := by simpa using (List.mem_filter.mp hentry).2
    simpa using hne.symm
  unfold setEntry
  rw [List.lookup_append, hold, Option.or_none]
  cases value <;> simp

/-- What is at a path. -/
def get : FileTree α β → List α → Option (FileTree α β)
  | tree, [] => some tree
  | file _, _ :: _ => none
  | dir entries, name :: path =>
    match entries.lookup name with
    | none => none
    | some child => child.get path

/-- The tree with `value` at a path, or with nothing there. A path whose parent is not
    a directory cannot be set, and the root cannot be removed. -/
def set : FileTree α β → List α → Option (FileTree α β) → FileTree α β
  | tree, [], value => value.getD tree
  | file content, _ :: _, _ => file content
  | dir entries, [name], value => dir (setEntry entries name value)
  | dir entries, name :: next :: path, value =>
    match entries.lookup name with
    | none => dir entries
    | some child => dir (setEntry entries name (some (child.set (next :: path) value)))

/-- `tree` has a directory at `path`. -/
def isDir (tree : FileTree α β) (path : List α) : Bool :=
  match tree.get path with
  | some (dir _) => true
  | _ => false

/-- `tree` has a file at `path`. -/
def isFile (tree : FileTree α β) (path : List α) : Bool :=
  match tree.get path with
  | some (file _) => true
  | _ => false

theorem get_isSome_of_isDir {tree : FileTree α β} {path : List α} (h : tree.isDir path) :
    (tree.get path).isSome := by
  unfold isDir at h
  cases hget : tree.get path with
  | none => simp [hget] at h
  | some child => rfl

/-- What exists and is no directory is a file. -/
theorem isFile_of_not_isDir {tree : FileTree α β} {path : List α}
    (h : (tree.get path).isSome) (hdir : tree.isDir path = false) : tree.isFile path := by
  unfold isDir at hdir
  unfold isFile
  cases hget : tree.get path with
  | none => simp [hget] at h
  | some child =>
    rw [hget] at hdir
    cases child with
    | file content => rfl
    | dir entries => exact absurd hdir (by simp)

/-- Neither path is inside the other. -/
def Apart (p q : List α) : Prop := ¬ p <+: q ∧ ¬ q <+: p

omit [DecidableEq α] in
theorem Apart.symm {p q : List α} (h : Apart p q) : Apart q p := ⟨h.2, h.1⟩

omit [DecidableEq α] in
/-- What is inside a path is apart from what the path is apart from. -/
theorem Apart.append {p q : List α} (h : Apart p q) (r : List α) :
    Apart (p ++ r) q := by
  constructor
  · intro hpre
    exact h.1 ((List.prefix_append p r).trans hpre)
  · intro hpre
    cases List.prefix_or_prefix_of_prefix hpre (List.prefix_append p r) with
    | inl hqp => exact h.2 hqp
    | inr hpq => exact h.1 hpq

omit [DecidableEq α] in
/-- Different paths of one length are apart. -/
theorem apart_of_length_eq {p q : List α} (hlen : p.length = q.length) (hne : p ≠ q) :
    Apart p q :=
  ⟨fun h => hne (h.eq_of_length hlen), fun h => hne (h.eq_of_length hlen.symm).symm⟩

omit [DecidableEq α] in
/-- Below one directory, paths that start with different names are apart. -/
theorem apart_of_name_ne (root : List α) {m n : α} (h : m ≠ n) (p q : List α) :
    Apart (root ++ m :: p) (root ++ n :: q) := by
  constructor
  · intro hpre
    rw [List.prefix_append_right_inj, List.cons_prefix_cons] at hpre
    exact h hpre.1
  · intro hpre
    rw [List.prefix_append_right_inj, List.cons_prefix_cons] at hpre
    exact h hpre.1.symm

@[simp] theorem get_nil (tree : FileTree α β) : tree.get [] = some tree := by
  cases tree <;> rfl

theorem get_append (tree : FileTree α β) (p q : List α) :
    tree.get (p ++ q) = (tree.get p).bind (·.get q) := by
  induction p generalizing tree with
  | nil => simp
  | cons name p ih =>
    cases tree with
    | file content => rfl
    | dir entries =>
      simp only [List.cons_append, get]
      cases entries.lookup name with
      | none => rfl
      | some child => exact ih child

/-- The parent of whatever exists is a directory. -/
theorem isDir_of_get_isSome {tree : FileTree α β} {p q : List α} (hq : q ≠ [])
    (h : (tree.get (p ++ q)).isSome) : tree.isDir p := by
  rw [get_append] at h
  unfold isDir
  cases hp : tree.get p with
  | none => rw [hp] at h; exact absurd h (by simp)
  | some child =>
    cases child with
    | dir entries => rfl
    | file content =>
      rw [hp] at h
      cases q with
      | nil => exact absurd rfl hq
      | cons name q => exact absurd h (by simp [get])

/-- Setting a path below a directory puts the value there. -/
theorem get_set_self {tree : FileTree α β} {parent : List α} {name : α}
    (h : tree.isDir parent) (value : Option (FileTree α β)) :
    (tree.set (parent ++ [name]) value).get (parent ++ [name]) = value := by
  induction parent generalizing tree with
  | nil =>
    cases tree with
    | file content => simp [isDir, get] at h
    | dir entries =>
      simp only [List.nil_append, set, get, lookup_setEntry_self]
      cases value with
      | none => rfl
      | some child => simp
  | cons first parent ih =>
    cases tree with
    | file content => simp [isDir, get] at h
    | dir entries =>
      cases hchild : entries.lookup first with
      | none => simp [isDir, get, hchild] at h
      | some child =>
        have hdir : child.isDir parent := by simpa [isDir, get, hchild] using h
        obtain ⟨next, path, hnext⟩ : ∃ next path, parent ++ [name] = next :: path :=
          List.exists_cons_of_ne_nil (by simp)
        have hstep := ih hdir
        rw [hnext] at hstep
        rw [List.cons_append, hnext]
        simp only [set, get, hchild, lookup_setEntry_self]
        exact hstep

/-- What exists can be removed. -/
theorem get_set_none {tree : FileTree α β} {path : List α} (hpath : path ≠ [])
    (h : (tree.get path).isSome) : (tree.set path none).get path = none := by
  obtain ⟨parent, name, rfl⟩ := (List.eq_nil_or_concat path).resolve_left hpath
  rw [List.concat_eq_append] at h ⊢
  exact get_set_self (isDir_of_get_isSome (List.cons_ne_nil name []) h) none

/-- Setting one path leaves a path apart from it alone. -/
theorem get_set_of_apart {tree : FileTree α β} {p q : List α} (h : Apart p q)
    (value : Option (FileTree α β)) : (tree.set p value).get q = tree.get q := by
  induction p generalizing tree q with
  | nil => exact absurd (List.nil_prefix) h.1
  | cons name p ih =>
    cases q with
    | nil => exact absurd (List.nil_prefix) h.2
    | cons other q =>
      cases tree with
      | file content => cases p <;> rfl
      | dir entries =>
        cases p with
        | nil =>
          have hne : other ≠ name := by
            intro heq
            exact h.1 (by rw [heq]; simp)
          simp only [set, get, lookup_setEntry_of_ne hne]
        | cons next p =>
          simp only [set]
          cases hchild : entries.lookup name with
          | none => rfl
          | some child =>
            by_cases hne : other = name
            · subst hne
              have hapart : Apart (next :: p) q := by
                unfold Apart at h ⊢
                rwa [List.prefix_cons_inj, List.prefix_cons_inj] at h
              simp only [get, lookup_setEntry_self, hchild]
              exact ih hapart
            · simp only [get, lookup_setEntry_of_ne hne]

/-- Setting a path leaves every directory a directory that is not inside it. -/
theorem isDir_set {tree : FileTree α β} {p q : List α} (h : ¬ p <+: q)
    (value : Option (FileTree α β)) : (tree.set p value).isDir q = tree.isDir q := by
  induction p generalizing tree q with
  | nil => exact absurd (List.nil_prefix) h
  | cons name p ih =>
    cases tree with
    | file content => cases p <;> rfl
    | dir entries =>
      cases q with
      | nil =>
        cases p with
        | nil => simp [set, isDir, get]
        | cons next p =>
          simp only [set]
          cases entries.lookup name <;> simp [isDir, get]
      | cons other q =>
        cases p with
        | nil =>
          have hne : other ≠ name := by
            intro heq
            exact h (by rw [heq]; simp)
          simp only [set, isDir, get, lookup_setEntry_of_ne hne]
        | cons next p =>
          simp only [set]
          cases hchild : entries.lookup name with
          | none => rfl
          | some child =>
            by_cases hne : other = name
            · subst hne
              rw [List.prefix_cons_inj] at h
              have hstep : (child.set (next :: p) value).isDir q = child.isDir q := ih h
              simp only [isDir, get, lookup_setEntry_self, hchild] at hstep ⊢
              exact hstep
            · simp only [isDir, get, lookup_setEntry_of_ne hne]

/-- `new` differs from `old` only inside `path`. -/
structure SameOutside (path : List α) (old new : FileTree α β) : Prop where
  get : ∀ q, Apart path q → new.get q = old.get q
  isDir : ∀ q, ¬ path <+: q → new.isDir q = old.isDir q

theorem SameOutside.refl (path : List α) (tree : FileTree α β) : SameOutside path tree tree :=
  ⟨fun _ _ => rfl, fun _ _ => rfl⟩

theorem SameOutside.trans {path : List α} {first second third : FileTree α β}
    (h : SameOutside path first second) (h' : SameOutside path second third) :
    SameOutside path first third :=
  ⟨fun q hq => (h'.get q hq).trans (h.get q hq), fun q hq => (h'.isDir q hq).trans (h.isDir q hq)⟩

/-- A change at a path is a change inside every directory above it. -/
theorem sameOutside_set (tree : FileTree α β) (path below : List α)
    (value : Option (FileTree α β)) : SameOutside path tree (tree.set (path ++ below) value) := by
  constructor
  · intro q hq
    exact get_set_of_apart (hq.append below) value
  · intro q hq
    exact isDir_set (fun hpre => hq ((List.prefix_append path below).trans hpre)) value

/-! ## Operations -/

/-- `open` with `O_CREAT` and `O_TRUNC`, and a `write` of the whole content. -/
def write (tree : FileTree α β) (path : List α) (content : β) : Option (FileTree α β) :=
  if tree.isDir path.dropLast && !tree.isDir path then
    some (tree.set path (some (file content)))
  else none

/-- `mkdir`. -/
def createDir (tree : FileTree α β) (path : List α) : Option (FileTree α β) :=
  if tree.isDir path.dropLast && (tree.get path).isNone then
    some (tree.set path (some (dir [])))
  else none

/-- What `rename` may replace: a file by a file, an empty directory by a directory. -/
def canReplace : FileTree α β → Option (FileTree α β) → Bool
  | _, none => true
  | file _, some (file _) => true
  | dir _, some (dir entries) => entries.isEmpty
  | _, some _ => false

/-- `rename`. -/
def rename (tree : FileTree α β) (src dst : List α) : Option (FileTree α β) :=
  match tree.get src with
  | none => none
  | some moved =>
    if src = dst then some tree
    else if src <+: dst || !tree.isDir dst.dropLast || !canReplace moved (tree.get dst) then none
    else some ((tree.set src none).set dst (some moved))

/-- `unlink` of a file or `rmdir` of an empty directory. -/
def unlink (tree : FileTree α β) (path : List α) : Option (FileTree α β) :=
  match tree.get path with
  | some (file _) => some (tree.set path none)
  | some (dir []) => some (tree.set path none)
  | _ => none

theorem write_eq_some {tree result : FileTree α β} {path : List α} {content : β}
    (h : tree.write path content = some result) :
    tree.isDir path.dropLast ∧ result = tree.set path (some (file content)) := by
  unfold write at h
  split at h
  · rename_i hcond
    simp only [Bool.and_eq_true] at hcond
    exact ⟨hcond.1, (Option.some.inj h).symm⟩
  · cases h

theorem createDir_eq_some {tree result : FileTree α β} {path : List α}
    (h : tree.createDir path = some result) :
    tree.isDir path.dropLast ∧ tree.get path = none ∧
      result = tree.set path (some (dir [])) := by
  unfold createDir at h
  split at h
  · rename_i hcond
    simp only [Bool.and_eq_true, Option.isNone_iff_eq_none] at hcond
    exact ⟨hcond.1, hcond.2, (Option.some.inj h).symm⟩
  · cases h

/-- What a `rename` from `src` to a `dst` apart from it does: it moves what is at `src` and
    touches nothing else. -/
structure Moved (tree result : FileTree α β) (src dst : List α) : Prop where
  isSome : (tree.get src).isSome
  dst_eq : result.get dst = tree.get src
  src_eq : result.get src = none
  other : ∀ path, Apart src path → Apart dst path → result.get path = tree.get path
  isDir : ∀ path, ¬ src <+: path → ¬ dst <+: path → result.isDir path = tree.isDir path

theorem moved_of_rename {tree result : FileTree α β} {src dst : List α} (hsrc : src ≠ [])
    (hapart : Apart src dst) (h : tree.rename src dst = some result) :
    Moved tree result src dst := by
  unfold rename at h
  split at h
  · cases h
  · rename_i moved hmoved
    have hne : src ≠ dst := fun heq => hapart.1 (heq ▸ List.prefix_rfl)
    rw [if_neg hne] at h
    split at h
    · cases h
    · rename_i hcond
      simp only [Bool.or_eq_true, decide_eq_true_eq, Bool.not_eq_true', not_or,
        Bool.not_eq_false] at hcond
      cases h
      have hdst : dst ≠ [] := fun heq => hapart.2 (heq ▸ List.nil_prefix)
      obtain ⟨root, name, rfl⟩ := (List.eq_nil_or_concat src).resolve_left hsrc
      obtain ⟨parent, dstName, rfl⟩ := (List.eq_nil_or_concat dst).resolve_left hdst
      rw [List.concat_eq_append, List.concat_eq_append] at *
      have hroot : tree.isDir root := isDir_of_get_isSome (List.cons_ne_nil name []) (by simp [hmoved])
      have hparent : (tree.set (root ++ [name]) none).isDir parent := by
        rw [isDir_set fun hpre => hapart.1 (hpre.trans (List.prefix_append _ _))]
        simpa using hcond.1.2
      refine ⟨by simp [hmoved], ?_, ?_, ?_, ?_⟩
      · rw [get_set_self hparent, hmoved]
      · rw [get_set_of_apart hapart.symm, get_set_self hroot]
      · intro path hpath hpath'
        rw [get_set_of_apart hpath', get_set_of_apart hpath]
      · intro path hpath hpath'
        rw [isDir_set hpath', isDir_set hpath]

/-- A `rename` to a free name in a directory succeeds. -/
theorem rename_isSome {tree : FileTree α β} {src dst : List α} (hapart : Apart src dst)
    (hsrc : (tree.get src).isSome) (hdir : tree.isDir dst.dropLast)
    (hdst : tree.get dst = none) : (tree.rename src dst).isSome := by
  obtain ⟨moved, hmoved⟩ := Option.isSome_iff_exists.mp hsrc
  have hne : src ≠ dst := by
    intro heq
    rw [heq, hdst] at hmoved
    cases hmoved
  unfold rename
  cases moved <;> simp [hmoved, hne, hapart.1, hdir, hdst, canReplace]

theorem unlink_eq_some {tree result : FileTree α β} {path : List α}
    (h : tree.unlink path = some result) : result = tree.set path none := by
  unfold unlink at h
  split at h
  · exact (Option.some.inj h).symm
  · exact (Option.some.inj h).symm
  · cases h

end FileTree

end ForStd
