import Ivygrep.Native.WorkspaceFile

/-!
# Contained opens are contained, and the presence shortcut is sound

What `open` opens is a regular file beneath the root, with directories and no symlink on the way to
it. A `RootHandle` answers as `open` does. Its presence check follows symlinks, which the opener does
not; but where that check succeeds, no name before the opener's first obstacle is missing, and so the
opener does not fail with `NotFound`.

## Key results

- `openFile_contained`: what `open` opens
- `RootHandle.ReadsFrom.openFile`, `RootHandle.ReadsFrom.isMissing`: one read with a handle
- `contained_opens`: all of this for a new handle
- `RootHandle.reads_new`: every read of a run with one handle
-/

namespace Ivygrep.Native.WorkspaceFile

open ForStd.UnixFs

variable {α : Type} {fs directory node : Node α}

/-! ## Results -/

theorem mapError_eq_ok {result : Except Errno (Node α)}
    (h : result.mapError IoError.errno = .ok node) : result = .ok node := by
  cases result with
  | error errno => cases h
  | ok value => simpa [Except.mapError] using h

theorem bind_eq_ok {β γ : Type} {first : Except IoError β} {next : β → Except IoError γ} {value : γ}
    (h : first.bind next = .ok value) : ∃ result, first = .ok result ∧ next result = .ok value := by
  cases first with
  | error error => cases h
  | ok result => exact ⟨result, rfl, h⟩

/-- A step that finds its name leaves what comes next to decide. -/
theorem bind_ne_notFound {β γ : Type} {first : Except IoError β} {next : β → Except IoError γ}
    (hfirst : first ≠ .error (.errno .enoent))
    (hnext : ∀ result, first = .ok result → next result ≠ .error (.errno .enoent)) :
    first.bind next ≠ .error (.errno .enoent) := by
  cases first with
  | error error => exact fun h => hfirst (by cases h; rfl)
  | ok result => exact hnext result rfl

theorem openAt_eq_ok {name : Name} {asDirectory : Bool}
    (h : openAt directory name asDirectory = .ok node) :
    directory.openAt name asDirectory = .ok node := by
  unfold openAt at h
  split at h
  · cases h
  · exact mapError_eq_ok h

theorem openAt_ne_notFound {name : Name} (h : directory.entry name ≠ none) (asDirectory : Bool) :
    openAt directory name asDirectory ≠ .error (.errno .enoent) := by
  have hentry := Node.openAt_ne_enoent h asDirectory
  unfold openAt
  split
  · simp
  · cases hopen : directory.openAt name asDirectory with
    | ok node => simp [Except.mapError]
    | error errno =>
      rw [hopen] at hentry
      intro hfound
      exact hentry (by cases hfound; rfl)

/-! ## What is opened -/

/-- Every directory on the way is one, and so none of them is a symlink. -/
def DirectoriesTo (fs : Node α) (names : List Name) : Prop :=
  ∀ before, before <+: names → before ≠ names → ∃ entries, fs.lookup before = some (.dir entries)

theorem directoriesTo_nil (fs : Node α) : DirectoriesTo fs [] :=
  fun _ hprefix hne => absurd (List.prefix_nil.mp hprefix) hne

theorem DirectoriesTo.concat {names : List Name} {name : Name} {entries : List (Name × Node α)}
    (h : DirectoriesTo fs names) (hdir : fs.lookup names = some (.dir entries)) :
    DirectoriesTo fs (names ++ [name]) := by
  intro before hprefix hne
  rcases List.prefix_concat_iff.mp hprefix with heq | hbefore
  · exact absurd heq hne
  · by_cases heq : before = names
    · exact ⟨entries, heq ▸ hdir⟩
    · exact h before hbefore heq

/-- The loop over the root opens its names as directories. -/
theorem openRootComponents_eq_ok {place : List Name} {root : List Component}
    (hplace : fs.lookup place = some directory) (hto : DirectoriesTo fs place)
    (hdir : ∃ entries, directory = .dir entries)
    (h : openRootComponents directory root = .ok node) :
    ∃ names, root.filter (· ≠ .rootDir) = names.map .normal ∧
      fs.lookup (place ++ names) = some node ∧ DirectoriesTo fs (place ++ names) ∧
      ∃ entries, node = .dir entries := by
  induction root generalizing directory place with
  | nil =>
    obtain rfl := Except.ok.inj h
    exact ⟨[], rfl, by rwa [List.append_nil], by rwa [List.append_nil], hdir⟩
  | cons component root ih =>
    cases component with
    | rootDir => exact ih hplace hto hdir h
    | normal name =>
      obtain ⟨next, hnext, h⟩ := bind_eq_ok h
      obtain ⟨hentry, -, hasDir⟩ := Node.openAt_eq_ok (openAt_eq_ok hnext)
      obtain ⟨entries, hentries⟩ := hdir
      have hlookup : fs.lookup (place ++ [name]) = some next := by
        rw [Node.lookup_concat, hplace]
        exact hentry
      obtain ⟨names, hroot, hnode, hbefore, hlast⟩ :=
        ih hlookup (hto.concat (hentries ▸ hplace)) (hasDir rfl) h
      refine ⟨name :: names, ?_, ?_, ?_, hlast⟩
      · rw [List.filter_cons_of_pos (by simp), hroot]
        rfl
      · rwa [List.append_cons]
      · rwa [List.append_cons]
    | curDir => cases h
    | parentDir => cases h

theorem openBeneath_singleton (directory : Node α) (name : Name) :
    openBeneath directory [name] = openAt directory name false := rfl

theorem openBeneath_cons (directory : Node α) (name next : Name) (names : List Name) :
    openBeneath directory (name :: next :: names) =
      (openAt directory name true).bind (openBeneath · (next :: names)) := by
  obtain ⟨fileName, hlast⟩ : ∃ fileName, (next :: names).getLast? = some fileName :=
    ⟨_, List.getLast?_eq_some_getLast (List.cons_ne_nil next names)⟩
  simp only [openBeneath, List.getLast?_cons_cons, hlast, List.dropLast_cons_cons,
    List.foldlM_cons]
  cases openAt directory name true with
  | error error => rfl
  | ok parent => rfl

/-- The walk beneath the root opens directories and then one file. -/
theorem openBeneath_eq_ok {place names : List Name}
    (hplace : fs.lookup place = some directory) (hto : DirectoriesTo fs place)
    (hdir : ∃ entries, directory = .dir entries) (h : openBeneath directory names = .ok node) :
    fs.lookup (place ++ names) = some node ∧ DirectoriesTo fs (place ++ names) := by
  induction names generalizing directory place with
  | nil => cases h
  | cons name names ih =>
    obtain ⟨entries, hentries⟩ := hdir
    have hto' : DirectoriesTo fs (place ++ [name]) := hto.concat (hentries ▸ hplace)
    cases names with
    | nil =>
      rw [openBeneath_singleton] at h
      refine ⟨?_, hto'⟩
      rw [Node.lookup_concat, hplace]
      exact (Node.openAt_eq_ok (openAt_eq_ok h)).1
    | cons next names =>
      rw [openBeneath_cons] at h
      obtain ⟨parent, hparent, h⟩ := bind_eq_ok h
      obtain ⟨hentry, -, hasDir⟩ := Node.openAt_eq_ok (openAt_eq_ok hparent)
      have hlookup : fs.lookup (place ++ [name]) = some parent := by
        rw [Node.lookup_concat, hplace]
        exact hentry
      rw [List.append_cons]
      exact ih hlookup hto' (hasDir rfl) h

/-! ## Presence -/

section Presence

variable {follow : List Name → List PathPart → Option (List Name)} {place : List Name}

/-- The opener goes through the root as the walk does, until something is in its way. -/
theorem openRootComponents_present {segs tail : List PathPart}
    (hplace : fs.lookup place = some directory)
    (h : (walk fs follow place (segs ++ tail)).isSome) :
    openRootComponents directory (segs.filterMap Component.ofPart) ≠
        .error (.errno .enoent) ∧
      ∀ node, openRootComponents directory (segs.filterMap Component.ofPart) = .ok node →
        ∃ place, fs.lookup place = some node ∧ (walk fs follow place tail).isSome := by
  induction segs generalizing directory place with
  | nil =>
    refine ⟨by simp [openRootComponents], fun node hnode => ⟨place, ?_, h⟩⟩
    rw [hplace, ← Except.ok.inj hnode]
  | cons segment segs ih =>
    cases segment with
    | here => exact ih hplace (walk_here h)
    | parent =>
      refine ⟨?_, fun node hnode => ?_⟩
      · simp [Component.ofPart, openRootComponents]
      · cases hnode
    | name name =>
      obtain ⟨hentry, hnext⟩ := walk_name hplace h
      have hstep : ∀ next, openAt directory name true = .ok next →
          fs.lookup (place ++ [name]) = some next ∧
            (walk fs follow (place ++ [name]) (segs ++ tail)).isSome := by
        intro next hopen
        obtain ⟨hfound, -, hasDir⟩ := Node.openAt_eq_ok (openAt_eq_ok hopen)
        obtain ⟨entries, hdir⟩ := hasDir rfl
        refine ⟨?_, hnext entries (hdir ▸ hfound)⟩
        rw [Node.lookup_concat, hplace]
        exact hfound
      constructor
      · apply bind_ne_notFound (openAt_ne_notFound hentry true)
        intro next hopen
        exact (ih (hstep next hopen).1 (hstep next hopen).2).1
      · intro node hnode
        obtain ⟨next, hopen, hnode⟩ := bind_eq_ok hnode
        exact (ih (hstep next hopen).1 (hstep next hopen).2).2 node hnode

/-- Beneath the root, too. -/
theorem openBeneath_present {segs : List PathPart} {names : List Name}
    (hplace : fs.lookup place = some directory) (h : (walk fs follow place segs).isSome)
    (hnames : segs.filterMap Component.ofPart = names.map .normal) :
    openBeneath directory names ≠ .error (.errno .enoent) := by
  induction segs generalizing directory place names with
  | nil =>
    obtain rfl := List.map_eq_nil_iff.mp hnames.symm
    simp [openBeneath]
  | cons segment segs ih =>
    cases segment with
    | here => exact ih hplace (walk_here h) hnames
    | parent =>
      cases names with
      | nil => cases hnames
      | cons name names => cases hnames
    | name name =>
      obtain ⟨hentry, hnext⟩ := walk_name hplace h
      cases names with
      | nil => cases hnames
      | cons first names =>
        obtain ⟨hfirst, hrest⟩ := List.cons.inj hnames
        obtain rfl := Component.normal.inj hfirst
        cases names with
        | nil => exact openAt_ne_notFound hentry false
        | cons next names =>
          rw [openBeneath_cons]
          apply bind_ne_notFound (openAt_ne_notFound hentry true)
          intro parent hopen
          obtain ⟨hfound, -, hasDir⟩ := Node.openAt_eq_ok (openAt_eq_ok hopen)
          obtain ⟨entries, hdir⟩ := hasDir rfl
          apply ih _ (hnext entries (hdir ▸ hfound)) hrest
          rw [Node.lookup_concat, hplace]
          exact hfound

/-- A path that is found has no missing name before the opener's first obstacle. -/
theorem openComponents_present {maxLinks : Nat} {root whole : Path} {names : List Name}
    (hroot : isAbsolute root) (hnames : names ≠ [])
    (hwhole : (segments whole).filterMap Component.ofPart =
      (segments root).filterMap Component.ofPart ++ names.map .normal)
    (h : access fs maxLinks whole) :
    openComponents fs root names ≠ .error (.errno .enoent) := by
  obtain ⟨-, hresolve⟩ := of_decide_eq_true h
  obtain ⟨follow, hwalk⟩ := exists_walk_of_resolve hresolve
  obtain ⟨above, beneath, hsegments, habove, hbeneath⟩ := List.filterMap_eq_append_iff.mp hwhole
  rw [hsegments] at hwalk
  have hfs : (fs.openAs true).mapError IoError.errno ≠ .error (.errno .enoent) := by
    have hopen := fs.openAs_ne_enoent true
    cases hresult : fs.openAs true with
    | ok node => simp [Except.mapError]
    | error errno =>
      rw [hresult] at hopen
      intro hfound
      exact hopen (by cases hfound; rfl)
  unfold openComponents
  apply bind_ne_notFound hfs
  intro start hstart
  obtain ⟨rfl, -, -⟩ := Node.openAs_eq_ok (mapError_eq_ok hstart)
  rw [components, if_pos hroot, ← habove]
  have hplace : fs.lookup [] = some fs := rfl
  obtain ⟨hmissing, hopened⟩ := openRootComponents_present hplace hwalk
  apply bind_ne_notFound hmissing
  intro directory hdirectory
  obtain ⟨place, hplace, hrest⟩ := hopened directory hdirectory
  rw [if_neg hnames]
  exact openBeneath_present hplace hrest hbeneath

end Presence

/-! ## The names beneath a root -/

theorem allNormal_eq_some {relative : List Component} {names : List Name} :
    allNormal relative = some names ↔ relative = names.map .normal := by
  induction relative generalizing names with
  | nil => cases names <;> simp [allNormal]
  | cons component relative ih =>
    cases component with
    | normal name =>
      rw [allNormal, Option.map_eq_some_iff]
      constructor
      · rintro ⟨rest, hrest, rfl⟩
        rw [ih.mp hrest]
        rfl
      · intro h
        cases names with
        | nil => cases h
        | cons first names =>
          obtain ⟨hfirst, hrest⟩ := List.cons.inj h
          exact ⟨names, ih.mpr hrest, by rw [Component.normal.inj hfirst]⟩
    | rootDir => cases names <;> simp [allNormal]
    | curDir => cases names <;> simp [allNormal]
    | parentDir => cases names <;> simp [allNormal]

theorem stripPrefix_eq_some {path root : Path} {relative : List Component} :
    stripPrefix path root = some relative ↔ components path = components root ++ relative := by
  unfold stripPrefix
  constructor
  · intro h
    split at h
    · next hprefix =>
      obtain ⟨rest, hrest⟩ := hprefix
      rw [← hrest, List.drop_left] at h
      rw [← hrest, Option.some.inj h]
    · cases h
  · intro h
    rw [if_pos ⟨relative, h.symm⟩, h, List.drop_left]

/-- What is left of a path beneath a root: normal components. -/
def Beneath (root path : Path) (names : List Name) : Prop :=
  names ≠ [] ∧ (isAbsolute path = true ∧ components path = components root ++ names.map .normal ∨
    isAbsolute path = false ∧ components path = names.map .normal)

theorem relativeComponents_eq_ok {root path : Path} {names : List Name} :
    relativeComponents root path = .ok names ↔ Beneath root path names := by
  have hrelative : (if isAbsolute path then stripPrefix path root else some (components path)) =
      some (names.map .normal) ↔
        isAbsolute path = true ∧ components path = components root ++ names.map .normal ∨
          isAbsolute path = false ∧ components path = names.map .normal := by
    split
    · next habsolute => simp [stripPrefix_eq_some, habsolute]
    · next habsolute => simp [habsolute]
  rw [Beneath, ← hrelative]
  unfold relativeComponents
  cases (if isAbsolute path then stripPrefix path root else some (components path)) with
  | none => simp
  | some relative =>
    dsimp only
    rw [Option.some.injEq, ← allNormal_eq_some]
    cases allNormal relative with
    | none => simp
    | some found =>
      cases found with
      | nil => simp [eq_comm]
      | cons first rest =>
        rw [Except.ok.injEq, Option.some.injEq]
        constructor
        · rintro rfl
          exact ⟨List.cons_ne_nil first rest, rfl⟩
        · exact And.right

theorem relativeComponents_eq (root path : Path) :
    (∃ names, relativeComponents root path = .ok names) ∨
      relativeComponents root path = .error .unsafePath := by
  unfold relativeComponents
  split
  · exact .inr rfl
  · split
    · exact .inr rfl
    · exact .inr rfl
    · exact .inl ⟨_, rfl⟩

theorem components_of_absolute {path : Path} (h : isAbsolute path = true) :
    components path = .rootDir :: (segments path).filterMap Component.ofPart := if_pos h

/-- A relative path of normal components has no `.` in front. -/
theorem named_of_relative {path : Path} {names : List Name} (hrelative : isAbsolute path = false)
    (h : components path = names.map .normal) :
    (segments path).filterMap Component.ofPart = names.map .normal := by
  rw [components, if_neg (by simp [hrelative])] at h
  split at h
  · cases names <;> cases h
  · exact h

/-! ## Contained opens -/

/-- A file is contained at some names beneath a root: the names lead to it through directories. -/
structure Contained (fs : Node α) (root path : Path) (above names : List Name) (file : Node α) :
    Prop where
  absolute : isAbsolute root = true
  rootNames : components root = .rootDir :: above.map .normal
  beneath : Beneath root path names
  directories : DirectoriesTo fs (above ++ names)
  lookup : fs.lookup (above ++ names) = some file
  isFile : ∃ content, file = .file content

theorem regularFile_eq_ok {file : Node α} (h : regularFile node = .ok file) :
    node = file ∧ ∃ content, file = .file content := by
  cases node with
  | file content =>
    obtain rfl := Except.ok.inj h
    exact ⟨rfl, content, rfl⟩
  | dir entries => cases h
  | symlink target => cases h
  | special opens => cases h

theorem filter_rootDir_named (root : Path) :
    ((segments root).filterMap Component.ofPart).filter (· ≠ .rootDir) =
      (segments root).filterMap Component.ofPart := by
  apply List.filter_eq_self.mpr
  intro component hcomponent
  obtain ⟨segment, -, hsegment⟩ := List.mem_filterMap.mp hcomponent
  cases segment <;> simp [Component.ofPart] at hsegment <;> simp [← hsegment]

/-- What `open` opens is a regular file beneath the root, and no name on the way is a symlink. -/
theorem openFile_contained {root path : Path} {file : Node α}
    (h : openFile fs root path = .ok file) :
    ∃ above names, Contained fs root path above names file := by
  unfold openFile at h
  split at h
  · cases h
  · next habsolute =>
    have habsolute : isAbsolute root = true := by simpa using habsolute
    obtain ⟨names, hnames, hwhole⟩ := bind_eq_ok h
    obtain ⟨opened, hopened, hregular⟩ := bind_eq_ok hwhole
    obtain ⟨start, hstart, hwalk⟩ := bind_eq_ok hopened
    obtain ⟨directory, hdirectory, hlast⟩ := bind_eq_ok hwalk
    obtain ⟨rfl, -, hasDir⟩ := Node.openAs_eq_ok (mapError_eq_ok hstart)
    have hplace : fs.lookup [] = some fs := rfl
    obtain ⟨above, habove, hlookup, hto, hdir⟩ :=
      openRootComponents_eq_ok hplace (directoriesTo_nil fs) (hasDir rfl) hdirectory
    have hbeneath := relativeComponents_eq_ok.mp hnames
    rw [if_neg hbeneath.1] at hlast
    obtain ⟨hfound, hto⟩ := openBeneath_eq_ok hlookup hto hdir hlast
    obtain ⟨rfl, hfile⟩ := regularFile_eq_ok hregular
    rw [components, if_pos habsolute, List.filter_cons_of_neg (by simp),
      filter_rootDir_named] at habove
    refine ⟨above, names, habsolute, ?_, hbeneath, hto, hfound, hfile⟩
    rw [components, if_pos habsolute, habove]

/-! ## Handles -/

theorem openRoot_eq_ok {root : Path} (h : openRoot fs root = .ok directory) :
    isAbsolute root = true ∧ openComponents fs root [] = .ok directory := by
  unfold openRoot at h
  split at h
  · cases h
  · next habsolute =>
    obtain ⟨opened, hopened, h⟩ := bind_eq_ok h
    refine ⟨by simpa using habsolute, ?_⟩
    cases opened with
    | dir entries => exact hopened.trans (congrArg _ (Except.ok.inj h))
    | file content => cases h
    | symlink target => cases h
    | special opens => cases h

/-- Below a root that validates, `open` reads from its directory. -/
theorem openComponents_of_openRoot {root : Path} {names : List Name}
    (h : openComponents fs root [] = .ok directory) (hnames : names ≠ []) :
    openComponents fs root names = openBeneath directory names := by
  obtain ⟨start, hstart, h⟩ := bind_eq_ok h
  obtain ⟨opened, hopened, h⟩ := bind_eq_ok h
  obtain rfl := Except.ok.inj h
  unfold openComponents
  rw [hstart]
  show (openRootComponents start (components root)).bind _ = _
  rw [hopened]
  exact if_neg hnames

/-- The directory that a handle has kept is that of its root. -/
def RootHandle.ReadsFrom (handle : RootHandle α) (fs : Node α) : Prop :=
  ∀ directory, handle.directory = some directory →
    directory = (openRoot fs handle.root).toOption

namespace RootHandle

variable {handle : RootHandle α} {path : Path}

theorem readsFrom_new (root : Path) (fs : Node α) : (new root).ReadsFrom fs :=
  fun _ h => by cases h

theorem ReadsFrom.validated (h : handle.ReadsFrom fs) :
    handle.validated fs = (openRoot fs handle.root).toOption := by
  unfold RootHandle.validated
  cases hdirectory : handle.directory with
  | none => rfl
  | some directory => exact h directory hdirectory

theorem ReadsFrom.opened (h : handle.ReadsFrom fs) : (handle.opened fs).ReadsFrom fs := by
  intro directory hdirectory
  rw [← Option.some.inj hdirectory]
  exact h.validated

theorem openFile_snd (handle : RootHandle α) (fs : Node α) (path : Path) :
    (handle.openFile fs path).2 = handle.opened fs := by
  unfold openFile
  split <;> rfl

/-- A handle opens what `open` does. -/
theorem ReadsFrom.openFile (h : handle.ReadsFrom fs) (path : Path) :
    (handle.openFile fs path).1 = WorkspaceFile.openFile fs handle.root path := by
  unfold RootHandle.openFile
  rw [h.validated]
  cases hroot : openRoot fs handle.root with
  | error error => rfl
  | ok directory =>
    obtain ⟨habsolute, hdirectory⟩ := openRoot_eq_ok hroot
    show Except.bind _ _ = _
    unfold WorkspaceFile.openFile
    rw [if_neg (by simp [habsolute])]
    rcases relativeComponents_eq handle.root path with ⟨names, hnames⟩ | hnames
    · rw [hnames]
      show (openBeneath directory names).bind _ = (openComponents fs handle.root names).bind _
      rw [openComponents_of_openRoot hdirectory (relativeComponents_eq_ok.mp hnames).1]
    · rw [hnames]
      rfl

/-- The path that the presence check asks for has the names of the root and those beneath it. -/
theorem segments_presencePath {names : List Name} (hroot : isAbsolute handle.root = true)
    (h : Beneath handle.root path names) :
    (segments (handle.presencePath path)).filterMap Component.ofPart =
      (segments handle.root).filterMap Component.ofPart ++ names.map .normal := by
  have hrootNames := components_of_absolute hroot
  unfold presencePath
  rcases h.2 with ⟨habsolute, hpath⟩ | ⟨hrelative, hpath⟩
  · rw [if_pos habsolute]
    rw [components_of_absolute habsolute, hrootNames] at hpath
    exact (List.cons.inj hpath).2
  · rw [if_neg (by simp [hrelative]), ← named_of_relative hrelative hpath]
    split
    · next hlast =>
      obtain ⟨before, hbefore⟩ := List.getLast?_eq_some_iff.mp hlast
      rw [hbefore, List.append_assoc, List.singleton_append, segments_append, segments_append,
        List.filterMap_append, List.filterMap_append]
      simp [segments_nil, Component.ofPart]
    · rw [segments_append, List.filterMap_append]

/-- A file that is present is not missing to the opener. -/
theorem openFile_of_present {maxLinks : Nat} {names : List Name}
    (hroot : isAbsolute handle.root = true) (h : Beneath handle.root path names)
    (hpresent : handle.pathIsPresent fs maxLinks path) :
    WorkspaceFile.openFile fs handle.root path ≠ .error (.errno .enoent) := by
  unfold WorkspaceFile.openFile
  rw [if_neg (by simp [hroot]), relativeComponents_eq_ok.mpr h]
  show (openComponents fs handle.root names).bind _ ≠ _
  apply bind_ne_notFound
  · exact openComponents_present hroot h.1 (segments_presencePath hroot h) hpresent
  · intro file _
    cases file <;> simp [regularFile]

/-- The shortcut takes only what it finds beneath the root. -/
theorem isPresent_eq_true {maxLinks : Nat} (h : handle.isPresent fs maxLinks path = true) :
    isAbsolute handle.root = true ∧ handle.pathIsPresent fs maxLinks path = true ∧
      ∃ names, Beneath handle.root path names := by
  unfold isPresent at h
  split at h
  · next hnew =>
    obtain ⟨-, hroot⟩ := Bool.and_eq_true_iff.mp hnew
    split at h
    · cases h
    · next relative hrelative =>
      rw [Bool.and_eq_true, Bool.and_eq_true] at h
      obtain ⟨⟨hne, hnormal⟩, hpresent⟩ := h
      obtain ⟨names, hnames⟩ := Option.isSome_iff_exists.mp hnormal
      refine ⟨hroot, hpresent, names, relativeComponents_eq_ok.mp ?_⟩
      unfold relativeComponents
      rw [hrelative]
      dsimp only
      rw [hnames]
      cases names with
      | nil =>
        rw [allNormal_eq_some.mp hnames] at hne
        cases hne
      | cons name names => rfl
  · cases h

theorem isNotFound_eq_true {result : Except IoError (Node α)} :
    isNotFound result = true ↔ result = .error (.errno .enoent) := by
  cases result <;> simp [isNotFound]

/-- The shortcut does not change what is missing. -/
theorem ReadsFrom.isMissing (h : handle.ReadsFrom fs) (maxLinks : Nat) (path : Path) :
    (handle.isMissing fs maxLinks path).1 = true ↔
      WorkspaceFile.openFile fs handle.root path = .error (.errno .enoent) := by
  unfold RootHandle.isMissing
  split
  · next hpresent =>
    obtain ⟨hroot, hfound, names, hnames⟩ := isPresent_eq_true hpresent
    simpa using openFile_of_present hroot hnames hfound
  · rw [← h.openFile path]
    exact isNotFound_eq_true

theorem isMissing_snd (handle : RootHandle α) (fs : Node α) (maxLinks : Nat) (path : Path) :
    (handle.isMissing fs maxLinks path).2 = handle ∨
      (handle.isMissing fs maxLinks path).2 = handle.opened fs := by
  unfold RootHandle.isMissing
  split
  · exact .inl rfl
  · exact .inr (handle.openFile_snd fs path)

/-- A read leaves the root of a handle and what it reads from. -/
theorem ReadsFrom.read (h : handle.ReadsFrom fs) (maxLinks : Nat) (read : Read) :
    (handle.read fs maxLinks read).2.ReadsFrom fs ∧
      (handle.read fs maxLinks read).2.root = handle.root := by
  cases read with
  | openFile path =>
    show (handle.openFile fs path).2.ReadsFrom fs ∧ (handle.openFile fs path).2.root = _
    rw [openFile_snd]
    exact ⟨h.opened, rfl⟩
  | isMissing path =>
    show (handle.isMissing fs maxLinks path).2.ReadsFrom fs ∧
      (handle.isMissing fs maxLinks path).2.root = _
    rcases isMissing_snd handle fs maxLinks path with heq | heq
    · rw [heq]
      exact ⟨h, rfl⟩
    · rw [heq]
      exact ⟨h.opened, rfl⟩

end RootHandle

/-- What a read answers that has no handle. -/
def alone (fs : Node α) (root : Path) : Read → Except IoError (Node α) ⊕ Bool
  | .openFile path => .inl (openFile fs root path)
  | .isMissing path => .inr (isNotFound (openFile fs root path))

/-- However many reads a handle serves, each of them is answered as if it were alone. -/
theorem RootHandle.reads_new (fs : Node α) (maxLinks : Nat) (root : Path) (reads : List Read) :
    (RootHandle.new root).reads fs maxLinks reads = reads.map (alone fs root) := by
  have hreads : ∀ handle : RootHandle α, handle.ReadsFrom fs →
      handle.reads fs maxLinks reads = reads.map (alone fs handle.root) := by
    induction reads with
    | nil => exact fun _ _ => rfl
    | cons read reads ih =>
      intro handle h
      obtain ⟨hnext, hroot⟩ := h.read maxLinks read
      have hanswer : (handle.read fs maxLinks read).1 = alone fs handle.root read := by
        cases read with
        | openFile path => exact congrArg Sum.inl (h.openFile path)
        | isMissing path =>
          apply congrArg Sum.inr
          rw [Bool.eq_iff_iff, isNotFound_eq_true]
          exact h.isMissing maxLinks path
      rw [List.map_cons, ← hanswer, ← hroot, ← ih _ hnext]
      rfl
  exact hreads (RootHandle.new root) (RootHandle.readsFrom_new root fs)

/-- What `open` opens is contained; a new handle opens the same, and what it says is missing is what
    `open` does not find. -/
theorem contained_opens (fs : Node α) (maxLinks : Nat) (root path : Path) :
    (∀ file, openFile fs root path = .ok file →
      ∃ above names, Contained fs root path above names file) ∧
    ((RootHandle.new root).openFile fs path).1 = openFile fs root path ∧
    (((RootHandle.new root).isMissing fs maxLinks path).1 = true ↔
      openFile fs root path = .error (.errno .enoent)) :=
  ⟨fun _ h => openFile_contained h, (RootHandle.readsFrom_new root fs).openFile path,
    (RootHandle.readsFrom_new root fs).isMissing maxLinks path⟩

/-- A workspace with a symlink out of it. -/
def sampleFs : Node Nat :=
  .dir [([0x77], .dir [([0x61], .file 7), ([0x6c], .symlink [0x2f, 0x6f])]), ([0x6f], .dir [])]

theorem contained_opens_sample :
    (∃ above names, Contained sampleFs [0x2f, 0x77] [0x61] above names (.file 7)) ∧
      ((RootHandle.new [0x2f, 0x77]).isMissing sampleFs 1 [0x6c, 0x2f, 0x61]).1 = false := by
  obtain ⟨hopened, -, -⟩ := contained_opens sampleFs 1 [0x2f, 0x77] [0x61]
  obtain ⟨-, -, hmissing⟩ := contained_opens sampleFs 1 [0x2f, 0x77] [0x6c, 0x2f, 0x61]
  refine ⟨hopened _ rfl, ?_⟩
  rw [Bool.eq_false_iff, ne_eq, hmissing]
  intro h
  cases h

end Ivygrep.Native.WorkspaceFile
