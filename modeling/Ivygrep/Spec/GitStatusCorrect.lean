import Ivygrep.Native.GitStatus
import Ivygrep.Spec.MerkleBuild
import Ivygrep.Spec.StrCorrect

/-!
# One change for each path that Git reports

The parsers read back the entries that Git wrote, whatever bytes their paths have, and the changes
are the fold of what the entries report.

## Key results

- `mergeNameStatus_encode`, `mergePorcelainStatus_encode`: the parsers as folds over the entries
- `gitStatus_correct`: the changes that both formats leave
- `gitStatus_normalizes_paths`: paths with `..` are merged, and ignored paths leave no change
-/

namespace Ivygrep.Native

/-! ## What an entry reports -/

/-- What an entry with an accepted path says. -/
structure EntryReport where
  path : List Str
  oldPath : Option (List Str)
  statuses : List (ContextChangeStatus × ContextChangeSource)

def NameStatusEntry.report (source : ContextChangeSource) (workspacePrefix : RelPath)
    (entry : NameStatusEntry) : Option EntryReport :=
  (workspaceRelativePath entry.path workspacePrefix).map fun path =>
    { path := path
      oldPath := entry.oldPath.bind fun old => workspaceRelativePath old workspacePrefix
      statuses := [(letterStatus (statusCode (Str.bytes entry.status)), source)] }

/-- A path that is untracked or unmerged, or what its two letters say. -/
def PorcelainEntry.statuses (entry : PorcelainEntry) :
    List (ContextChangeStatus × ContextChangeSource) :=
  if entry.indexStatus = 0x3F ∧ entry.worktreeStatus = 0x3F then [(.added, .untracked)]
  else if isUnmergedPair entry.indexStatus entry.worktreeStatus then
    [(.unmerged, .staged), (.unmerged, .worktree)]
  else
    ([(entry.indexStatus, ContextChangeSource.staged), (entry.worktreeStatus, .worktree)].filter
      fun side => !reportsNoChange side.1).map fun side => (letterStatus side.1, side.2)

def PorcelainEntry.report (workspacePrefix : RelPath) (entry : PorcelainEntry) :
    Option EntryReport :=
  (workspaceRelativePath entry.path workspacePrefix).map fun path =>
    { path := path
      oldPath := entry.oldPath.bind fun old => workspaceRelativePath old workspacePrefix
      statuses := entry.statuses }

def applyReport (changes : ContextChanges) (report : EntryReport) : ContextChanges :=
  report.statuses.foldl
    (fun changes status => mergeChange changes report.path report.oldPath status.1 status.2) changes

/-! ## Fields -/

theorem statusFields_cons {field : List UInt8} (h : IsField field) (rest : List UInt8) :
    statusFields (field ++ 0 :: rest) = field :: statusFields rest := by
  have hne : field.isEmpty = false := by simpa using h.1
  rw [statusFields, List.splitOn_append_cons_self_of_not_mem h.2]
  simp [hne, statusFields]

/-- The fields that were written are read. -/
theorem statusFields_encode {fields : List (List UInt8)} (h : ∀ field ∈ fields, IsField field) :
    statusFields (encodeFields fields) = fields := by
  induction fields with
  | nil => rfl
  | cons field fields ih =>
    have hsplit : encodeFields (field :: fields) = field ++ 0 :: encodeFields fields := by
      simp [encodeFields]
    rw [hsplit, statusFields_cons (h field (by simp)),
      ih fun other hother => h other (List.mem_cons_of_mem _ hother)]

theorem NameStatusEntry.isField (entry : NameStatusEntry) :
    ∀ field ∈ entry.fields, IsField field := by
  intro field hfield
  simp only [fields, List.mem_cons, List.mem_append, Option.mem_toList, List.not_mem_nil,
    or_false] at hfield
  rcases hfield with rfl | hold | rfl
  · exact entry.status_field
  · exact entry.old_field field hold
  · exact entry.path_field

theorem PorcelainEntry.isField (entry : PorcelainEntry) :
    ∀ field ∈ entry.fields, IsField field := by
  intro field hfield
  rw [fields, List.mem_cons, Option.mem_toList] at hfield
  rcases hfield with rfl | hold
  · have hzero := entry.path_field.2
    refine ⟨List.cons_ne_nil _ _, ?_⟩
    simp [hzero, entry.index_ne.symm, entry.worktree_ne.symm]
  · exact entry.old_field field hold

/-! ## The parsers -/

theorem mergeNamed_eq (source : ContextChangeSource) (workspacePrefix : RelPath)
    (changes : ContextChanges) (entry : NameStatusEntry) :
    mergeNamed source workspacePrefix changes (statusCode (Str.bytes entry.status))
        (entry.oldPath.bind fun old => workspaceRelativePath old workspacePrefix) entry.path =
      (entry.report source workspacePrefix).toList.foldl applyReport changes := by
  unfold mergeNamed NameStatusEntry.report
  cases workspaceRelativePath entry.path workspacePrefix <;> rfl

theorem mergeNameStatusFrom_cons (source : ContextChangeSource) (workspacePrefix : RelPath)
    (changes : ContextChanges) {status : List UInt8} (second : List UInt8) (rest : List (List UInt8))
    (h : isRenameOrCopy (statusCode status) = false) :
    mergeNameStatusFrom source workspacePrefix changes (status :: second :: rest) =
      mergeNameStatusFrom source workspacePrefix
        (mergeNamed source workspacePrefix changes (statusCode status) none second) rest := by
  cases rest <;> simp [mergeNameStatusFrom, h]

/-- One entry is read as a whole, whether its paths are accepted or not. -/
theorem mergeNameStatusFrom_fields (source : ContextChangeSource) (workspacePrefix : RelPath)
    (changes : ContextChanges) (entry : NameStatusEntry) (rest : List (List UInt8)) :
    mergeNameStatusFrom source workspacePrefix changes (entry.fields ++ rest) =
      mergeNameStatusFrom source workspacePrefix
        ((entry.report source workspacePrefix).toList.foldl applyReport changes) rest := by
  rw [← mergeNamed_eq]
  have htwo := entry.old_isSome
  cases hold : entry.oldPath with
  | none =>
    rw [hold] at htwo
    simp only [NameStatusEntry.fields, hold, Option.toList_none, List.nil_append,
      List.cons_append]
    exact mergeNameStatusFrom_cons source workspacePrefix changes entry.path rest htwo.symm
  | some old =>
    rw [hold] at htwo
    simp only [NameStatusEntry.fields, hold, Option.toList_some, List.cons_append, List.nil_append,
      mergeNameStatusFrom]
    rw [if_pos (by simp [← htwo])]
    rfl

theorem mergeNameStatus_encode (changes : ContextChanges) (source : ContextChangeSource)
    (workspacePrefix : RelPath) (entries : List NameStatusEntry) :
    mergeNameStatus changes (encodeNameStatus entries) source workspacePrefix =
      (entries.filterMap (NameStatusEntry.report source workspacePrefix)).foldl applyReport
        changes := by
  have hfields : ∀ field ∈ entries.flatMap NameStatusEntry.fields, IsField field := by
    intro field hfield
    obtain ⟨entry, -, hmem⟩ := List.mem_flatMap.mp hfield
    exact entry.isField field hmem
  rw [mergeNameStatus, encodeNameStatus, statusFields_encode hfields]
  clear hfields
  induction entries generalizing changes with
  | nil => rfl
  | cons entry entries ih =>
    rw [List.flatMap_cons, mergeNameStatusFrom_fields, ih]
    cases hreport : entry.report source workspacePrefix with
    | none => rw [List.filterMap_cons_none hreport]; rfl
    | some report => rw [List.filterMap_cons_some hreport]; rfl

theorem mergeSide_foldl (path : List Str) (oldPath : Option (List Str))
    (sides : List (UInt8 × ContextChangeSource)) (changes : ContextChanges) :
    sides.foldl (mergeSide path oldPath) changes =
      ((sides.filter fun side => !reportsNoChange side.1).map
        fun side => (letterStatus side.1, side.2)).foldl
        (fun changes status => mergeChange changes path oldPath status.1 status.2) changes := by
  induction sides generalizing changes with
  | nil => rfl
  | cons side sides ih =>
    rw [List.foldl_cons, ih, mergeSide]
    cases hside : reportsNoChange side.1 <;> simp [hside]

/-- Only a rename or a copy has an old path, and such an entry is not an untracked one. -/
theorem PorcelainEntry.oldPath_of_untracked {entry : PorcelainEntry}
    (h : entry.indexStatus = 0x3F ∧ entry.worktreeStatus = 0x3F) : entry.oldPath = none := by
  have hnone := entry.old_isSome
  rw [h.1, h.2] at hnone
  simpa [isRenameOrCopy] using hnone

theorem mergePorcelainEntry_eq (workspacePrefix : RelPath) (changes : ContextChanges)
    (entry : PorcelainEntry) :
    (match workspaceRelativePath entry.path workspacePrefix with
      | none => changes
      | some path => mergePorcelainEntry changes entry.indexStatus entry.worktreeStatus path
          (entry.oldPath.bind fun old => workspaceRelativePath old workspacePrefix)) =
      (entry.report workspacePrefix).toList.foldl applyReport changes := by
  unfold PorcelainEntry.report
  cases workspaceRelativePath entry.path workspacePrefix with
  | none => rfl
  | some path =>
    show mergePorcelainEntry _ _ _ _ _ = applyReport _ _
    unfold mergePorcelainEntry applyReport PorcelainEntry.statuses
    by_cases huntracked : entry.indexStatus = 0x3F ∧ entry.worktreeStatus = 0x3F
    · rw [if_pos huntracked, if_pos huntracked, entry.oldPath_of_untracked huntracked]
      rfl
    · rw [if_neg huntracked, if_neg huntracked]
      cases hunmerged : isUnmergedPair entry.indexStatus entry.worktreeStatus with
      | true => rfl
      | false => exact mergeSide_foldl path _ _ changes

/-- One entry is read as a whole, whether its paths are accepted or not. -/
theorem mergePorcelainFrom_fields (workspacePrefix : RelPath) (changes : ContextChanges)
    (entry : PorcelainEntry) (rest : List (List UInt8)) :
    mergePorcelainFrom workspacePrefix changes (entry.fields ++ rest) =
      mergePorcelainFrom workspacePrefix
        ((entry.report workspacePrefix).toList.foldl applyReport changes) rest := by
  rw [← mergePorcelainEntry_eq]
  have htwo := entry.old_isSome
  obtain ⟨first, name, hpath⟩ := List.exists_cons_of_ne_nil entry.path_field.1
  cases hold : entry.oldPath with
  | none =>
    rw [hold] at htwo
    simp only [PorcelainEntry.fields, hold, hpath, Option.toList_none, List.cons_append,
      List.nil_append, mergePorcelainFrom]
    rw [if_neg (by simp), if_neg (by simp [← htwo])]
    rfl
  | some old =>
    rw [hold] at htwo
    simp only [PorcelainEntry.fields, hold, hpath, Option.toList_some, List.cons_append,
      List.nil_append, mergePorcelainFrom]
    rw [if_neg (by simp), if_pos (by simp [← htwo])]
    rfl

theorem mergePorcelainStatus_encode (changes : ContextChanges) (workspacePrefix : RelPath)
    (entries : List PorcelainEntry) :
    mergePorcelainStatus changes (encodePorcelain entries) workspacePrefix =
      (entries.filterMap (PorcelainEntry.report workspacePrefix)).foldl applyReport changes := by
  have hfields : ∀ field ∈ entries.flatMap PorcelainEntry.fields, IsField field := by
    intro field hfield
    obtain ⟨entry, -, hmem⟩ := List.mem_flatMap.mp hfield
    exact entry.isField field hmem
  rw [mergePorcelainStatus, encodePorcelain, statusFields_encode hfields]
  clear hfields
  induction entries generalizing changes with
  | nil => rfl
  | cons entry entries ih =>
    rw [List.flatMap_cons, mergePorcelainFrom_fields, ih]
    cases hreport : entry.report workspacePrefix with
    | none => rw [List.filterMap_cons_none hreport]; rfl
    | some report => rw [List.filterMap_cons_some hreport]; rfl

/-! ## The changes -/

/-- One call of `merge_change`. -/
structure Mention where
  path : List Str
  oldPath : Option (List Str)
  status : ContextChangeStatus
  source : ContextChangeSource

def EntryReport.mentions (report : EntryReport) : List Mention :=
  report.statuses.map fun status => ⟨report.path, report.oldPath, status.1, status.2⟩

def mergeMention (changes : ContextChanges) (mention : Mention) : ContextChanges :=
  mergeChange changes mention.path mention.oldPath mention.status mention.source

theorem foldl_applyReport (changes : ContextChanges) (reports : List EntryReport) :
    reports.foldl applyReport changes =
      (reports.flatMap EntryReport.mentions).foldl mergeMention changes := by
  have hone : applyReport = fun changes report => report.mentions.foldl mergeMention changes := by
    funext changes report
    rw [EntryReport.mentions, List.foldl_map]
    rfl
  rw [List.foldl_flatMap, hone]

/-- The change that the mentions of a path make. -/
def changeOf (path : List Str) : List Mention → Option ContextChange
  | [] => none
  | mention :: mentions =>
    some
      { filePath := path
        oldPath := (mention :: mentions).findSome? Mention.oldPath
        status := (mentions.map Mention.status).foldl mergeStatus mention.status
        sources := (mention :: mentions).foldl
          (fun sources mention => addSource sources mention.source) [] }

@[simp] theorem mergeStatus_self (status : ContextChangeStatus) :
    mergeStatus status status = status := by
  cases status <;> rfl

theorem changeOf_concat (path : List Str) (mentions : List Mention) (mention : Mention) :
    changeOf path (mentions ++ [mention]) =
      some
        (let change := (changeOf path mentions).getD ⟨path, none, mention.status, []⟩
        { filePath := change.filePath
          oldPath := change.oldPath.or mention.oldPath
          status := mergeStatus change.status mention.status
          sources := addSource change.sources mention.source }) := by
  cases mentions with
  | nil => simp [changeOf]
  | cons first mentions =>
    have hold : (first :: (mentions ++ [mention])).findSome? Mention.oldPath =
        ((first :: mentions).findSome? Mention.oldPath).or mention.oldPath := by
      rw [← List.cons_append, List.findSome?_append]
      cases hmention : mention.oldPath <;> simp [hmention]
    have hsources : (first :: (mentions ++ [mention])).foldl
        (fun sources mention => addSource sources mention.source) [] =
        addSource ((first :: mentions).foldl
          (fun sources mention => addSource sources mention.source) []) mention.source := by
      rw [← List.cons_append, List.foldl_concat]
    rw [List.cons_append, changeOf, hold, hsources, List.map_append, List.foldl_append]
    rfl

theorem getElem?_mergeMention (changes : ContextChanges) (mention : Mention) (path : List Str) :
    (mergeMention changes mention)[path]? =
      if mention.path = path then
        some
          (let change := changes[path]?.getD ⟨path, none, mention.status, []⟩
          { filePath := change.filePath
            oldPath := change.oldPath.or mention.oldPath
            status := mergeStatus change.status mention.status
            sources := addSource change.sources mention.source })
      else changes[path]? := by
  unfold mergeMention mergeChange
  rw [Std.ExtTreeMap.getElem?_insert]
  by_cases hpath : mention.path = path
  · subst hpath
    simp
  · simp [hpath]

theorem foldl_mergeMention (mentions : List Mention) (path : List Str) :
    (mentions.foldl mergeMention (∅ : ContextChanges))[path]? =
      changeOf path (mentions.filter fun mention => mention.path = path) := by
  induction mentions using List.reverseRecOn with
  | nil => simp [changeOf]
  | append_singleton mentions mention ih =>
    rw [List.foldl_concat, List.filter_append, getElem?_mergeMention, ih]
    by_cases hpath : mention.path = path
    · subst hpath
      simp [changeOf_concat]
    · simp [hpath]

/-- `addSource` keeps what is there and adds the source once. -/
theorem mem_addSource {sources : List ContextChangeSource} {source other : ContextChangeSource} :
    other ∈ addSource sources source ↔ other ∈ sources ∨ other = source := by
  unfold addSource
  split
  · next hmem =>
    constructor
    · exact .inl
    · rintro (hold | rfl)
      · exact hold
      · exact hmem
  · simp

theorem addSource_nodup {sources : List ContextChangeSource} (h : sources.Nodup)
    (source : ContextChangeSource) : (addSource sources source).Nodup := by
  unfold addSource
  split
  · exact h
  · next hnot =>
    rw [(List.mergeSort_perm _ _).nodup_iff]
    exact List.nodup_append.mpr ⟨h, List.nodup_singleton _, by
      intro other hother last hlast heq
      rw [List.mem_singleton.mp hlast] at heq
      exact hnot (heq ▸ hother)⟩

theorem foldl_addSource (mentions : List Mention) (sources : List ContextChangeSource)
    (h : sources.Nodup) :
    (mentions.foldl (fun sources mention => addSource sources mention.source) sources).Nodup ∧
      ∀ source, source ∈ mentions.foldl
          (fun sources mention => addSource sources mention.source) sources ↔
        source ∈ sources ∨ ∃ mention ∈ mentions, mention.source = source := by
  induction mentions generalizing sources with
  | nil => exact ⟨h, by simp⟩
  | cons mention mentions ih =>
    obtain ⟨hnodup, hmem⟩ := ih (addSource sources mention.source) (addSource_nodup h _)
    refine ⟨hnodup, fun source => ?_⟩
    rw [List.foldl_cons, hmem, mem_addSource, or_assoc]
    simp [eq_comm]

/-! ## Reports of one path -/

theorem filter_mentions (reports : List EntryReport) (path : List Str) :
    (reports.flatMap EntryReport.mentions).filter (fun mention => mention.path = path) =
      (reports.filter fun report => report.path = path).flatMap EntryReport.mentions := by
  induction reports with
  | nil => rfl
  | cons report reports ih =>
    have hone : report.mentions.filter (fun mention => mention.path = path) =
        if report.path = path then report.mentions else [] := by
      unfold EntryReport.mentions
      rw [List.filter_map]
      by_cases hpath : report.path = path <;> simp [Function.comp_def, hpath]
    rw [List.flatMap_cons, List.filter_append, ih, hone, List.filter_cons]
    by_cases hpath : report.path = path <;> simp [hpath]

/-- A report without a status has no old path. -/
def EntryReport.Tells (report : EntryReport) : Prop :=
  report.statuses = [] → report.oldPath = none

theorem findSome?_mentions {reports : List EntryReport}
    (h : ∀ report ∈ reports, report.Tells) :
    (reports.flatMap EntryReport.mentions).findSome? Mention.oldPath =
      reports.findSome? EntryReport.oldPath := by
  induction reports with
  | nil => rfl
  | cons report reports ih =>
    have hone : report.mentions.findSome? Mention.oldPath = report.oldPath := by
      unfold EntryReport.mentions
      cases hstatuses : report.statuses with
      | nil => exact (h report (by simp) hstatuses).symm
      | cons status statuses =>
        cases hold : report.oldPath with
        | none => simp [List.findSome?_map, Function.comp_def]
        | some old => simp
    rw [List.flatMap_cons, List.findSome?_append, hone,
      ih fun other hother => h other (List.mem_cons_of_mem _ hother), List.findSome?_cons]
    cases report.oldPath <;> rfl

theorem NameStatusEntry.tells {source : ContextChangeSource} {workspacePrefix : RelPath}
    {entry : NameStatusEntry} {report : EntryReport}
    (h : entry.report source workspacePrefix = some report) : report.Tells := by
  obtain ⟨path, -, rfl⟩ := Option.map_eq_some_iff.mp h
  intro hnone
  cases hnone

/-- An entry with an old path has a letter `R` or `C`, which reports a change. -/
theorem PorcelainEntry.tells {workspacePrefix : RelPath} {entry : PorcelainEntry}
    {report : EntryReport} (h : entry.report workspacePrefix = some report) : report.Tells := by
  obtain ⟨path, -, rfl⟩ := Option.map_eq_some_iff.mp h
  intro hnone
  have hstatuses : entry.statuses = [] := hnone
  have hold := entry.old_isSome
  have hletter : ∀ code, reportsNoChange code = true → isRenameOrCopy code = false := by
    intro code hcode
    simp only [reportsNoChange, Bool.or_eq_true, decide_eq_true_eq] at hcode
    rcases hcode with (rfl | rfl) | rfl <;> rfl
  unfold PorcelainEntry.statuses at hstatuses
  split at hstatuses
  · cases hstatuses
  · split at hstatuses
    · cases hstatuses
    · rw [List.map_eq_nil_iff, List.filter_eq_nil_iff] at hstatuses
      have hindex := hletter entry.indexStatus (by simpa using hstatuses (entry.indexStatus, .staged))
      have hworktree := hletter entry.worktreeStatus
        (by simpa using hstatuses (entry.worktreeStatus, .worktree))
      rw [hindex, hworktree] at hold
      have hnone : entry.oldPath = none := by simpa using hold
      simp [hnone]

/-! ## Paths below the workspace -/

/-- A name as Git keeps it in a path. -/
def IsGitName (name : Str) : Prop :=
  name ≠ [] ∧ '/' ∉ name ∧ name ≠ ".".toList ∧ name ≠ "..".toList

theorem parse_join {names : List Str} (hne : names ≠ []) (h : ∀ name ∈ names, IsGitName name) :
    PathBuf.parse (Str.join ['/'] names) = ⟨false, names⟩ := by
  have hsplit : (Str.join ['/'] names).splitOn '/' = names :=
    List.splitOn_intercalate '/' (fun name hname => (h name hname).2.1) hne
  obtain ⟨first, rest, rfl⟩ := List.exists_cons_of_ne_nil hne
  have hfirst : first.isEmpty = false := by simpa using (h first (by simp)).1
  have hrest : rest.filter (fun part : Str => !part.isEmpty && part ≠ ['.']) = rest := by
    rw [List.filter_eq_self]
    intro name hname
    have hname := h name (List.mem_cons_of_mem _ hname)
    have hdot : name ≠ ['.'] := hname.2.2.1
    simp [hname.1, hdot]
  unfold PathBuf.parse
  rw [hsplit]
  simp only [hfirst, Bool.false_and, Bool.false_eq_true, if_false]
  rw [hrest]
  rfl

theorem normalizeComponents_names {names : List Str} (h : ∀ name ∈ names, IsGitName name)
    (normalized : List Str) :
    normalizeComponents normalized names = some (normalized ++ names) := by
  induction names generalizing normalized with
  | nil => simp [normalizeComponents]
  | cons name names ih =>
    obtain ⟨-, -, hdot, hdots⟩ := h name (by simp)
    rw [normalizeComponents, if_neg hdots, if_neg hdot,
      ih fun other hother => h other (List.mem_cons_of_mem _ hother)]
    simp

/-- A path of plain names is its own normal form. -/
theorem normalizeRelative_names {names : List Str} (h : ∀ name ∈ names, IsGitName name) :
    normalizeRelative ⟨false, names⟩ = if names.isEmpty then none else some names := by
  unfold normalizeRelative
  rw [if_neg (by simp), normalizeComponents_names h, List.nil_append, Option.bind_some]
  cases hempty : names.isEmpty with
  | true => rfl
  | false =>
    have hne : names ≠ [] := by simpa using hempty
    simp [parse_join hne h]

theorem stripPathPrefix_eq_some {workspacePrefix : RelPath} {names path : List Str} :
    stripPathPrefix workspacePrefix names = some path ↔
      ∃ above : List Utf8Name, workspacePrefix = above.map FileName.utf8 ∧
        names = above.map Utf8Name.text ++ path := by
  induction workspacePrefix generalizing names with
  | nil =>
    constructor
    · intro h
      exact ⟨[], rfl, Option.some.inj h⟩
    · rintro ⟨above, habove, rfl⟩
      rw [List.map_eq_nil_iff.mp habove.symm]
      rfl
  | cons component rest ih =>
    cases component with
    | other bytes =>
      constructor
      · intro h
        cases h
      · rintro ⟨above, habove, -⟩
        cases above <;> simp at habove
    | utf8 name =>
      cases names with
      | nil =>
        constructor
        · intro h
          cases h
        · rintro ⟨above, habove, hnames⟩
          cases above with
          | nil => cases habove
          | cons first above => cases hnames
      | cons first names =>
        rw [stripPathPrefix]
        constructor
        · intro h
          split at h
          · next hname =>
            obtain ⟨above, rfl, rfl⟩ := ih.mp h
            exact ⟨name :: above, rfl, by rw [List.map_cons, hname, List.cons_append]⟩
          · cases h
        · rintro ⟨above, habove, hnames⟩
          cases above with
          | nil => cases habove
          | cons next above =>
            obtain ⟨hname, hrest⟩ := List.cons_eq_cons.mp habove
            obtain rfl := FileName.utf8.inj hname
            obtain ⟨rfl, rfl⟩ := List.cons_eq_cons.mp hnames
            rw [if_pos rfl]
            exact ih.mpr ⟨above, hrest, rfl⟩

/-- A path as Git writes it is accepted exactly when it is below the prefix. -/
theorem workspaceRelativePath_names {names : List Str} (hne : names ≠ [])
    (h : ∀ name ∈ names, IsGitName name) (workspacePrefix : RelPath) (path : List Str) :
    workspaceRelativePath (Str.bytes (Str.join ['/'] names)) workspacePrefix = some path ↔
      path ≠ [] ∧ ∃ above : List Utf8Name, workspacePrefix = above.map FileName.utf8 ∧
        names = above.map Utf8Name.text ++ path := by
  have hempty : names.isEmpty = false := by simpa using hne
  unfold workspaceRelativePath
  rw [Str.fromUtf8_bytes, Option.bind_some, parse_join hne h, normalizeRelative_names h,
    hempty, if_neg (by simp), Option.bind_some, Option.bind_eq_some_iff, ← stripPathPrefix_eq_some]
  -- What is left below the prefix is a path of plain names too.
  have hbelow : ∀ below, stripPathPrefix workspacePrefix names = some below →
      normalizeRelative ⟨false, below⟩ = if below.isEmpty then none else some below := by
    intro below hstrip
    obtain ⟨above, -, rfl⟩ := stripPathPrefix_eq_some.mp hstrip
    exact normalizeRelative_names fun name hname => h name (List.mem_append_right _ hname)
  constructor
  · rintro ⟨below, hstrip, hnormal⟩
    rw [hbelow below hstrip] at hnormal
    split at hnormal
    · cases hnormal
    · next hnonempty =>
      obtain rfl := Option.some.inj hnormal
      exact ⟨by simpa using hnonempty, hstrip⟩
  · rintro ⟨hpath, hstrip⟩
    exact ⟨path, hstrip, by rw [hbelow path hstrip, if_neg (by simpa using hpath)]⟩

/-- Different paths as Git writes them are different below the prefix. -/
theorem names_eq_of_workspaceRelativePath {left right : List Str} (hleft : left ≠ [])
    (hright : right ≠ []) (hleftNames : ∀ name ∈ left, IsGitName name)
    (hrightNames : ∀ name ∈ right, IsGitName name) {workspacePrefix : RelPath} {path : List Str}
    (h : workspaceRelativePath (Str.bytes (Str.join ['/'] left)) workspacePrefix = some path)
    (h' : workspaceRelativePath (Str.bytes (Str.join ['/'] right)) workspacePrefix = some path) :
    left = right := by
  obtain ⟨-, above, hprefix, rfl⟩ :=
    (workspaceRelativePath_names hleft hleftNames workspacePrefix path).mp h
  obtain ⟨-, above', hprefix', rfl⟩ :=
    (workspaceRelativePath_names hright hrightNames workspacePrefix path).mp h'
  have hsame : above = above' :=
    List.map_injective_iff.mpr (fun _ _ => FileName.utf8.inj) ( hprefix.symm.trans hprefix')
  rw [hsame]

/-- The changes of both formats are the fold of what the entries with an accepted path report.
    There is one change for each path that such an entry reports a status of: its sources are those
    of the entries, its old path is the first one that they have, and its status is the fold of
    theirs. Paths of plain names are accepted exactly below the prefix, and are not merged. -/
theorem gitStatus_correct (source : ContextChangeSource) (workspacePrefix : RelPath)
    (named : List NameStatusEntry) (listed : List PorcelainEntry) :
    let changes := mergePorcelainStatus
      (mergeNameStatus ∅ (encodeNameStatus named) source workspacePrefix)
      (encodePorcelain listed) workspacePrefix
    let reports := named.filterMap (NameStatusEntry.report source workspacePrefix) ++
      listed.filterMap (PorcelainEntry.report workspacePrefix)
    changes = reports.foldl applyReport ∅ ∧
    (∀ path, path ∈ changes ↔ ∃ report ∈ reports, report.path = path ∧ report.statuses ≠ []) ∧
    (∀ path change, changes[path]? = some change →
      change.filePath = path ∧
      (∀ found, found ∈ change.sources ↔ ∃ report ∈ reports, report.path = path ∧
        ∃ status, (status, found) ∈ report.statuses) ∧
      change.sources.Nodup ∧
      change.oldPath = (reports.filter fun report => report.path = path).findSome?
        EntryReport.oldPath ∧
      ∃ first rest, ((reports.filter fun report => report.path = path).flatMap
          EntryReport.statuses).map Prod.fst = first :: rest ∧
        change.status = rest.foldl mergeStatus first) ∧
    (∀ names, names ≠ [] → (∀ name ∈ names, IsGitName name) → ∀ path,
      workspaceRelativePath (Str.bytes (Str.join ['/'] names)) workspacePrefix = some path ↔
        path ≠ [] ∧ ∃ above : List Utf8Name, workspacePrefix = above.map FileName.utf8 ∧
          names = above.map Utf8Name.text ++ path) ∧
    ∀ left right, left ≠ [] → right ≠ [] → (∀ name ∈ left ++ right, IsGitName name) → ∀ path,
      workspaceRelativePath (Str.bytes (Str.join ['/'] left)) workspacePrefix = some path →
      workspaceRelativePath (Str.bytes (Str.join ['/'] right)) workspacePrefix = some path →
      left = right := by
  intro changes reports
  have hchanges : changes = reports.foldl applyReport ∅ := by
    show mergePorcelainStatus _ _ _ = _
    rw [mergePorcelainStatus_encode, mergeNameStatus_encode, List.foldl_append]
  have htells : ∀ report ∈ reports, report.Tells := by
    intro report hreport
    rcases List.mem_append.mp hreport with hnamed | hlisted
    · obtain ⟨entry, -, hentry⟩ := List.mem_filterMap.mp hnamed
      exact NameStatusEntry.tells hentry
    · obtain ⟨entry, -, hentry⟩ := List.mem_filterMap.mp hlisted
      exact PorcelainEntry.tells hentry
  have hget : ∀ path, changes[path]? = changeOf path
      ((reports.filter fun report => report.path = path).flatMap EntryReport.mentions) := by
    intro path
    rw [hchanges, foldl_applyReport, foldl_mergeMention, filter_mentions]
  have hmentions : ∀ path (mention : Mention),
      mention ∈ (reports.filter fun report => report.path = path).flatMap EntryReport.mentions ↔
        ∃ report ∈ reports, report.path = path ∧ ∃ status ∈ report.statuses,
          (⟨path, report.oldPath, status.1, status.2⟩ : Mention) = mention := by
    intro path mention
    simp only [List.mem_flatMap, List.mem_filter, decide_eq_true_eq, EntryReport.mentions,
      List.mem_map]
    constructor
    · rintro ⟨report, ⟨hreport, rfl⟩, hstatus⟩
      exact ⟨report, hreport, rfl, hstatus⟩
    · rintro ⟨report, hreport, rfl, hstatus⟩
      exact ⟨report, ⟨hreport, rfl⟩, hstatus⟩
  refine ⟨hchanges, ?_, ?_, ?_, ?_⟩
  · intro path
    rw [Std.ExtTreeMap.mem_iff_isSome_getElem?, hget]
    cases hfound : (reports.filter fun report => report.path = path).flatMap
        EntryReport.mentions with
    | nil =>
      simp only [changeOf, Option.isSome_none, Bool.false_eq_true, false_iff]
      rintro ⟨report, hreport, hpath, hstatuses⟩
      obtain ⟨status, hstatus⟩ := List.exists_mem_of_ne_nil _ hstatuses
      have hmem := (hmentions path _).mpr ⟨report, hreport, hpath, status, hstatus, rfl⟩
      rw [hfound] at hmem
      cases hmem
    | cons mention rest =>
      simp only [changeOf, Option.isSome_some, true_iff]
      obtain ⟨report, hreport, hpath, status, hstatus, -⟩ :=
        (hmentions path mention).mp (by rw [hfound]; simp)
      exact ⟨report, hreport, hpath, List.ne_nil_of_mem hstatus⟩
  · intro path change hchange
    rw [hget] at hchange
    obtain ⟨first, rest, hfound⟩ : ∃ first rest, (reports.filter fun report =>
        report.path = path).flatMap EntryReport.mentions = first :: rest := by
      cases hfound : (reports.filter fun report => report.path = path).flatMap
          EntryReport.mentions with
      | nil =>
        rw [hfound] at hchange
        cases hchange
      | cons first rest => exact ⟨first, rest, rfl⟩
    have hmap : ((reports.filter fun report => report.path = path).flatMap
        EntryReport.statuses).map Prod.fst = (first :: rest).map Mention.status := by
      rw [← hfound, List.map_flatMap, List.map_flatMap]
      simp [EntryReport.mentions, Function.comp_def]
    obtain ⟨hnodup, hsources⟩ := foldl_addSource (first :: rest) [] List.nodup_nil
    rw [hfound] at hchange
    obtain rfl := Option.some.inj hchange
    refine ⟨rfl, ?_, hnodup, ?_, first.status, rest.map Mention.status, hmap, rfl⟩
    · intro found
      rw [hsources, ← hfound]
      simp only [List.not_mem_nil, false_or, hmentions]
      constructor
      · rintro ⟨mention, ⟨report, hreport, hpath, status, hstatus, rfl⟩, rfl⟩
        exact ⟨report, hreport, hpath, status.1, hstatus⟩
      · rintro ⟨report, hreport, hpath, status, hstatus⟩
        exact ⟨_, ⟨report, hreport, hpath, (status, found), hstatus, rfl⟩, rfl⟩
    · show (first :: rest).findSome? Mention.oldPath = _
      rw [← hfound]
      exact findSome?_mentions fun report hreport => htells report (List.mem_filter.mp hreport).1
  · intro names hne hnames path
    exact workspaceRelativePath_names hne hnames workspacePrefix path
  · intro left right hleft hright hnames path h h'
    exact names_eq_of_workspaceRelativePath hleft hright
      (fun name hname => hnames name (List.mem_append_left _ hname))
      (fun name hname => hnames name (List.mem_append_right _ hname)) h h'

private def sampleEntry (indexStatus worktreeStatus : Char) (path : String)
    (hindex : UInt8.ofNat indexStatus.toNat ≠ 0) (hworktree : UInt8.ofNat worktreeStatus.toNat ≠ 0)
    (hpath : IsField (Str.bytes path.toList))
    (hplain : (isRenameOrCopy (UInt8.ofNat indexStatus.toNat) ||
      isRenameOrCopy (UInt8.ofNat worktreeStatus.toNat)) = false) : PorcelainEntry where
  indexStatus := UInt8.ofNat indexStatus.toNat
  worktreeStatus := UInt8.ofNat worktreeStatus.toNat
  path := Str.bytes path.toList
  oldPath := none
  index_ne := hindex
  worktree_ne := hworktree
  path_field := hpath
  old_field old hold := by cases hold
  old_isSome := hplain.symm

/-- Two different paths, of which one goes through `..`, leave one change; and an ignored path
    leaves none. -/
theorem gitStatus_normalizes_paths :
    ∃ left right ignored : PorcelainEntry, left.path ≠ right.path ∧
      workspaceRelativePath left.path [] = some ["b".toList] ∧
      workspaceRelativePath right.path [] = some ["b".toList] ∧
      (mergePorcelainStatus ∅ (encodePorcelain [left, right]) []).size = 1 ∧
      workspaceRelativePath ignored.path [] = some ["c".toList] ∧
      (mergePorcelainStatus ∅ (encodePorcelain [ignored]) []).size = 0 := by
  refine ⟨sampleEntry ' ' 'M' "a/../b" ?_ ?_ ?_ ?_, sampleEntry ' ' 'M' "b" ?_ ?_ ?_ ?_,
    sampleEntry '!' '!' "c" ?_ ?_ ?_ ?_, ?_⟩
  all_goals decide +kernel

end Ivygrep.Native
