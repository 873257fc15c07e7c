import Ivygrep.Native.WatchFilter
import Ivygrep.Spec.SourceWalkerCorrect
import Ivygrep.Spec.StrCorrect
import Ivygrep.Spec.WatchQueueInv

/-!
# What the watch filter lets through

The filter decides about a path from the root's own list of rules, its name and where it
now is, while the walker listens to every ignore file of the tree. The change of an event
covers a listed path exactly when the filter's view lets the path pass, or the event asks for
a scan, or it says that the path is a directory that lost its `.git` entry.
-/

namespace Ivygrep.Native

/-! ## The index lookup -/

namespace IndexedFiles

/-- As `0` follows `/` in byte order, the range has every text with the prefix. -/
theorem lex_range_iff (front text : List UInt8) :
    (!text.lex (front ++ [47]) && text.lex (front ++ [48])) = true ↔ front ++ [47] <+: text := by
  induction front generalizing text with
  | nil =>
    cases text with
    | nil => simp
    | cons byte text =>
      have hbyte : ¬ byte < 47 ∧ byte < 48 ↔ 47 = byte := by
        rw [UInt8.lt_iff_toNat_lt, UInt8.lt_iff_toNat_lt, ← UInt8.toNat_inj]
        show ¬ byte.toNat < 47 ∧ byte.toNat < 48 ↔ 47 = byte.toNat
        omega
      simpa using hbyte
  | cons first front ih =>
    cases text with
    | nil => simp
    | cons byte text =>
      by_cases heq : byte = first
      · subst heq
        simpa [List.lex, UInt8.lt_irrefl] using ih text
      · -- The texts differ at their first byte, so both comparisons end there.
        simp [heq, Ne.symm heq]

theorem isBelow_iff (relDir : List Str) (filePath : Str) :
    isBelow relDir filePath = true ↔
      Str.bytes (Str.join ['/'] relDir ++ ['/']) <+: Str.bytes filePath := by
  have hbytes : ∀ c : Char, Str.bytes (Str.join ['/'] relDir ++ [c]) =
      Str.bytes (Str.join ['/'] relDir) ++ String.utf8EncodeChar c := by
    intro c
    rw [Str.bytes, List.flatMap_append]
    simp [Str.bytes]
  have hslash : String.utf8EncodeChar '/' = [47] := Str.utf8EncodeChar_of_ascii (by decide)
  have hzero : String.utf8EncodeChar '0' = [48] := Str.utf8EncodeChar_of_ascii (by decide)
  show (!bytesBefore filePath (Str.join ['/'] relDir ++ ['/']) &&
    bytesBefore filePath (Str.join ['/'] relDir ++ ['0'])) = true ↔ _
  rw [bytesBefore, bytesBefore, hbytes, hbytes, hslash, hzero]
  exact lex_range_iff _ _

/-- The lookup says yes for a file below the directory. -/
theorem hasFilesBelow_of_mem {index : IndexedFiles} {filePaths : List Str}
    (hfilePaths : index.filePaths = some filePaths) {relDir : List Str} {filePath : Str}
    (hmem : filePath ∈ filePaths)
    (hbelow : Str.bytes (Str.join ['/'] relDir ++ ['/']) <+: Str.bytes filePath) :
    index.hasFilesBelow relDir = true := by
  unfold hasFilesBelow
  split
  · rfl
  · split
    · rfl
    · rw [hfilePaths]
      exact List.any_eq_true.mpr ⟨filePath, hmem, (isBelow_iff relDir filePath).mpr hbelow⟩

end IndexedFiles

namespace WatchEventFilter

variable {filter : WatchEventFilter} {fs : FileSystem}

/-! ## Paths below the root -/

theorem normalizeWatchPath_eq {path : PathBuf} {found : List Str × List Str}
    (h : filter.normalizeWatchPath fs path = some found) : found.1 = filter.root ++ found.2 := by
  have hsplit : ∀ absolute : List Str, filter.root.isPrefixOf absolute = true →
      absolute = filter.root ++ absolute.drop filter.root.length := by
    intro absolute hprefix
    exact List.prefix_iff_eq_append.mp (List.isPrefixOf_iff_prefix.mp hprefix) |>.symm
  rw [normalizeWatchPath] at h
  split at h
  · next hprefix =>
    obtain rfl := Option.some.inj h
    exact hsplit _ hprefix
  · obtain ⟨normalized, -, h⟩ := Option.bind_eq_some_iff.mp h
    split at h
    · next hprefix =>
      obtain rfl := Option.some.inj h
      exact hsplit _ hprefix
    · exact absurd h (by simp)

/-- The reported paths are those that an event path below the root stands for. -/
theorem mem_pathsToReindex {event : NotifyEvent} {rel : List Str} :
    rel ∈ filter.pathsToReindex fs event ↔
      ∃ path ∈ event.paths, filter.pathShouldReindex fs path = true ∧
        filter.normalizeWatchPath fs path = some (filter.root ++ rel, rel) := by
  constructor
  · intro h
    obtain ⟨path, hpath, hrel⟩ := List.mem_filterMap.mp h
    obtain ⟨hmem, hshould⟩ := List.mem_filter.mp hpath
    obtain ⟨found, hfound, rfl⟩ := Option.map_eq_some_iff.mp hrel
    refine ⟨path, hmem, hshould, ?_⟩
    rw [hfound, ← normalizeWatchPath_eq hfound]
  · rintro ⟨path, hmem, hshould, hfound⟩
    exact List.mem_filterMap.mpr ⟨path, List.mem_filter.mpr ⟨hmem, hshould⟩, by simp [hfound]⟩

/-! ## Markers -/

/-- An entry of the event is the `.git` of the directory, and it went away. -/
def LosesMarker (filter : WatchEventFilter) (fs : FileSystem) (event : NotifyEvent)
    (relDir : List Str) : Prop :=
  ∃ path ∈ event.paths, ∃ marker, filter.markerOf fs path = some (marker, relDir) ∧
    fs.symlinkMetadata marker = none

/-- A `.git` entry appears that the filter does not track, in a directory of which the index
    has files. Beyond its limit, the filter forgets what it tracks. -/
def FindsMarker (filter : WatchEventFilter) (fs : FileSystem) (index : IndexedFiles)
    (kind : EventKind) (markers : Finset (List Str)) (path : PathBuf) : Prop :=
  ∃ marker relDir, filter.markerOf fs path = some (marker, relDir) ∧
    fs.symlinkMetadata marker ≠ none ∧
    (relDir ∉ markers ∨ maxTrackedCheckoutMarkers ≤ markers.card) ∧
    appears kind = true ∧ index.hasFilesBelow relDir = true

theorem checkMarker_disappeared (index : IndexedFiles) (kind : EventKind)
    (state : Finset (List Str) × CheckoutMarkerChange) (path : PathBuf) (relDir : List Str) :
    relDir ∈ (filter.checkMarker fs index kind state path).2.disappeared ↔
      relDir ∈ state.2.disappeared ∨
        ∃ marker, filter.markerOf fs path = some (marker, relDir) ∧
          fs.symlinkMetadata marker = none := by
  unfold checkMarker
  cases hmarker : filter.markerOf fs path with
  | none => simp
  | some found =>
    obtain ⟨marker, dir⟩ := found
    by_cases hgone : fs.symlinkMetadata marker = none
    · simp only [hgone, if_true, List.mem_append, List.mem_singleton, Option.some.injEq,
        Prod.mk.injEq]
      constructor
      · rintro (h | rfl)
        · exact .inl h
        · exact .inr ⟨marker, ⟨rfl, rfl⟩, hgone⟩
      · rintro (h | ⟨_, ⟨-, rfl⟩, -⟩)
        · exact .inl h
        · exact .inr rfl
    · have hsame : ∀ change : CheckoutMarkerChange, ∀ appeared : Prop, ∀ _ : Decidable appeared,
          (if appeared then { change with appearedOverIndexedFiles := true } else change
            : CheckoutMarkerChange).disappeared = change.disappeared := by
        intro change appeared _
        split <;> rfl
      simp only [if_neg hgone, hsame, Option.some.injEq, Prod.mk.injEq]
      constructor
      · exact .inl
      · rintro (h | ⟨_, ⟨rfl, -⟩, habsent⟩)
        · exact h
        · exact absurd habsent hgone

theorem checkMarker_appeared (index : IndexedFiles) (kind : EventKind)
    (state : Finset (List Str) × CheckoutMarkerChange) (path : PathBuf) :
    (filter.checkMarker fs index kind state path).2.appearedOverIndexedFiles = true ↔
      state.2.appearedOverIndexedFiles = true ∨
        filter.FindsMarker fs index kind state.1 path := by
  unfold checkMarker FindsMarker
  cases hmarker : filter.markerOf fs path with
  | none => simp
  | some found =>
    obtain ⟨marker, dir⟩ := found
    by_cases hgone : fs.symlinkMetadata marker = none
    · simp [hgone]
    · have hforgotten : dir ∉ (if state.1.card ≥ maxTrackedCheckoutMarkers then ∅ else state.1) ↔
          dir ∉ state.1 ∨ maxTrackedCheckoutMarkers ≤ state.1.card := by
        split
        · next hfull => simp [hfull]
        · next hfull => simp [hfull]
      have hset : ∀ change : CheckoutMarkerChange, ∀ appeared : Prop, ∀ _ : Decidable appeared,
          ((if appeared then { change with appearedOverIndexedFiles := true } else change
            : CheckoutMarkerChange).appearedOverIndexedFiles = true ↔
              change.appearedOverIndexedFiles = true ∨ appeared) := by
        intro change appeared _
        split
        · next h => simp [h]
        · next h => simp [h]
      simp only [if_neg hgone, hset, hforgotten, Option.some.injEq, Prod.mk.injEq]
      constructor
      · rintro (h | h)
        · exact .inl h
        · exact .inr ⟨marker, dir, ⟨rfl, rfl⟩, hgone, h⟩
      · rintro (h | ⟨_, _, ⟨rfl, rfl⟩, -, h⟩)
        · exact .inl h
        · exact .inr h

/-- The markers that the filter tracks after the first paths of an event. -/
def tracked (filter : WatchEventFilter) (fs : FileSystem) (index : IndexedFiles)
    (kind : EventKind) (paths : List PathBuf) : Finset (List Str) :=
  (paths.foldl (filter.checkMarker fs index kind) (filter.checkoutMarkers, ⟨false, []⟩)).1

/-- The loop over the paths of an event reports the directories that lost their markers. -/
theorem mem_disappeared (index : IndexedFiles) (event : NotifyEvent) (relDir : List Str) :
    relDir ∈ (filter.checkoutMarkerChange fs index event).2.disappeared ↔
      filter.LosesMarker fs event relDir := by
  unfold checkoutMarkerChange LosesMarker
  induction event.paths using List.reverseRecOn with
  | nil => simp
  | append_singleton paths path ih =>
    rw [List.foldl_append, List.foldl_cons, List.foldl_nil, checkMarker_disappeared, ih]
    simp only [List.mem_append, List.mem_singleton, or_and_right, exists_or, exists_eq_left]

/-- It asks for a scan exactly when one of the paths does, with what is tracked by then. -/
theorem appearedOverIndexedFiles_iff (index : IndexedFiles) (event : NotifyEvent) :
    (filter.checkoutMarkerChange fs index event).2.appearedOverIndexedFiles = true ↔
      ∃ before path after, event.paths = before ++ path :: after ∧
        filter.FindsMarker fs index event.kind (filter.tracked fs index event.kind before) path := by
  unfold checkoutMarkerChange tracked
  induction event.paths using List.reverseRecOn with
  | nil => simp
  | append_singleton paths last ih =>
    rw [List.foldl_append, List.foldl_cons, List.foldl_nil, checkMarker_appeared, ih]
    constructor
    · rintro (⟨before, path, after, rfl, hfinds⟩ | hfinds)
      · exact ⟨before, path, after ++ [last], by simp, hfinds⟩
      · exact ⟨paths, last, [], rfl, hfinds⟩
    · rintro ⟨before, path, after, hpaths, hfinds⟩
      cases after using List.reverseRecOn with
      | nil =>
        obtain ⟨rfl, hlast⟩ := List.append_inj' hpaths rfl
        obtain rfl := (List.cons.inj hlast).1
        exact .inr hfinds
      | append_singleton after end_ =>
        rw [← List.cons_append, ← List.append_assoc] at hpaths
        obtain ⟨rfl, -⟩ := List.append_inj' hpaths rfl
        exact .inl ⟨before, path, after, rfl, hfinds⟩

/-! ## Events -/

/-- The event asks for a scan: one of its paths is an ignore configuration of the workspace,
    or a `.git` entry that appears over indexed files. -/
def AsksForScan (filter : WatchEventFilter) (fs : FileSystem) (index : IndexedFiles)
    (event : NotifyEvent) : Prop :=
  (∃ path ∈ event.paths, filter.reconfigures fs path = true) ∨
    ∃ before path after, event.paths = before ++ path :: after ∧
      filter.FindsMarker fs index event.kind (filter.tracked fs index event.kind before) path

/-- What an event covers, for each path below the root. -/
theorem changeForEvent_covers {skipGitignore : Option Bool} {index : IndexedFiles}
    {event : NotifyEvent} (haccess : event.kind ≠ .access) (rel : List Str) :
    (filter.changeForEvent fs skipGitignore index event).2.Covers (.path rel) ↔
      filter.AsksForScan fs index event ∨ filter.LosesMarker fs event rel ∨
        rel ∈ filter.pathsToReindex fs event := by
  unfold changeForEvent AsksForScan
  rw [if_neg haccess, ← appearedOverIndexedFiles_iff, ← mem_disappeared index]
  by_cases hreconfigures : event.paths.any (filter.reconfigures fs) = true
  · rw [if_pos hreconfigures]
    simp [WatchChange.Covers, List.any_eq_true.mp hreconfigures]
  · rw [if_neg hreconfigures]
    have hnone : ¬ ∃ path ∈ event.paths, filter.reconfigures fs path = true := by
      rwa [List.any_eq_true] at hreconfigures
    by_cases happeared :
        (filter.checkoutMarkerChange fs index event).2.appearedOverIndexedFiles = true
    · simp [happeared, WatchChange.Covers]
    · rw [Bool.not_eq_true] at happeared
      simp only [happeared, hnone, Bool.false_eq_true, if_false, false_or]
      have hmem : rel ∈ ((filter.pathsToReindex fs event ++
          (filter.checkoutMarkerChange fs index event).2.disappeared).toFinset) ↔
          rel ∈ (filter.checkoutMarkerChange fs index event).2.disappeared ∨
            rel ∈ filter.pathsToReindex fs event := by
        simp [or_comm]
      show (if (filter.pathsToReindex fs event ++
        (filter.checkoutMarkerChange fs index event).2.disappeared).toFinset = ∅ then
          WatchChange.none else .paths _).Covers (.path rel) ↔ _
      rw [← hmem]
      split
      · next hempty => simp [hempty, WatchChange.Covers]
      · rfl

/-- An event leaves the filter as its last refresh made it, up to the tracked markers, or
    refreshes it. -/
theorem changeForEvent_refreshed {earlier : FileSystem} {earlierSkip skipGitignore : Option Bool}
    (hrefreshed : filter.refresh earlier earlierSkip = filter) (index : IndexedFiles)
    (event : NotifyEvent) :
    let after := (filter.changeForEvent fs skipGitignore index event).1
    after.refresh earlier earlierSkip = after ∨ after.refresh fs skipGitignore = after := by
  intro after
  have htracking : ∀ markers : Finset (List Str),
      ({ filter with checkoutMarkers := markers } : WatchEventFilter).refresh earlier earlierSkip =
        { filter with checkoutMarkers := markers } := by
    intro markers
    conv => rhs; rw [← hrefreshed]
    rfl
  show (filter.changeForEvent fs skipGitignore index event).1.refresh earlier earlierSkip = _ ∨ _
  unfold after changeForEvent
  split
  · exact .inl hrefreshed
  · split
    · exact .inr rfl
    · left
      simp only
      split <;> exact htracking _

/-! ## Listed paths -/

/-- The filter's view lets a path pass, by its name and where it now is, and by the root's
    own list of rules. -/
structure LetsPass (filter : WatchEventFilter) (fs : FileSystem) (rel : List Str) : Prop where
  name : ".ivygrep".toList ∉ rel
  owned : isIvygrepOwnedPath fs filter.appHome filter.root (filter.root ++ rel) = false
  nested : filter.nestedCheckouts.contains fs filter.root rel = false
  rules : filter.skipGitignore = false →
    matchedPathOrAnyParents (fs.ignorePolicy filter.root).rootRules rel
      (fs.isDir (filter.root ++ rel)) ≠ .ignore

/-- With the ignore files as they were at the last refresh, the root rules of the filter are
    those of the tree. -/
theorem ignoredByRoot_eq {earlier : FileSystem} {earlierSkip : Option Bool}
    (hrefreshed : filter.refresh earlier earlierSkip = filter)
    (hpolicy : earlier.ignorePolicy filter.root = fs.ignorePolicy filter.root) (rel : List Str)
    (isDir : Bool) :
    filter.ignoredByRoot rel isDir = (!filter.skipGitignore &&
      decide (matchedPathOrAnyParents (fs.ignorePolicy filter.root).rootRules rel isDir =
        .ignore)) := by
  have hgitignore : filter.rootGitignore = if filter.skipGitignore then none else
      some (fs.ignorePolicy filter.root).rootRules := by
    rw [← hpolicy, ← hrefreshed]
    simp [refresh, buildRootGitignore, IgnorePolicy.rootRules, FileSystem.ignorePolicy]
  unfold ignoredByRoot
  rw [hgitignore]
  cases filter.skipGitignore <;> simp

/-- For a path without a `.git` component, the filter reports what it lets pass. -/
theorem pathShouldReindex_iff {earlier : FileSystem} {earlierSkip : Option Bool}
    (hrefreshed : filter.refresh earlier earlierSkip = filter)
    (hpolicy : earlier.ignorePolicy filter.root = fs.ignorePolicy filter.root) {path : PathBuf}
    {rel : List Str} (hpath : filter.normalizeWatchPath fs path = some (filter.root ++ rel, rel))
    (hne : rel ≠ []) (hgit : ".git".toList ∉ rel) :
    filter.pathShouldReindex fs path = true ↔ filter.LetsPass fs rel := by
  have hname : isAlwaysIgnoredWatchPath rel = decide (".ivygrep".toList ∈ rel) := by
    rw [Bool.eq_iff_iff, isAlwaysIgnoredWatchPath, List.any_eq_true]
    constructor
    · rintro ⟨part, hpart, heq⟩
      rcases (Bool.or_eq_true _ _).mp heq with heq | heq
      · rw [decide_eq_true_eq] at heq
        exact absurd (heq ▸ hpart) hgit
      · rw [decide_eq_true_eq] at heq
        exact decide_eq_true (heq ▸ hpart)
    · intro hmem
      exact ⟨_, of_decide_eq_true hmem, by simp⟩
  unfold pathShouldReindex
  simp only [hpath, ignoredByRoot_eq hrefreshed hpolicy, hname]
  constructor
  · intro h
    split at h
    · exact absurd h (by simp)
    · next hpass =>
      simp only [Bool.or_eq_true, not_or, Bool.not_eq_true, decide_eq_false_iff_not] at hpass
      obtain ⟨⟨⟨-, hname⟩, howned⟩, hnested⟩ := hpass
      refine ⟨hname, howned, hnested, fun hskip hignored => ?_⟩
      simp [hskip, hignored] at h
  · intro h
    rw [if_neg]
    · cases hskip : filter.skipGitignore with
      | true => rfl
      | false => simpa using h.rules hskip
    · simp only [List.isEmpty_eq_false_iff.mpr hne, h.name, h.owned, h.nested, decide_false,
        Bool.or_false, Bool.false_eq_true, not_false_eq_true]

/-- A walk lists the path before or after the change. -/
def IsListed (filter : WatchEventFilter) (before after : FileSystem) (rel : List Str) : Prop :=
  sourceWalkerLists before filter.appHome filter.root filter.skipGitignore rel = true ∨
    sourceWalkerLists after filter.appHome filter.root filter.skipGitignore rel = true

/-- For a listed file or directory that is still there, the root rules and the name
    `.ivygrep` are all that counts. -/
theorem letsPass_of_lists {rel : List Str} {kind : FileKind}
    (hcheckouts : filter.nestedCheckouts = .new fs filter.root)
    (hlists : sourceWalkerLists fs filter.appHome filter.root filter.skipGitignore rel = true)
    (hkind : fs.symlinkMetadata (filter.root ++ rel) = some kind) (hsymlink : kind ≠ .symlink)
    (hname : ".ivygrep".toList ∉ rel)
    (hroot : gitignoreMatched (fs.ignorePolicy filter.root).rootRules [] true ≠ .ignore)
    (hoverrides : ∀ above isDir, above <+: rel →
      ¬ (fs.ignorePolicy filter.root).Overrides above isDir) :
    filter.LetsPass fs rel := by
  refine ⟨hname, not_owned_of_lists hlists, ?_, fun hskip hignored => ?_⟩
  · rw [hcheckouts]
    exact not_nested_of_lists hlists hkind hsymlink
  · rw [hskip] at hlists
    rcases overrides_of_lists hlists hkind hsymlink hignored with h | ⟨above, isDir, habove, h⟩
    · exact hroot h
    · exact hoverrides above isDir habove h

private def overriddenRoot : List Str := ["repo".toList]

private def overriddenEntries : List (List Str × FileKind) :=
  [(overriddenRoot, .directory), (overriddenRoot ++ [".gitignore".toList], .file),
    (overriddenRoot ++ [".ignore".toList], .file), (overriddenRoot ++ ["visible.rs".toList], .file),
    (overriddenRoot ++ ["notes.md".toList], .file)]

/-- Outside Git, with `*.rs` in `.gitignore` and `!visible.rs` in `.ignore`. -/
private def overriddenFs : FileSystem where
  symlinkMetadata path := overriddenEntries.lookup path
  metadata path := overriddenEntries.lookup path
  readToString _ := none
  canonicalize path := (overriddenEntries.lookup path.components).map fun _ => path.components
  ignoreRules path :=
    if path = overriddenRoot ++ [".gitignore".toList] then
      [⟨false, fun path _ => path.getLast?.any fun name => ".rs".toList.isSuffixOf name⟩]
    else if path = overriddenRoot ++ [".ignore".toList] then
      [⟨true, fun path _ => path.getLast? = some "visible.rs".toList⟩]
    else []
  gitCommonDirOutput _ := none
  symlinkMetadata_below path kind name hkind hdirectory _ := by
    have hlength : ∀ entry ∈ overriddenEntries, entry.1.length ≤ 2 ∧
        (entry.2 ≠ .directory → entry.1.length = 2) := by decide
    obtain ⟨before, after, hentries, -⟩ := List.lookup_eq_some_iff.mp hkind
    have hpath := (hlength (path, kind) (by simp [hentries])).2 hdirectory
    refine List.lookup_eq_none_iff.mpr fun entry hentry => ?_
    have hentry := (hlength entry hentry).1
    rw [bne_iff_ne]
    intro heq
    rw [← heq, List.length_append] at hentry
    simp_all
  metadata_eq _ _ hkind _ := hkind

private def overriddenFilter : WatchEventFilter :=
  .new overriddenFs overriddenRoot none (some false)

/-- An edit of a file below the root. -/
private def editOf (name : Str) : NotifyEvent :=
  ⟨.modify .data, [⟨true, overriddenRoot ++ [name]⟩]⟩

end WatchEventFilter

end Ivygrep.Native
