import Ivygrep.ForStd.List
import Ivygrep.Native.Merkle

/-!
# What a full build records

The key of a path determines the path, so a build's file map is a function of the
entry at each path: `MerkleSnapshot.build_getElem?`.
-/

namespace Ivygrep.Native

/-! ## Keys -/

/-- The component texts of a UTF-8 path are those of its names. -/
private theorem mapM_text_eq_some {path : RelPath} {texts : List Str}
    (h : (path.mapM fun (component : FileName) =>
      match component with
      | .utf8 name => some name.text
      | .other _ => none) = some texts) :
    ∃ names : List Utf8Name, path = names.map FileName.utf8 ∧ texts = names.map Utf8Name.text := by
  induction path generalizing texts with
  | nil =>
    simp only [List.mapM_nil, Option.pure_def, Option.some.injEq] at h
    exact ⟨[], rfl, h.symm⟩
  | cons component path ih =>
    simp only [List.mapM_cons, Option.bind_eq_bind, Option.bind_eq_some_iff, Option.pure_def,
      Option.some.injEq] at h
    obtain ⟨text, hcomponent, rest, hrest, rfl⟩ := h
    obtain ⟨names, rfl, rfl⟩ := ih hrest
    cases component with
    | utf8 name =>
      obtain rfl : name.text = text := Option.some.inj hcomponent
      exact ⟨name :: names, rfl, rfl⟩
    | other bytes => simp at hcomponent

/-- A key is the joined names of its path. -/
theorem RelPath.toStr_eq_some {path : RelPath} {key : Str} (h : path.toStr = some key) :
    ∃ names : List Utf8Name, path = names.map FileName.utf8 ∧
      key = Str.join ['/'] (names.map Utf8Name.text) := by
  rw [RelPath.toStr, Option.map_eq_some_iff] at h
  obtain ⟨texts, htexts, rfl⟩ := h
  obtain ⟨names, hpath, rfl⟩ := mapM_text_eq_some htexts
  exact ⟨names, hpath, rfl⟩

private theorem Utf8Name.text_injective : Function.Injective Utf8Name.text := by
  rintro ⟨_, _, _⟩ ⟨_, _, _⟩ h
  cases h
  rfl

/-- The names of a key: splitting it at the separators gives them back. -/
private theorem splitOn_join {names : List Utf8Name} (h : names ≠ []) :
    (Str.join ['/'] (names.map Utf8Name.text)).splitOn '/' = names.map Utf8Name.text := by
  refine List.splitOn_intercalate '/' (fun text htext => ?_) (by simpa using h)
  obtain ⟨name, -, rfl⟩ := List.mem_map.mp htext
  exact name.noSeparator

/-- Different paths have different keys. -/
theorem RelPath.toStr_injective {left right : RelPath} {key : Str} (hleft : left.toStr = some key)
    (hright : right.toStr = some key) : left = right := by
  obtain ⟨names, rfl, rfl⟩ := RelPath.toStr_eq_some hleft
  obtain ⟨names', rfl, hkey⟩ := RelPath.toStr_eq_some hright
  have hempty : ∀ {names : List Utf8Name}, Str.join ['/'] (names.map Utf8Name.text) = [] →
      names = [] := by
    intro names h
    cases names with
    | nil => rfl
    | cons name names =>
      -- Splitting the empty key gives one empty name.
      have hsplit := splitOn_join (List.cons_ne_nil name names)
      rw [h] at hsplit
      have hhead : name.text = [] := by
        simp only [List.splitOn_nil, List.map_cons, List.cons.injEq] at hsplit
        exact hsplit.1.symm
      exact absurd hhead name.nonempty
  by_cases hnames : names = []
  · subst hnames
    rw [hempty hkey.symm]
  · have hnames' : names' ≠ [] := by
      rintro rfl
      exact hnames (hempty hkey)
    have heq := congrArg (List.splitOn '/') hkey
    rw [splitOn_join hnames, splitOn_join hnames'] at heq
    rw [List.map_injective_iff.mpr Utf8Name.text_injective heq]

/-! ## Entries -/

/-- The entry at a path is the one that the tree lists for it. -/
theorem Tree.entryAt_eq_some {tree : Tree} {path : RelPath} {entry : Entry} :
    tree.entryAt path = some entry ↔ (path, entry) ∈ tree.entries :=
  ForStd.lookup_eq_some_iff_of_nodup tree.nodup

/-- Above an entry there are directories only. -/
theorem Tree.entryAt_above {tree : Tree} {path rest : RelPath} {entry : Entry}
    (hpath : path ≠ []) (hrest : rest ≠ []) (h : tree.entryAt (path ++ rest) = some entry) :
    tree.entryAt path = some .dir := by
  induction rest using List.reverseRecOn generalizing entry with
  | nil => exact absurd rfl hrest
  | append_singleton rest name ih =>
    obtain ⟨dir, name', heq, hdir⟩ := tree.parent _ (Tree.entryAt_eq_some.mp h)
    rw [← List.append_assoc] at heq
    obtain ⟨rfl, -⟩ := List.append_inj' heq rfl
    rcases hdir with hdir | hdir
    · exact absurd (List.append_eq_nil_iff.mp hdir).1 hpath
    · by_cases hnil : rest = []
      · subst hnil
        rw [List.append_nil] at hdir
        exact Tree.entryAt_eq_some.mpr hdir
      · exact ih hnil (Tree.entryAt_eq_some.mpr hdir)

/-! ## The file map of a build -/

/-- The hash that a metadata build records for this entry at this path. -/
def metadataHashAt (xxh3 : Xxh3) (walker : Walker) (path : RelPath) : Option Entry → Option Str
  | some (.file file) =>
    if isListed walker false path && file.metadata.len ≤ maxIndexableFileBytes then
      some (flaggedHash (metadataFileHash xxh3 file.metadata) false)
    else none
  | _ => none

variable {xxh3 : Xxh3} {walker : Walker} {tree : Tree} {snapshot : MerkleSnapshot}

/-- A successful build, spelled out. -/
theorem MerkleSnapshot.build_eq_ok (h : MerkleSnapshot.build xxh3 walker tree = .ok snapshot) :
    validateWorkspaceRoot tree = .ok () ∧
      snapshot.files = Std.ExtTreeMap.ofList
        ((tree.entries.filterMap (snapshotFile walker)).map fun (key, file) =>
          (key, flaggedHash (metadataFileHash xxh3 file.metadata) false)) compare ∧
      snapshot.rootHash = Native.rootHash xxh3 snapshot.files := by
  simp only [MerkleSnapshot.build, MerkleSnapshot.buildInner, bind, Except.bind] at h
  split at h
  · simp at h
  · rename_i hroot
    split at h
    · simp at h
    · simp only [Except.ok.injEq] at h
      subst h
      exact ⟨hroot, rfl, rfl⟩

/-- The entry that a snapshot records under a key. -/
theorem snapshotFile_eq_some {entry : RelPath × Entry} {key : Str} {file : SourceFile} :
    snapshotFile walker entry = some (key, file) ↔
      entry.2 = .file file ∧ isListed walker false entry.1 = true ∧
        file.metadata.len ≤ maxIndexableFileBytes ∧ entry.1.toStr = some key := by
  obtain ⟨path, entry⟩ := entry
  cases entry with
  | file found =>
    simp only [snapshotFile, Option.ite_none_right_eq_some, Option.map_eq_some_iff,
      Bool.and_eq_true, decide_eq_true_eq, Prod.mk.injEq, Entry.file.injEq]
    constructor
    · rintro ⟨⟨hlisted, hlen⟩, found', hkey, rfl, rfl⟩
      exact ⟨rfl, hlisted, hlen, hkey⟩
    · rintro ⟨rfl, hlisted, hlen, hkey⟩
      exact ⟨⟨hlisted, hlen⟩, key, hkey, rfl, rfl⟩
  | dir => simp [snapshotFile]
  | symlink => simp [snapshotFile]
  | special => simp [snapshotFile]

/-- The recorded keys are different. -/
private theorem snapshotKeys_pairwise (walker : Walker) (tree : Tree) :
    ((tree.entries.filterMap (snapshotFile walker)).map fun (key, file) =>
        (key, flaggedHash (metadataFileHash xxh3 file.metadata) false)).Pairwise
      fun left right => ¬ compare left.1 right.1 = .eq := by
  rw [List.pairwise_map, List.pairwise_filterMap]
  refine (List.pairwise_map.mp tree.nodup).imp fun {left right} hne => ?_
  rintro ⟨key, file⟩ hleft ⟨key', file'⟩ hright heq
  obtain rfl : key = key' := Std.LawfulEqCmp.eq_of_compare heq
  exact hne (RelPath.toStr_injective (snapshotFile_eq_some.mp hleft).2.2.2
    (snapshotFile_eq_some.mp hright).2.2.2)

/-- A build records under a path's key what the entry at the path gives. -/
theorem MerkleSnapshot.build_getElem?
    (h : MerkleSnapshot.build xxh3 walker tree = .ok snapshot) {path : RelPath} {key : Str}
    (hkey : path.toStr = some key) :
    snapshot.files[key]? = metadataHashAt xxh3 walker path (tree.entryAt path) := by
  obtain ⟨-, hfiles, -⟩ := build_eq_ok h
  have hfound : ∀ file, (path, Entry.file file) ∈ tree.entries →
      isListed walker false path = true → file.metadata.len ≤ maxIndexableFileBytes →
      snapshot.files[key]? = some (flaggedHash (metadataFileHash xxh3 file.metadata) false) := by
    intro file hmem hlisted hlen
    rw [hfiles]
    refine Std.ExtTreeMap.getElem?_ofList_of_mem Std.ReflCmp.compare_self (snapshotKeys_pairwise walker tree) ?_
    refine List.mem_map.mpr ⟨(key, file), List.mem_filterMap.mpr ⟨_, hmem, ?_⟩, rfl⟩
    exact snapshotFile_eq_some.mpr ⟨rfl, hlisted, hlen, hkey⟩
  have habsent : (∀ file, (path, Entry.file file) ∈ tree.entries →
      isListed walker false path = true → ¬ file.metadata.len ≤ maxIndexableFileBytes) →
      snapshot.files[key]? = none := by
    intro hnone
    rw [hfiles]
    refine Std.ExtTreeMap.getElem?_ofList_of_contains_eq_false ?_
    simp only [List.map_map, List.contains_eq_mem, decide_eq_false_iff_not, List.mem_map,
      List.mem_filterMap, Prod.exists]
    rintro ⟨key', file, ⟨path', entry, hmem, hsnapshot⟩, rfl⟩
    obtain ⟨rfl, hlisted, hlen, hkey'⟩ := snapshotFile_eq_some.mp hsnapshot
    obtain rfl : path' = path := RelPath.toStr_injective hkey' hkey
    exact hnone file hmem hlisted hlen
  cases hentry : tree.entryAt path with
  | none =>
    refine habsent fun file hmem => ?_
    simp [Tree.entryAt_eq_some.mpr hmem] at hentry
  | some entry =>
    cases entry with
    | file file =>
      simp only [metadataHashAt, Bool.and_eq_true, decide_eq_true_eq]
      split
      · rename_i hlisted
        exact hfound file (Tree.entryAt_eq_some.mp hentry) hlisted.1 hlisted.2
      · rename_i hlisted
        refine habsent fun other hmem hlist hlen => hlisted ⟨hlist, ?_⟩
        rw [Tree.entryAt_eq_some.mpr hmem] at hentry
        cases hentry
        exact hlen
    | dir =>
      refine habsent fun file hmem => ?_
      simp [Tree.entryAt_eq_some.mpr hmem] at hentry
    | symlink =>
      refine habsent fun file hmem => ?_
      simp [Tree.entryAt_eq_some.mpr hmem] at hentry
    | special =>
      refine habsent fun file hmem => ?_
      simp [Tree.entryAt_eq_some.mpr hmem] at hentry

/-- Every recorded key is the key of a path. -/
theorem MerkleSnapshot.build_key (h : MerkleSnapshot.build xxh3 walker tree = .ok snapshot)
    {key : Str} (hkey : key ∈ snapshot.files) : ∃ path : RelPath, path.toStr = some key := by
  obtain ⟨-, hfiles, -⟩ := build_eq_ok h
  rw [hfiles, Std.ExtTreeMap.mem_ofList] at hkey
  simp only [List.map_map, List.contains_eq_mem, decide_eq_true_eq, List.mem_map,
    List.mem_filterMap, Prod.exists] at hkey
  obtain ⟨key', file, ⟨path, entry, -, hsnapshot⟩, rfl⟩ := hkey
  exact ⟨path, (snapshotFile_eq_some.mp hsnapshot).2.2.2⟩

end Ivygrep.Native
